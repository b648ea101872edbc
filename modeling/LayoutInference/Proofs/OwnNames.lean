import Mathlib
import LayoutInference.Proofs.Scoping
import LayoutInference.Proofs.SuppliedNames

/-!
# Supplied names and the names of a function

Names are supplied for functions, and what is excluded are the names visible at the node of the request.
Inside a function its own scope is open, so its parameters and all that is hoisted to it are visible
(`Program.func_mem_scopes`). The function itself stands outside that scope: a request at the function is
for the function as well, but only the names around it are excluded. `NameSupply.serve_ownName_iff` says
which names of a function can be supplied for it, and where.
-/

namespace LayoutInference

namespace Program

/-- The scope of the function around a node is open at the node. -/
theorem func_mem_scopes_of_path {tree : Tree} {y : Occurrence} {above : List Occurrence}
    (h : tree.whole.Path y above) {fn : NodeId} (hfn : y.around.func = some fn) :
    fn ∈ y.around.scopes := by
  induction h with
  | root => cases hfn
  | @part x y above hpath hy ih =>
    rw [Occurrence.func_of_mem_parts hy] at hfn
    split at hfn
    · next hkind =>
      rw [Occurrence.scopes_of_function hy hkind, Option.some.inj hfn]
      exact List.mem_cons_self
    · rcases Occurrence.scopes_of_mem_parts hy with hscopes | hscopes <;> rw [hscopes]
      · exact List.mem_cons_of_mem _ (ih hfn)
      · exact ih hfn

/-- Inside a function the scope of the function is open. -/
theorem func_mem_scopes {source : Source} {script : Script} {p : Program}
    (h : ofScript source script = .ok p) {n : Node} (hn : n ∈ p.nodes.toList) {fn : NodeId}
    (hfn : n.func = some fn) : fn ∈ n.scopes := by
  obtain ⟨rfl, -⟩ := ofScript_eq_ok_iff.mp h
  obtain ⟨y, above, hpath, rfl⟩ := exists_path hn
  rw [script.toTree.shown_func] at hfn
  rw [script.toTree.shown_scopes]
  exact func_mem_scopes_of_path hpath hfn

/-- Wherever names are supplied for a function, all that the function declares is visible, except at the
function itself. -/
theorem mem_visibleNames_of_owner {source : Source} {script : Script} {p : Program}
    (h : ofScript source script = .ok p) {fn node : NodeId} (howner : p.owner node = some fn)
    (hne : node ≠ fn) {name : String} {d : Node} (hd : p.Declares fn name d) :
    name ∈ p.visibleNames node := by
  have hp := ofScript_numbered h
  obtain ⟨n, hnode, hn⟩ := Option.bind_eq_some_iff.mp howner
  have hmem := mem_nodes hnode
  have hid := hp.id_eq hnode
  split at hn
  · exact absurd (hid.symm.trans (Option.some.inj hn)) hne
  · rw [← hid, mem_visibleNames h hmem]
    exact ⟨fn, func_mem_scopes h hmem hn, d, hd⟩

end Program

namespace NameSupply

variable {p : Program} {supply : NameSupply}

/-- A name that is not taken is supplied when it is proposed. -/
theorem serve_proposed {node : NodeId} {name : String} (hfree : name ∉ supply.taken p node) :
    (serve p (.temporary node name) supply).1 = name := by
  obtain ⟨k, hserve, -, hbefore⟩ := serve_eq p (.temporary node name) supply
  have hk : k = 0 := by
    by_contra hne
    exact hfree (hbefore 0 (Nat.pos_of_ne_zero hne))
  rw [hserve, hk]
  rfl

/-- **A function is supplied with names that it declares itself only at its own node.** Let `name` be
declared in the scope of the function `fn`, be it as a parameter or a variable or function hoisted there,
and let names supplied at `node` be names for `fn`. After some requests a request at `node` is answered
with `name` exactly if `node` is the function itself and no scope around it declares the name as well. -/
theorem serve_ownName_iff {source : Source} {script : Script}
    (h : Program.ofScript source script = .ok p) {fn node : NodeId} (howner : p.owner node = some fn)
    {name : String} {d : Node} (hd : p.Declares fn name d) :
    (∃ (requests : List Request) (r : Request), r.node = node
        ∧ (serve p r (serveAll p requests {}).2).1 = name)
      ↔ node = fn ∧ name ∉ p.visibleNames fn := by
  constructor
  · rintro ⟨requests, r, rfl, hanswer⟩
    obtain ⟨k, hserve, hfree, -⟩ := serve_eq p r (serveAll p requests {}).2
    rw [← hanswer, hserve] at hd ⊢
    have hvisible : r.choice k ∉ p.visibleNames r.node :=
      fun hvisible => hfree (mem_taken.mpr (.inl hvisible))
    have hnode : r.node = fn := by
      by_contra hne
      exact hvisible (Program.mem_visibleNames_of_owner h howner hne hd)
    exact ⟨hnode, hnode ▸ hvisible⟩
  · rintro ⟨rfl, hname⟩
    refine ⟨[], .temporary node name, rfl, serve_proposed fun htaken => ?_⟩
    rcases mem_taken.mp htaken with hvisible | hgiven
    · exact hname hvisible
    · exact absurd hgiven List.not_mem_nil

/-- `function f(i) { var j; }` -/
def ownCounter : Script :=
  ⟨[.function ⟨0, 0⟩ "f" [.mk (.name ⟨0, 0⟩ "i") none] none
    (.mk ⟨0, 0⟩ [.var ⟨0, 0⟩ [.mk (.name ⟨0, 0⟩ "j") none]])]⟩

/-- The body of `f`, node 4, is never supplied with the hoisted `j`; the function, node 2, can be. -/
theorem serve_ownName_iff_ownCounter :
    ownCounter.program.owner 4 = some 2 ∧ ownCounter.program.owner 2 = some 2
      ∧ (∃ d, ownCounter.program.Declares 2 "j" d)
      ∧ (¬∃ (requests : List Request) (r : Request), r.node = 4
        ∧ (serve ownCounter.program r (serveAll ownCounter.program requests {}).2).1 = "j")
      ∧ ∃ (requests : List Request) (r : Request), r.node = 2
        ∧ (serve ownCounter.program r (serveAll ownCounter.program requests {}).2).1 = "j" := by
  have hscript := Script.ofScript_eq_ok ownCounter (by decide +kernel)
  obtain ⟨d, hmem, hscope, hname⟩ : ∃ d ∈ ownCounter.program.nodes.toList,
      d.declaredIn = some 2 ∧ d.name = "j" := by decide +kernel
  have hd := (Program.declares_iff hscript).mpr ⟨hmem, hscope, hname⟩
  have hbody : ownCounter.program.owner 4 = some 2 := by decide +kernel
  have hfn : ownCounter.program.owner 2 = some 2 := by decide +kernel
  refine ⟨hbody, hfn, ⟨d, hd⟩, fun hanswer => ?_, ?_⟩
  · exact absurd ((serve_ownName_iff hscript hbody hd).mp hanswer).1 (by decide)
  · exact (serve_ownName_iff hscript hfn hd).mpr ⟨rfl, by decide +kernel⟩

/-- The first counter for the function `f` is its parameter `i`. -/
theorem ownCounter_clash :
    Program.ofScript ⟨"main.js", []⟩ ownCounter = .ok ownCounter.program
      ∧ ownCounter.program.owner 2 = some 2
      ∧ (∃ d, ownCounter.program.Declares 2 "i" d ∧ d.kind = .parameter)
      ∧ (serve ownCounter.program (.loopCounter 2) {}).1 = "i" := by
  have hscript := Script.ofScript_eq_ok ownCounter (by decide +kernel)
  obtain ⟨d, hmem, hscope, hname, hkind⟩ : ∃ d ∈ ownCounter.program.nodes.toList,
      d.declaredIn = some 2 ∧ d.name = "i" ∧ d.kind = .parameter := by decide +kernel
  exact ⟨hscript, by decide +kernel,
    ⟨d, (Program.declares_iff hscript).mpr ⟨hmem, hscope, hname⟩, hkind⟩, by decide +kernel⟩

end NameSupply

end LayoutInference
