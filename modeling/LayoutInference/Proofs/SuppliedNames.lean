import Mathlib
import LayoutInference.NameSupply
import LayoutInference.Proofs.FreshNames
import LayoutInference.Proofs.Numbering

/-!
# Supplied names

A supply answers every request with the first free name of a series: `NameSupply.serve_firstFree`. A
name is free at a node if it is not visible there and was not given out for the same function before,
where `Program.NamesFor` says which function the names at a node are for.

Two facts carry the proof. The names of a series are all different, so the search for a free one ends
at the first (`firstFree_least`); and the names that a supply has given out are those that it has
answered, whatever requests came in between (`NameSupply.given_serveAll`).
-/

namespace LayoutInference

/-- `p.NamesFor id fn`: the names used at node `id` are names of the function `fn`, or of the program
outside all functions. -/
inductive Program.NamesFor (p : Program) : NodeId → Option NodeId → Prop where
  /-- At a function, they are names of the function itself. -/
  | function {id : NodeId} {n : Node} (hn : p.node? id = some n) (hkind : n.kind = .function) :
    NamesFor p id (some n.id)
  /-- At any other node, they are names of the function that the node belongs to. -/
  | inside {id : NodeId} {n : Node} (hn : p.node? id = some n) (hkind : n.kind ≠ .function) :
    NamesFor p id n.func
  /-- What is no node belongs to no function. -/
  | nowhere {id : NodeId} (hn : p.node? id = none) : NamesFor p id none

/-- A supply keeps its names under the functions that they are for. -/
theorem Program.namesFor_iff {p : Program} {id : NodeId} {fn : Option NodeId} :
    p.NamesFor id fn ↔ p.owner id = fn := by
  constructor
  · intro h
    cases h with
    | function hn hkind => simp [owner, hn, hkind]
    | inside hn hkind => simp [owner, hn, hkind]
    | nowhere hn => simp [owner, hn]
  · rintro rfl
    rw [owner]
    cases hn : p.node? id with
    | none => exact .nowhere hn
    | some n =>
      rw [Option.bind_some]
      split
      · next hkind => exact .function hn hkind
      · next hkind => exact .inside hn hkind

namespace NameSupply

/-! ## Requests -/

/-- What a supply is asked for. -/
inductive Request where
  | loopCounter (node : NodeId)
  | temporary (node : NodeId) (proposed : String)
deriving DecidableEq, Repr

namespace Request

/-- The node where the name is to be used. -/
def node : Request → NodeId
  | .loopCounter node => node
  | .temporary node _ => node

/-- The names without a number that may answer a request. -/
def plain : Request → List String
  | .loopCounter _ => ["i", "j", "k", "l", "m", "n"]
  | .temporary _ proposed => [proposed]

/-- The name that is numbered when none of these is free. -/
def base : Request → String
  | .loopCounter _ => "i"
  | .temporary _ proposed => proposed

/-- The names that may answer a request in the order of preference: `i`, `j`, `k`, `l`, `m`, `n`,
`i_2`, `i_3` and so on for a counter; the proposed name `p`, `p_2`, `p_3` and so on for a temporary. -/
def choice (r : Request) (k : Nat) : String :=
  match r.plain[k]? with
  | some name => name
  | none => r.base ++ "_" ++ toString (k - r.plain.length + 2)

/-- The first names of a series are those without a number. -/
theorem choice_of_lt {r : Request} {k : Nat} (hk : k < r.plain.length) :
    r.choice k = r.plain[k] := by
  rw [choice, List.getElem?_eq_getElem hk]

/-- The names behind those are numbered from two on. -/
theorem choice_of_le {r : Request} {k : Nat} (hk : r.plain.length ≤ k) :
    r.choice k = r.base ++ "_" ++ toString (k - r.plain.length + 2) := by
  rw [choice, List.getElem?_eq_none hk]

/-- The names without a number are all different. -/
theorem nodup_plain (r : Request) : r.plain.Nodup := by
  cases r with
  | loopCounter node => exact (by decide : ["i", "j", "k", "l", "m", "n"].Nodup)
  | temporary node proposed => exact List.nodup_singleton proposed

/-- The names without a number are as long as the one that is numbered. -/
theorem length_of_mem_plain {r : Request} {name : String} (h : name ∈ r.plain) :
    name.length = r.base.length := by
  cases r with
  | loopCounter node =>
    have hall : ∀ name ∈ ["i", "j", "k", "l", "m", "n"], name.length = "i".length := by decide
    exact hall name h
  | temporary node proposed => rw [List.mem_singleton.mp h, base]

/-- A numbered name is longer than those without a number. -/
theorem choice_ne_of_lt_of_le {r : Request} {j k : Nat} (hj : j < r.plain.length)
    (hk : r.plain.length ≤ k) : r.choice j ≠ r.choice k := by
  intro h
  rw [choice_of_lt hj, choice_of_le hk] at h
  have hshort := length_of_mem_plain (List.getElem_mem hj)
  have hlong := congrArg String.length h
  have hunderscore : "_".length = 1 := rfl
  simp only [String.length_append] at hlong
  omega

/-- The names of a series are different. -/
theorem choice_injective (r : Request) {j k : Nat} (h : r.choice j = r.choice k) : j = k := by
  rcases Nat.lt_or_ge j r.plain.length with hj | hj
  · rcases Nat.lt_or_ge k r.plain.length with hk | hk
    · rw [choice_of_lt hj, choice_of_lt hk] at h
      exact (List.Nodup.getElem_inj_iff r.nodup_plain).mp h
    · exact absurd h (choice_ne_of_lt_of_le hj hk)
  · rcases Nat.lt_or_ge k r.plain.length with hk | hk
    · exact absurd h.symm (choice_ne_of_lt_of_le hk hj)
    · rw [choice_of_le hj, choice_of_le hk] at h
      have hnumber := toString_cancel h
      omega

end Request

/-! ## Serving requests -/

/-- Answer a request. -/
def serve (p : Program) (r : Request) : StateM NameSupply String := fun supply =>
  match r with
  | .loopCounter node => supply.loopCounter p node
  | .temporary node proposed => supply.temporary p node proposed

/-- Answer a series of requests. -/
def serveAll (p : Program) (requests : List Request) : StateM NameSupply (List String) :=
  requests.mapM (serve p)

variable {p : Program} {supply : NameSupply}

/-- The names given out for an owner are those that were given out with it. -/
theorem mem_givenIn {owner : Option NodeId} {name : String} :
    name ∈ supply.givenIn owner ↔ (owner, name) ∈ supply.given := by
  simp [givenIn]

/-- A name is taken if it is visible, or was given out for the same owner. -/
theorem mem_taken {id : NodeId} {name : String} :
    name ∈ supply.taken p id ↔ name ∈ p.visibleNames id ∨ (p.owner id, name) ∈ supply.given := by
  rw [taken, List.mem_append, mem_givenIn]

/-- The names of the search for counters are those of the series. -/
theorem counterName_eq (node : NodeId) (k : Nat) :
    counterName (0 + k) = (Request.loopCounter node).choice k := by
  rw [Nat.zero_add, counterName, Request.choice, Request.plain]
  show (match counterNames[k]? with
    | some name => name
    | none => numberedName "i" (k - counterNames.length + 2)) = _
  rw [numberedName, if_neg (by omega)]
  rfl

/-- The names of the search for temporaries are those of the series. -/
theorem numberedName_eq (node : NodeId) (proposed : String) (k : Nat) :
    numberedName proposed (1 + k) = (Request.temporary node proposed).choice k := by
  cases k with
  | zero => rfl
  | succ k =>
    rw [numberedName, if_neg (by omega), Nat.add_comm 1 (k + 1)]
    rfl

/-- The first free name of a series that has the names for a request is given out and noted. -/
theorem give_choice (r : Request) {series : Nat → String} {start : Nat}
    (hseries : ∀ k, series (start + k) = r.choice k) :
    ∃ k, supply.give p r.node series start
        = (r.choice k, ⟨(p.owner r.node, r.choice k) :: supply.given⟩)
      ∧ r.choice k ∉ supply.taken p r.node
      ∧ ∀ j < k, r.choice j ∈ supply.taken p r.node := by
  have hinj : ∀ i j, start ≤ i → start ≤ j → series i = series j → i = j := by
    intro i j hi hj h
    obtain ⟨i, rfl⟩ := Nat.exists_eq_add_of_le hi
    obtain ⟨j, rfl⟩ := Nat.exists_eq_add_of_le hj
    rw [hseries, hseries] at h
    rw [r.choice_injective h]
  obtain ⟨hle, hfree, hbefore⟩ := firstFree_least (supply.taken p r.node) hinj
  obtain ⟨k, hk⟩ := Nat.exists_eq_add_of_le hle
  rw [hk, hseries] at hfree
  refine ⟨k, by rw [give, hk, hseries], hfree, fun j hj => ?_⟩
  rw [← hseries]
  exact hbefore (start + j) (by omega) (by omega)

/-- What answering a request does. -/
theorem serve_eq (p : Program) (r : Request) (supply : NameSupply) :
    ∃ k, serve p r supply = (r.choice k, ⟨(p.owner r.node, r.choice k) :: supply.given⟩)
      ∧ r.choice k ∉ supply.taken p r.node
      ∧ ∀ j < k, r.choice j ∈ supply.taken p r.node := by
  cases r with
  | loopCounter node => exact give_choice (.loopCounter node) (counterName_eq node)
  | temporary node proposed =>
    exact give_choice (.temporary node proposed) (numberedName_eq node proposed)

/-- The first of a series of requests is answered first. -/
theorem serveAll_cons (r : Request) (rs : List Request) (supply : NameSupply) :
    serveAll p (r :: rs) supply = ((serve p r supply).1 :: (serveAll p rs (serve p r supply).2).1,
      (serveAll p rs (serve p r supply).2).2) := by
  rw [serveAll, List.mapM_cons]
  rfl

/-- Every request is answered. The names given out are those answered, the last one first. -/
theorem given_serveAll (requests : List Request) (supply : NameSupply) :
    (serveAll p requests supply).1.length = requests.length
      ∧ (serveAll p requests supply).2.given
        = ((requests.zip (serveAll p requests supply).1).map
          fun e => (p.owner e.1.node, e.2)).reverse ++ supply.given := by
  induction requests generalizing supply with
  | nil => exact ⟨rfl, rfl⟩
  | cons r rs ih =>
    obtain ⟨k, hserve, -⟩ := serve_eq p r supply
    obtain ⟨hlength, hgiven⟩ := ih ⟨(p.owner r.node, r.choice k) :: supply.given⟩
    rw [serveAll_cons, hserve]
    refine ⟨congrArg (· + 1) hlength, ?_⟩
    simp [hgiven]

/-- **Supplied names never clash.** After any requests, those for nodes that do not exist included,
the next one is answered as well: by the first name of its series that is not visible at the node and
was not answered before for the same function, the program outside all functions counting as one. -/
theorem serve_firstFree (p : Program) (requests : List Request) (r : Request) :
    let (names, supply) := serveAll p requests {}
    names.length = requests.length
      ∧ ∃ fn k, p.NamesFor r.node fn
        ∧ (serve p r supply).1 = r.choice k
        ∧ r.choice k ∉ p.visibleNames r.node
        ∧ (∀ e ∈ requests.zip names, p.NamesFor e.1.node fn → e.2 ≠ r.choice k)
        ∧ ∀ j < k, r.choice j ∈ p.visibleNames r.node
          ∨ ∃ e ∈ requests.zip names, p.NamesFor e.1.node fn ∧ e.2 = r.choice j := by
  obtain ⟨hlength, hgiven⟩ := given_serveAll (p := p) requests {}
  obtain ⟨k, hserve, hfree, hbefore⟩ := serve_eq p r (serveAll p requests {}).2
  -- What is taken at the node, in terms of the answers so far.
  have htaken (name : String) : name ∈ (serveAll p requests {}).2.taken p r.node ↔
      name ∈ p.visibleNames r.node ∨ ∃ e ∈ requests.zip (serveAll p requests {}).1,
        p.NamesFor e.1.node (p.owner r.node) ∧ e.2 = name := by
    rw [mem_taken, hgiven]
    simp [Program.namesFor_iff]
  refine ⟨hlength, p.owner r.node, k, Program.namesFor_iff.mpr rfl, congrArg Prod.fst hserve, ?_, ?_,
    fun j hj => (htaken _).mp (hbefore j hj)⟩
  · exact fun hvisible => hfree ((htaken _).mpr (.inl hvisible))
  · exact fun e he hfn hname => hfree ((htaken _).mpr (.inr ⟨e, he, hfn, hname⟩))

/-- `let i = 0; function f(j) { let body = 1; for (let k = 0; k < 3; k++) {} } function g() { let x = 1; }`
-/
def countingFunctions : Script :=
  let number := Script.numberOf
  let k := Script.nameOf "k"
  ⟨[Script.declares "i" (number "0"),
    .function ⟨0, 0⟩ "f" [.mk (.name ⟨0, 0⟩ "j") none] none (.mk ⟨0, 0⟩
      [Script.declares "body" (number "1"),
        .forLoop ⟨0, 0⟩ (some (.lexical ⟨0, 0⟩ false [.mk (.name ⟨0, 0⟩ "k") (some (number "0"))]))
          (some (.binary ⟨0, 0⟩ "<" k (number "3"))) (some (.unary ⟨0, 0⟩ "++" k))
          (.block (.mk ⟨0, 0⟩ []))]),
    .function ⟨0, 0⟩ "g" [] none (.mk ⟨0, 0⟩ [Script.declares "x" (number "1")])]⟩

/-- Two counters for `f`, asked for at `body`, do not matter for `g`, where the next is asked for at `x`;
only `i` is visible there. Counters outside both functions start over once more. -/
theorem serve_firstFree_countingFunctions :
    let p := countingFunctions.program
    let requests : List Request := [.loopCounter 9, .loopCounter 9]
    p.NamesFor 9 (some 5) ∧ p.NamesFor 24 (some 21) ∧ p.NamesFor 3 none
      ∧ (serveAll p (requests ++ [.loopCounter 24, .loopCounter 3, .loopCounter 3]) {}).1
        = ["k", "l", "j", "j", "k"]
      ∧ ∀ e ∈ requests.zip (serveAll p requests {}).1, p.NamesFor e.1.node (some 21) → e.2 ≠ "j" := by
  intro p requests
  have hg : p.NamesFor 24 (some 21) := Program.namesFor_iff.mpr (by decide +kernel)
  refine ⟨Program.namesFor_iff.mpr (by decide +kernel), hg, Program.namesFor_iff.mpr (by decide +kernel),
    by decide +kernel, ?_⟩
  obtain ⟨-, fn, k, hfn, hanswer, -, hnew, -⟩ := serve_firstFree p requests (.loopCounter 24)
  have hj : (serve p (.loopCounter 24) (serveAll p requests {}).2).1 = "j" := by decide +kernel
  obtain rfl : some 21 = fn :=
    (Program.namesFor_iff.mp hg).symm.trans (Program.namesFor_iff.mp hfn)
  have hk : (Request.loopCounter 24).choice k = "j" := hanswer.symm.trans hj
  rw [← hk]
  exact hnew

end NameSupply

end LayoutInference
