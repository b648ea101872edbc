import Mathlib
import LayoutInference.Layout.Rendering
import LayoutInference.Proofs.FinalNames

/-!
# Declarators as texts

A layout is written as a declarator, a text with at most one place for the name of a variable. The
place is marked by the hole, and only an array of fixed length on the chain of containers gives a
declarator one: `Registry.declarators_wellFormed`. That no hole comes from anywhere else needs the names
of records, which are identifiers and so have no braces.

The macros of growing arrays and dictionaries stand around the text of their elements, the hole of an
element included. So the name that is declared may end up inside the parentheses of a macro.
`Registry.container_declared_whole_iff` says that a container is followed by its name exactly if its
elements have no hole.

A declarator keeps what stands before and behind the hole apart. `Layout.spliced` writes layouts as plain
texts instead and looks for the hole each time a dimension is added; as long as no name has a brace, the
texts are the same (`Layout.spliced_eq`, `Registry.Spelled.spliced_eq`, `Layout.spliced_key`).
-/

namespace LayoutInference

/-! ## Places in a text -/

/-- The number of places at which a part stands in a text. -/
def occurrences (part text : String) : Nat := text.toList.tails.countP part.toList.isPrefixOf

/-- A part does not stand where another character does. -/
theorem countP_tails_cons_of_ne {c d : Char} (h : c ≠ d) (part text : List Char) :
    (d :: text).tails.countP (c :: part).isPrefixOf = text.tails.countP (c :: part).isPrefixOf := by
  rw [List.tails_cons, List.countP_cons_of_neg]
  simp [h]

/-- A part stands nowhere in a text that lacks its first character. -/
theorem countP_tails_of_notMem {c : Char} {text : List Char} (h : c ∉ text) (part : List Char) :
    text.tails.countP (c :: part).isPrefixOf = 0 := by
  induction text with
  | nil => rfl
  | cons d text ih =>
    rw [List.mem_cons, not_or] at h
    rw [countP_tails_cons_of_ne h.1, ih h.2]

/-- The mark of the hole starts with a brace. -/
theorem Declarator.toList_hole : hole.toList = '\x7b' :: "var\x7d".toList := by decide

/-- There is no hole without a brace. -/
theorem occurrences_hole_of_notMem {text : String} (h : '\x7b' ∉ text.toList) :
    occurrences Declarator.hole text = 0 :=
  countP_tails_of_notMem h _

/-- A hole between texts without braces is the only one. -/
theorem occurrences_hole_between {before after : String} (hbefore : '\x7b' ∉ before.toList)
    (hafter : '\x7b' ∉ after.toList) :
    occurrences Declarator.hole (before ++ Declarator.hole ++ after) = 1 := by
  rw [occurrences, String.toList_append, String.toList_append, Declarator.toList_hole]
  generalize before.toList = text at hbefore ⊢
  induction text with
  | nil =>
    have hrest : '\x7b' ∉ "var\x7d".toList ++ after.toList := by simp [hafter]
    rw [List.nil_append, List.cons_append, List.tails_cons, List.countP_cons_of_pos (by simp),
      countP_tails_of_notMem hrest]
  | cons c text ih =>
    rw [List.mem_cons, not_or] at hbefore
    exact (countP_tails_cons_of_ne hbefore.1 _ _).trans (ih hbefore.2)

/-! ## Holes of declarators -/

/-- An identifier has no brace. -/
theorem IsIdentifier.brace_notMem {text : String} (h : IsIdentifier text) : '\x7b' ∉ text.toList := by
  obtain ⟨c, cs, htext, hfirst, hrest⟩ := h
  rw [htext, List.mem_cons]
  rintro (rfl | hmem)
  · revert hfirst
    decide
  · exact absurd (hrest _ hmem) (by simp [IsIdentifierChar])

/-- A number is written without a brace. -/
theorem brace_notMem_toString (n : Int) : '\x7b' ∉ (toString n).toList := fun hmem =>
  absurd (isDigit_or_minus hmem) (by decide)

/-- The text of a scalar has no brace. -/
theorem Scalar.brace_notMem_text (kind : Scalar) : '\x7b' ∉ kind.text.toList := by
  rw [Scalar.text_eq_codeText, Scalar.codeText]
  split_ifs
  case neg => simpa using brace_notMem_toString kind.code
  all_goals decide

/-- Whether a declarator has braces in its hole alone. -/
structure Declarator.Braceless (d : Declarator) : Prop where
  before : '\x7b' ∉ d.before.toList
  after : ∀ after, d.after = some after → '\x7b' ∉ after.toList

namespace Declarator.Braceless

variable {d : Declarator} (h : d.Braceless)
include h

/-- One more dimension adds no brace besides the hole. -/
theorem dimension (capacity : Int) : (d.dimension capacity).Braceless := by
  obtain ⟨before, after⟩ := d
  have hn := brace_notMem_toString capacity
  cases after with
  | none => exact ⟨by simpa [Declarator.dimension] using h.before, by simpa [Declarator.dimension]⟩
  | some after =>
    exact ⟨h.before, by simpa [Declarator.dimension] using ⟨hn, h.after after rfl⟩⟩

/-- A macro adds no brace. -/
theorem wrap {macroName : String} (hname : '\x7b' ∉ macroName.toList) :
    (d.wrap macroName).Braceless := by
  obtain ⟨before, after⟩ := d
  have hbefore : '\x7b' ∉ (macroName ++ "(" ++ before).toList := by simpa using ⟨hname, h.before⟩
  cases after with
  | none => exact ⟨by simpa [Declarator.wrap] using hbefore, by simp [Declarator.wrap]⟩
  | some after => exact ⟨hbefore, by simpa [Declarator.wrap] using h.after after rfl⟩

/-- The text of a declarator has a hole exactly if something stands behind the name. -/
theorem occurrences_text :
    occurrences hole d.text = if d.after.isSome then 1 else 0 := by
  obtain ⟨before, after⟩ := d
  cases after with
  | none => exact occurrences_hole_of_notMem h.before
  | some after => exact occurrences_hole_between h.before (h.after after rfl)

end Declarator.Braceless

namespace Layout

/-- Whether an array of fixed length stands on the chain of containers. -/
def hasFixed : Layout → Bool
  | .fixed _ _ => true
  | .dynamic elem | .dict elem => elem.hasFixed
  | _ => false

/-- Exactly the layouts with an array of fixed length leave room for a name inside. -/
theorem after_declarator_isSome (recordName : RecordId → String) (l : Layout) :
    (l.declarator recordName).after.isSome = l.hasFixed := by
  induction l with
  | missing | scalar | record => rfl
  | fixed elem capacity =>
    rw [declarator, Declarator.dimension]
    split <;> rfl
  | dynamic elem ih | dict elem ih =>
    rw [declarator, Declarator.wrap, hasFixed, ← ih]
    split <;> simp_all

/-- The declarator of a layout has braces in its hole alone, if names have none. -/
theorem braceless_declarator {recordName : RecordId → String}
    (hname : ∀ id, '\x7b' ∉ (recordName id).toList) (l : Layout) :
    (l.declarator recordName).Braceless := by
  induction l with
  | missing => exact ⟨Scalar.pointer.brace_notMem_text, by simp [declarator]⟩
  | scalar kind => exact ⟨kind.brace_notMem_text, by simp [declarator]⟩
  | fixed elem capacity ih => exact ih.dimension capacity
  | dynamic elem ih | dict elem ih => exact ih.wrap (by decide)
  | record id => exact ⟨by simpa [declarator] using hname id, by simp [declarator]⟩

end Layout

namespace Registry

variable {r : Registry}

/-- Under names that are identifiers a declarator has braces in its hole alone. -/
theorem Spelled.braceless_declarator (h : r.Spelled) (l : Layout) : (r.declarator l).Braceless :=
  l.braceless_declarator fun id => (h.isIdentifier_recordName id).brace_notMem

/-- The text of a layout has one hole if there is an array of fixed length, and none otherwise. -/
theorem Spelled.occurrences_text (h : r.Spelled) (l : Layout) :
    occurrences Declarator.hole (r.text l) = if l.hasFixed then 1 else 0 := by
  rw [text, (h.braceless_declarator l).occurrences_text, declarator, Layout.after_declarator_isSome]

/-! ## Writing by substitution -/

end Registry

/-- The characters with the first place of `part` filled by `new`; none if `part` does not stand there. -/
def fillFirst (part new : List Char) : List Char → Option (List Char)
  | [] => none
  | c :: text =>
    if part.isPrefixOf (c :: text) then some (new ++ (c :: text).drop part.length)
    else (fillFirst part new text).map (c :: ·)

/-- A part that lacks its first character in a text is not filled. -/
theorem fillFirst_of_notMem {c : Char} {text : List Char} (h : c ∉ text) (part new : List Char) :
    fillFirst (c :: part) new text = none := by
  induction text with
  | nil => rfl
  | cons d text ih =>
    rw [List.mem_cons, not_or] at h
    rw [fillFirst, if_neg (by simp [h.1]), ih h.2, Option.map_none]

/-- The first place of a part is the one before which its first character does not occur. -/
theorem fillFirst_between {c : Char} {before : List Char} (h : c ∉ before)
    (part new after : List Char) :
    fillFirst (c :: part) new (before ++ (c :: part ++ after)) = some (before ++ (new ++ after)) := by
  induction before with
  | nil =>
    rw [List.nil_append, List.cons_append, fillFirst, if_pos (by simp), List.nil_append]
    simp
  | cons d before ih =>
    rw [List.mem_cons, not_or] at h
    rw [List.cons_append, fillFirst, if_neg (by simp [h.1]), ih h.2]
    rfl

/-- A text with more behind its first hole; none if it has no hole. -/
def behindHole (more text : String) : Option String :=
  (fillFirst Declarator.hole.toList (Declarator.hole ++ more).toList text.toList).map String.ofList

/-- There is nothing behind a hole in a text without braces. -/
theorem behindHole_of_notMem {text : String} (h : '\x7b' ∉ text.toList) (more : String) :
    behindHole more text = none := by
  rw [behindHole, Declarator.toList_hole, fillFirst_of_notMem h, Option.map_none]

/-- What is added comes before what stands behind the hole. -/
theorem behindHole_between {before : String} (h : '\x7b' ∉ before.toList) (more after : String) :
    behindHole more (before ++ Declarator.hole ++ after)
      = some (before ++ Declarator.hole ++ more ++ after) := by
  have htext : (before ++ Declarator.hole ++ after).toList
      = before.toList ++ ('\x7b' :: "var\x7d".toList ++ after.toList) := by
    rw [String.toList_append, String.toList_append, Declarator.toList_hole, List.append_assoc]
  rw [behindHole, htext, Declarator.toList_hole, fillFirst_between h, Option.map_some,
    Option.some.injEq, ← String.toList_inj, String.toList_ofList]
  simp only [String.toList_append, List.append_assoc]

/-- A macro stands around the whole text of a declarator. -/
theorem Declarator.text_wrap (d : Declarator) (macroName : String) :
    (d.wrap macroName).text = macroName ++ "(" ++ d.text ++ ")" := by
  obtain ⟨before, after⟩ := d
  cases after <;> simp [wrap, text, String.append_assoc]

namespace Layout

/-- The written form of a layout as a plain text: one more dimension goes right behind the hole if the
text of the elements has one, and makes one otherwise. -/
def spliced (recordName : RecordId → String) : Layout → String
  | .missing => Scalar.pointer.text
  | .scalar kind => kind.text
  | .fixed elem capacity =>
    let size := "[" ++ toString capacity ++ "]"
    let text := elem.spliced recordName
    (behindHole size text).getD ("static " ++ text ++ " " ++ Declarator.hole ++ size)
  | .dynamic elem => "ARRAY(" ++ elem.spliced recordName ++ ")"
  | .dict elem => "DICT(" ++ elem.spliced recordName ++ ")"
  | .record id => "struct " ++ recordName id ++ " *"

/-- Looking for the hole gives the text of the declarator, as long as names of records have no braces. -/
theorem spliced_eq {recordName : RecordId → String} (hname : ∀ id, '\x7b' ∉ (recordName id).toList)
    (l : Layout) : l.spliced recordName = (l.declarator recordName).text := by
  induction l with
  | missing | scalar | record => rfl
  | dynamic elem ih | dict elem ih =>
    rw [spliced, declarator, ih, Declarator.text_wrap]
    rfl
  | fixed elem capacity ih =>
    obtain ⟨hbefore, -⟩ := elem.braceless_declarator hname
    rw [spliced, declarator, ih]
    generalize elem.declarator recordName = d at hbefore
    obtain ⟨before, after⟩ := d
    cases after with
    | none =>
      simp only [Declarator.text, Declarator.dimension, behindHole_of_notMem hbefore, Option.getD_none]
    | some after =>
      simp only [Declarator.text, Declarator.dimension, behindHole_between hbefore, Option.getD_some]
      simp only [String.append_assoc]

/-- Keys may be written by substitution as well. -/
theorem spliced_key (l : Layout) : l.spliced (fun id => "@" ++ toString id) = l.key :=
  l.spliced_eq fun id => by
    have hid : '\x7b' ∉ (toString id).toList := brace_notMem_toString (id : Int)
    rw [String.toList_append, List.mem_append, not_or]
    exact ⟨by decide, hid⟩

end Layout

namespace Registry

variable {r : Registry}

/-- In a registry whose names are spelled properly, all layouts may be written by substitution. -/
theorem Spelled.spliced_eq (h : r.Spelled) (l : Layout) : l.spliced r.recordName = r.text l :=
  l.spliced_eq fun id => (h.isIdentifier_recordName id).brace_notMem

/-! ## Rows of fixed arrays -/

/-- Every registry that is reached keeps containers under their own keys. -/
theorem Reached.keyed (h : r.Reached) : r.Keyed := by
  induction h with
  | start => exact fun _ _ h => by simp at h
  | register _ hint fields _ ih =>
    rw [Keyed, containers_register]
    exact ih
  | extend _ id _ hint added _ self ih =>
    rw [Keyed, containers_extend]
    exact ih
  | make _ w elem _ ih =>
    rw [make_eq_intern]
    exact (ih.intern _).1
  | finalize _ roots ih => exact ih

/-- Layouts with one key are written alike. -/
theorem text_eq_of_key_eq {t u : Layout} (h : t.key = u.key) : r.text t = r.text u := by
  obtain ⟨hleaf, houtline⟩ := (Layout.key_eq_iff t u).mp h
  rw [← String.toList_inj, text, text, declarator, declarator,
    (t.declarator_writes r.recordName).text, (u.declarator_writes r.recordName).text, hleaf, houtline]

/-- The text of a layout depends on the records alone. -/
theorem text_congr {r r' : Registry} (h : r'.records = r.records) (l : Layout) :
    r'.text l = r.text l := by
  have hname : r'.recordName = r.recordName := by
    funext id
    rw [recordName, recordName, record?, record?, h]
  rw [text, text, declarator, declarator, hname]

end Registry

/-- The array of arrays of a base, the capacities given from the outermost to the innermost. -/
def Layout.rows (base : Layout) (dims : List Int) : Layout :=
  dims.foldr (fun capacity elem => .fixed elem capacity) base

/-- Dimensions as they stand behind a name. -/
def dimensions (dims : List Int) : String := String.join (dims.map fun n => "[" ++ toString n ++ "]")

namespace Layout

variable {base : Layout} (h : base.hasFixed = false)

/-- The containers of an array of arrays are its capacities around those of the base. -/
theorem spine_rows (base : Layout) (dims : List Int) :
    (base.rows dims).spine = dims.map .fixed ++ base.spine := by
  induction dims with
  | nil => rfl
  | cons n ns ih => exact congrArg (Wrapper.fixed n :: ·) ih

include h

/-- A layout without an array of fixed length has no dimensions. -/
theorem dims_outline : base.outline.dims = [] := by
  induction base with
  | missing | scalar | record => rfl
  | fixed => cases h
  | dynamic elem ih | dict elem ih =>
    rw [outline, spine, Outline.ofSpine, Outline.dims_wrap]
    exact ih h

/-- Nothing but the elements of a base is inside the macros of an array of arrays. -/
theorem unmixed_rows (dims : List Int) : (base.rows dims).Unmixed := by
  refine .inr ?_
  rw [outline, spine_rows, Outline.ofSpine_dims]
  exact Outline.outer_ofSpine _ (dims_outline h)

/-- The dimensions of an array of arrays stand behind the name, the outermost first. -/
theorem declarator_rows (recordName : RecordId → String) (n : Int) (ns : List Int) :
    (base.rows (n :: ns)).declarator recordName
      = ⟨"static " ++ (base.declarator recordName).text ++ " ", some (dimensions (n :: ns))⟩ := by
  induction ns generalizing n with
  | nil =>
    have hafter := base.after_declarator_isSome recordName
    rw [h, Option.isSome_eq_false_iff, Option.isNone_iff_eq_none] at hafter
    simp [rows, declarator, Declarator.dimension, Declarator.text, hafter, dimensions]
  | cons m ms ih =>
    rw [rows, List.foldr_cons, declarator, ← rows, ih m]
    simp [Declarator.dimension, dimensions]

end Layout

namespace Registry

variable {r : Registry}

/-- Ask for an array of arrays of a base, the arrays inside first. -/
def rows (r : Registry) (base : Layout) : List Int → Layout × Registry
  | [] => (base, r)
  | n :: ns => (r.rows base ns).2.fixedArray (r.rows base ns).1 n

/-- What asking for an array of arrays leaves as it was, and the key of what is answered. -/
structure RowsAnswered (r : Registry) (base : Layout) (dims : List Int) (answer : Layout × Registry) :
    Prop where
  keyed : answer.2.Keyed
  records : answer.2.records = r.records
  clash : answer.2.clash = r.clash
  key : answer.1.key = (base.rows dims).key

/-- Asking for an array of arrays gives a layout with the key that was asked for. -/
theorem Keyed.rows (h : r.Keyed) {base : Layout} (hbase : base.hasFixed = false) (dims : List Int) :
    r.RowsAnswered base dims (r.rows base dims) := by
  induction dims with
  | nil => exact ⟨h, rfl, rfl, rfl⟩
  | cons n ns ih =>
    -- What is answered for the elements may differ from them, but only where keys do not tell.
    have hkey : (Layout.fixed (r.rows base ns).1 n).key = (base.rows (n :: ns)).key := by
      obtain ⟨hleaf, houtline⟩ := (Layout.key_eq_iff _ _).mp ih.key
      refine (Layout.key_eq_iff _ _).mpr ⟨hleaf, ?_⟩
      exact congrArg (fun o : Outline => { o with dims := n :: o.dims }) houtline
    have hunmixed : (Layout.fixed (r.rows base ns).1 n).Unmixed := by
      rw [Layout.Unmixed, ((Layout.key_eq_iff _ _).mp hkey).2]
      exact Layout.unmixed_rows hbase (n :: ns)
    obtain ⟨hkeyed, hanswer⟩ := ih.keyed.intern (.fixed (r.rows base ns).1 n)
    exact ⟨hkeyed, (records_intern _ _).trans ih.records,
      (ih.keyed.clash_intern hunmixed).trans ih.clash, hanswer.trans hkey⟩

/-- A layout that is there is rendered as its text. -/
theorem render_of_ne {l : Layout} (h : l ≠ .missing) : r.render l = .ok (r.text l) := if_neg h

/-- The written form of every layout has one hole if an array of fixed length stands on its chain of
containers, and none otherwise. An array of arrays of a base without a hole is written with all its
dimensions behind the hole, the outermost first; asking for one never fails. -/
theorem declarators_wellFormed (h : r.Reached) :
    (∀ l : Layout, l ≠ .missing → ∃ text, r.render l = .ok text
        ∧ occurrences Declarator.hole text = if l.hasFixed then 1 else 0)
      ∧ ∀ (base : Layout) (dims : List Int), occurrences Declarator.hole (r.text base) = 0 →
        dims ≠ [] →
        (r.rows base dims).2.clash = r.clash
          ∧ (r.rows base dims).1.Alike (base.rows dims)
          ∧ (r.rows base dims).2.render (r.rows base dims).1
            = .ok ("static " ++ r.text base ++ " " ++ Declarator.hole ++ dimensions dims) := by
  refine ⟨fun l hl => ⟨r.text l, render_of_ne hl, h.spelled.occurrences_text l⟩,
    fun base dims hbase hdims => ?_⟩
  have hfixed : base.hasFixed = false := by simpa [h.spelled.occurrences_text] using hbase
  have hrows := h.keyed.rows hfixed dims
  have halike := (Layout.unmixed_rows hfixed dims).alike hrows.key
  refine ⟨hrows.clash, halike, ?_⟩
  obtain ⟨n, ns, rfl⟩ := List.exists_cons_of_ne_nil hdims
  have hmissing : (r.rows base (n :: ns)).1 ≠ .missing :=
    intern_ne_missing (by simp [Layout.container?])
  rw [render_of_ne hmissing, text_congr hrows.records, text_eq_of_key_eq hrows.key, text, declarator,
    Layout.declarator_rows hfixed]
  rfl

/-- A registry with one record. -/
def points : Registry := (({} : Registry).register "point" [⟨"x", .integer⟩]).2

/-- A registry with one record is reached. -/
theorem points_reached : points.Reached :=
  Reached.start.register "point" _ (by simp)

/-- Growing arrays of records inside two arrays of fixed length. -/
theorem declarators_wellFormed_points :
    points.Reached
      ∧ occurrences Declarator.hole (points.text (.dynamic (.record 1))) = 0
      ∧ (points.rows (.dynamic (.record 1)) [2, 3]).2.render
          (points.rows (.dynamic (.record 1)) [2, 3]).1
        = .ok "static ARRAY(struct point_t *) \x7bvar\x7d[2][3]" := by
  have hbase : occurrences Declarator.hole (points.text (.dynamic (.record 1))) = 0 := by
    decide +kernel
  refine ⟨points_reached, hbase, ?_⟩
  exact ((declarators_wellFormed points_reached).2 (.dynamic (.record 1)) [2, 3] hbase (by simp)).2.2

end Registry

/-! ## Containers of arrays -/

/-- The name of a macro. -/
def Macro.name : Macro → String
  | .array => "ARRAY"
  | .dict => "DICT"

/-- The container of a macro is written inside its parentheses. -/
theorem Layout.declarator_container (recordName : RecordId → String) (m : Macro) (elem : Layout) :
    ((Outline.container m).around elem).declarator recordName
      = (elem.declarator recordName).wrap m.name := by
  cases m <;> rfl

namespace Declarator

/-- A declarator without a hole is followed by the name that is declared. -/
theorem declare_wrap_of_none {d : Declarator} (h : d.after = none) (macroName name : String) :
    (d.wrap macroName).declare name = macroName ++ "(" ++ d.text ++ ") " ++ name := by
  obtain ⟨before, after⟩ := d
  subst h
  have hend (text : String) : (text ++ ")").endsWith "*" = false := by
    rw [← String.endsWith_toSlice, String.Slice.endsWith_string_eq_false_iff]
    simp
  rw [wrap, declare, if_neg (by simp [hend]), text]
  simp [String.append_assoc]

/-- The name takes the place of the hole. -/
theorem declare_wrap_of_some {d : Declarator} {after : String} (h : d.after = some after)
    (macroName name : String) :
    (d.wrap macroName).declare name = macroName ++ "(" ++ d.before ++ name ++ after ++ ")" := by
  obtain ⟨before, after⟩ := d
  subst h
  simp [wrap, declare, String.append_assoc]

end Declarator

namespace Registry

variable {r : Registry}

/-- A container is not a missing layout. -/
theorem container_ne_missing (m : Macro) (elem : Layout) :
    (Outline.container m).around elem ≠ .missing := by
  cases m <;> simp [Outline.container, Wrapper.around]

/-- A container is declared by its macro around the declarator of its elements. -/
theorem declare_container (m : Macro) (elem : Layout) (name : String) :
    r.declare ((Outline.container m).around elem) name
      = .ok (((r.declarator elem).wrap m.name).declare name) := by
  rw [declare, if_neg (container_ne_missing m elem), declarator, Layout.declarator_container]
  rfl

/-- Elements without a hole stay in the parentheses, and the name stands behind. -/
theorem declare_container_whole (m : Macro) {elem : Layout} (h : elem.hasFixed = false)
    (name : String) :
    r.declare ((Outline.container m).around elem) name
      = .ok (m.name ++ "(" ++ r.text elem ++ ") " ++ name) := by
  have hafter : (r.declarator elem).after = none := by
    rw [← Option.isNone_iff_eq_none, ← Option.isSome_eq_false_iff, ← h]
    exact elem.after_declarator_isSome r.recordName
  rw [declare_container, Declarator.declare_wrap_of_none hafter, text]

/-- The hole of the elements stands in the parentheses, and the name takes its place. -/
theorem declare_container_inside (m : Macro) {elem : Layout} (h : elem.hasFixed = true)
    (name : String) :
    ∃ before after, r.text elem = before ++ Declarator.hole ++ after
      ∧ r.declare ((Outline.container m).around elem) name
        = .ok (m.name ++ "(" ++ before ++ name ++ after ++ ")") := by
  obtain ⟨after, hafter⟩ : ∃ after, (r.declarator elem).after = some after := by
    rw [← Option.isSome_iff_exists, ← h]
    exact elem.after_declarator_isSome r.recordName
  refine ⟨(r.declarator elem).before, after, ?_, ?_⟩
  · simp [text, Declarator.text, hafter]
  · rw [declare_container, Declarator.declare_wrap_of_some hafter]

/-- A growing array or dictionary is written as its macro around the text of its elements. What is
declared is this text followed by the name exactly if the elements have no hole, that is, if no array of
fixed length stands on their chain of containers. Otherwise the name takes the place of the hole, inside
the parentheses of the macro. -/
theorem container_declared_whole_iff (h : r.Reached) (m : Macro) (elem : Layout) (name : String) :
    r.render ((Outline.container m).around elem) = .ok (m.name ++ "(" ++ r.text elem ++ ")")
      ∧ (r.declare ((Outline.container m).around elem) name
          = .ok (m.name ++ "(" ++ r.text elem ++ ") " ++ name)
        ↔ occurrences Declarator.hole (r.text elem) = 0)
      ∧ (occurrences Declarator.hole (r.text elem) = 0 ↔ elem.hasFixed = false)
      ∧ (elem.hasFixed = true → ∃ before after, r.text elem = before ++ Declarator.hole ++ after
        ∧ r.declare ((Outline.container m).around elem) name
          = .ok (m.name ++ "(" ++ before ++ name ++ after ++ ")")) := by
  have hcount : occurrences Declarator.hole (r.text elem) = 0 ↔ elem.hasFixed = false := by
    simp [h.spelled.occurrences_text]
  have hrender : r.render ((Outline.container m).around elem)
      = .ok (m.name ++ "(" ++ r.text elem ++ ")") := by
    rw [render_of_ne (container_ne_missing m elem), text, declarator, Layout.declarator_container,
      Declarator.text_wrap]
    rfl
  refine ⟨hrender, ?_, hcount, fun hfixed => declare_container_inside m hfixed name⟩
  rw [hcount]
  refine ⟨fun hwhole => ?_, fun hfixed => declare_container_whole m hfixed name⟩
  by_contra hfixed
  obtain ⟨before, after, htext, hinside⟩ :=
    declare_container_inside (r := r) m (Bool.eq_true_of_not_eq_false hfixed) name
  -- The hole and a space are missing from what is declared.
  rw [hinside, htext] at hwhole
  have hlength := congrArg String.length (Except.ok.inj hwhole)
  have hhole : Declarator.hole.length = 5 := by decide
  have hend : ")".length = 1 ∧ ") ".length = 2 := by decide
  simp only [String.length_append] at hlength
  omega

/-- A dictionary of records keeps its elements in the parentheses. -/
theorem container_declared_whole_iff_points :
    points.Reached
      ∧ points.declare (.dict (.record 1)) "counts" = .ok "DICT(struct point_t *) counts" := by
  have hwhole := (container_declared_whole_iff points_reached .dict (.record 1) "counts").2.1.mpr
    (by decide +kernel)
  exact ⟨points_reached, hwhole⟩

/-- A growing array of pairs: the name lands inside the parentheses. -/
theorem container_declared_inside :
    points.declare (.dynamic (.fixed .integer 2)) "rows" = .ok "ARRAY(static int16_t rows[2])"
      ∧ points.text (.fixed .integer 2) = "static int16_t \x7bvar\x7d[2]"
      ∧ points.declare (.dynamic (.fixed .integer 2)) "rows"
        ≠ .ok ("ARRAY(" ++ points.text (.fixed .integer 2) ++ ") rows") := by
  have hdeclare : points.declare (.dynamic (.fixed .integer 2)) "rows"
      = .ok "ARRAY(static int16_t rows[2])" := congrArg Except.ok (by decide +kernel)
  refine ⟨hdeclare, by decide +kernel, fun hwhole => ?_⟩
  rw [hdeclare] at hwhole
  exact absurd (Except.ok.inj hwhole) (by decide +kernel)

end Registry

end LayoutInference
