import Mathlib
import LayoutInference.Layout.Registry

/-!
# What a key tells

The key of a layout is a flat text. This module says exactly how much of the layout it shows.

A layout is a *leaf*, a scalar or a record, inside a list of containers, its *spine*. In the written
form the leaf stands in the middle and every growing array or dictionary puts a macro around what is
there, but the dimensions of fixed arrays gather at one place, right behind the name. So a key shows

* the leaf,
* the macros inside the innermost fixed array,
* the dimensions, from the outermost to the innermost,
* the macros outside the innermost fixed array,

and does not show in which order the last two follow each other. `Layout.outline` is this view of a
layout, and `Layout.key_eq_iff` proves that keys are equal exactly when leaf and outline are. The same
holds of every written form in which the names of records tell them apart: `Layout.written_eq_iff`.

## Shape of the proof

Texts are read from the left. A macro starts with a letter that nothing else starts with, so the
macros are read off one by one (`Macro.opening_append_inj`). A leaf is known from its first
letters and from what may follow it (`Leaf.text_append_inj`), and a dimension ends at its bracket
(`dimensionsText_append_inj`).
-/

namespace LayoutInference

/-- The number that a scalar is made from. Scalars with the same number are the same scalar. -/
def Scalar.code : Scalar → Int
  | .string => 0
  | .integer => 1
  | .boolean => 2
  | .void => 3
  | .pointer => 4
  | .universal => 5
  | .coded code _ => code

/-- A scalar is written by its number alone. -/
theorem Scalar.text_eq_codeText (k : Scalar) : k.text = Scalar.codeText k.code := by
  cases k <;> rfl

/-- What the containers of a layout hold in the end. -/
inductive Leaf where
  | scalar (code : Int)
  | record (id : RecordId)
deriving DecidableEq, Repr

/-- A container with room for its elements. -/
inductive Wrapper where
  | fixed (capacity : Int)
  | dynamic
  | dict
deriving DecidableEq, Repr

/-- The layout of the container with the given elements. -/
def Wrapper.around : Wrapper → Layout → Layout
  | .fixed capacity, elem => .fixed elem capacity
  | .dynamic, elem => .dynamic elem
  | .dict, elem => .dict elem

namespace Layout

/-- The containers of a layout, from the outermost to the innermost. -/
def spine : Layout → List Wrapper
  | .fixed elem capacity => .fixed capacity :: elem.spine
  | .dynamic elem => .dynamic :: elem.spine
  | .dict elem => .dict :: elem.spine
  | _ => []

/-- What the containers of a layout hold. A missing layout counts as the opaque pointer. -/
def leaf : Layout → Leaf
  | .fixed elem _ | .dynamic elem | .dict elem => elem.leaf
  | .missing => .scalar Scalar.pointer.code
  | .scalar kind => .scalar kind.code
  | .record id => .record id

/-- Whether two layouts are built by the same constructors with the same scalars, capacities and
records, a missing one counting as the opaque pointer. -/
def Alike (t u : Layout) : Prop := t.spine = u.spine ∧ t.leaf = u.leaf

instance (t u : Layout) : Decidable (t.Alike u) := inferInstanceAs (Decidable (_ ∧ _))

@[simp] theorem spine_around (w : Wrapper) (l : Layout) : (w.around l).spine = w :: l.spine := by
  cases w <;> rfl

@[simp] theorem leaf_around (w : Wrapper) (l : Layout) : (w.around l).leaf = l.leaf := by
  cases w <;> rfl

/-- A layout is like itself. -/
theorem Alike.refl (t : Layout) : t.Alike t := ⟨rfl, rfl⟩

/-- Likeness is symmetric. -/
theorem Alike.symm {t u : Layout} (h : t.Alike u) : u.Alike t := ⟨h.1.symm, h.2.symm⟩

end Layout

/-! ## Outlines -/

/-- The two macros that stand for containers. -/
inductive Macro where
  | array
  | dict
deriving DecidableEq, Repr

/-- What the key shows of a spine: the macros outside the innermost fixed array, the dimensions, and
the macros inside it. Without a fixed array all macros are inside. -/
structure Outline where
  outer : List Macro := []
  dims : List Int := []
  inner : List Macro := []
deriving DecidableEq, Repr

namespace Outline

/-- The outline with one more macro around. -/
def wrap (o : Outline) (m : Macro) : Outline :=
  if o.dims = [] then { o with inner := m :: o.inner } else { o with outer := m :: o.outer }

/-- The outline of a spine. -/
def ofSpine : List Wrapper → Outline
  | [] => {}
  | .fixed capacity :: ws => { ofSpine ws with dims := capacity :: (ofSpine ws).dims }
  | .dynamic :: ws => (ofSpine ws).wrap .array
  | .dict :: ws => (ofSpine ws).wrap .dict

@[simp] theorem dims_wrap (o : Outline) (m : Macro) : (o.wrap m).dims = o.dims := by
  unfold wrap
  split <;> rfl

/-- Without a fixed array no macro is outside of one. -/
theorem outer_ofSpine (ws : List Wrapper) (h : (ofSpine ws).dims = []) : (ofSpine ws).outer = [] := by
  induction ws with
  | nil => rfl
  | cons w ws ih =>
    cases w with
    | fixed capacity => simp [ofSpine] at h
    | dynamic =>
      rw [ofSpine, dims_wrap] at h
      rw [ofSpine, wrap, if_pos h]
      exact ih h
    | dict =>
      rw [ofSpine, dims_wrap] at h
      rw [ofSpine, wrap, if_pos h]
      exact ih h

/-- The macro and the outline inside it are told from the outline around it. -/
theorem wrap_injective {o o' : Outline} {m m' : Macro} (h : o.wrap m = o'.wrap m') :
    m = m' ∧ o = o' := by
  have hd : o.dims = o'.dims := by rw [← dims_wrap o m, h, dims_wrap]
  obtain ⟨outer, dims, inner⟩ := o
  obtain ⟨outer', dims', inner'⟩ := o'
  simp only at hd
  subst hd
  by_cases hdims : dims = []
  · simpa [wrap, hdims, and_comm, and_assoc, and_left_comm] using h
  · simpa [wrap, hdims, and_comm, and_assoc, and_left_comm] using h

end Outline

/-- What the key of a layout shows of its containers. -/
def Layout.outline (l : Layout) : Outline := Outline.ofSpine l.spine

/-! ## Written forms as lists of characters -/

/-- The opening of a macro. -/
def Macro.opening : Macro → List Char
  | .array => "ARRAY(".toList
  | .dict => "DICT(".toList

/-- The parentheses that close a list of macros. -/
def closing (ms : List Macro) : List Char := List.replicate ms.length ')'

/-- The dimensions behind a name. -/
def dimensionsText (dims : List Int) : List Char :=
  dims.flatMap fun n => '[' :: ((toString n).toList ++ [']'])

/-- The written form of a leaf, given the names of records. -/
def Leaf.text (recordName : RecordId → String) : Leaf → String
  | .scalar code => Scalar.codeText code
  | .record id => "struct " ++ recordName id ++ " *"

/-- A leaf inside the macros of a list. -/
def enclosed (ms : List Macro) (leaf : List Char) : List Char :=
  ms.flatMap Macro.opening ++ (leaf ++ closing ms)

/-- What stands before the name in the written form of a leaf inside an outline. -/
def Outline.before (o : Outline) (leaf : List Char) : List Char :=
  if o.dims = [] then enclosed o.inner leaf
  else o.outer.flatMap Macro.opening ++ ("static ".toList ++ (enclosed o.inner leaf ++ [' ']))

/-- What stands behind the name, if there is room for one. -/
def Outline.after (o : Outline) : List Char := dimensionsText o.dims ++ closing o.outer

/-- The written form of a leaf inside an outline, the place of the name marked. -/
def Outline.text (o : Outline) (leaf : List Char) : List Char :=
  if o.dims = [] then o.before leaf else o.before leaf ++ (Declarator.hole.toList ++ o.after)

/-- One more macro takes one more parenthesis to close. -/
theorem closing_cons (m : Macro) (ms : List Macro) : closing (m :: ms) = closing ms ++ [')'] :=
  List.replicate_succ'

/-- One more macro stands around what the others enclose. -/
theorem enclosed_cons (m : Macro) (ms : List Macro) (leaf : List Char) :
    enclosed (m :: ms) leaf = m.opening ++ (enclosed ms leaf ++ [')']) := by
  simp [enclosed, closing_cons]

/-- The declarator `d` is the written form of `leaf` inside the outline `o`. -/
structure Declarator.Writes (d : Declarator) (o : Outline) (leaf : List Char) : Prop where
  before : d.before.toList = o.before leaf
  after : d.after.map String.toList = if o.dims = [] then none else some o.after

namespace Declarator.Writes

variable {d : Declarator} {o : Outline} {leaf : List Char}

/-- A declarator without room for a name writes a leaf outside of all containers. -/
theorem bare (text : String) (h : text.toList = leaf) : Writes ⟨text, none⟩ {} leaf where
  before := by simp [Outline.before, enclosed, closing, h]
  after := by simp

/-- One more macro around a declarator is one more macro around its outline. -/
theorem wrap (h : d.Writes o leaf) (name : String) (m : Macro)
    (hm : name.toList ++ ['('] = m.opening) : (d.wrap name).Writes (o.wrap m) leaf := by
  obtain ⟨before, after⟩ := d
  obtain ⟨hbefore, hafter⟩ := h
  by_cases hd : o.dims = []
  · obtain rfl : after = none := by simpa [hd] using hafter
    have hb : before.toList = enclosed o.inner leaf := by simpa [Outline.before, hd] using hbefore
    constructor
    · simp [Declarator.wrap, Outline.before, Outline.wrap, hd, enclosed_cons, ← hm, ← hb]
    · simp [Declarator.wrap, Outline.wrap, hd]
  · obtain ⟨text, rfl, ha⟩ : ∃ text, after = some text ∧ text.toList = o.after := by
      simpa [hd, Option.map_eq_some_iff] using hafter
    have hb := hbefore
    simp only [Outline.before, if_neg hd] at hb
    constructor
    · simp [Declarator.wrap, Outline.before, Outline.wrap, hd, ← hm, hb]
    · simp [Declarator.wrap, Outline.wrap, hd, ha, Outline.after, closing_cons]

/-- One more dimension of a declarator is one more dimension of its outline. -/
theorem dimension (h : d.Writes o leaf) (ho : o.dims = [] → o.outer = []) (capacity : Int) :
    (d.dimension capacity).Writes { o with dims := capacity :: o.dims } leaf := by
  obtain ⟨before, after⟩ := d
  obtain ⟨hbefore, hafter⟩ := h
  by_cases hd : o.dims = []
  · obtain rfl : after = none := by simpa [hd] using hafter
    have hb : before.toList = enclosed o.inner leaf := by simpa [Outline.before, hd] using hbefore
    constructor
    · simp [Declarator.dimension, Outline.before, ho hd, ← hb]
    · simp [Declarator.dimension, Outline.after, dimensionsText, hd, ho hd, closing]
  · obtain ⟨text, rfl, ha⟩ : ∃ text, after = some text ∧ text.toList = o.after := by
      simpa [hd, Option.map_eq_some_iff] using hafter
    have hb := hbefore
    simp only [Outline.before, if_neg hd] at hb
    constructor
    · simp [Declarator.dimension, Outline.before, hb]
    · simp [Declarator.dimension, ha, Outline.after, dimensionsText]

/-- The text of a declarator is the text of its outline. -/
theorem text (h : d.Writes o leaf) : d.text.toList = o.text leaf := by
  obtain ⟨before, after⟩ := d
  obtain ⟨hbefore, hafter⟩ := h
  simp only at hbefore hafter
  by_cases hd : o.dims = []
  · obtain rfl : after = none := by simpa [hd] using hafter
    simp [Declarator.text, Outline.text, hd, hbefore]
  · obtain ⟨text, rfl, ha⟩ : ∃ text, after = some text ∧ text.toList = o.after := by
      simpa [hd, Option.map_eq_some_iff] using hafter
    simp [Declarator.text, Outline.text, hd, hbefore, ha]

end Declarator.Writes

/-- A layout is written by its leaf and its outline. -/
theorem Layout.declarator_writes (recordName : RecordId → String) (l : Layout) :
    (l.declarator recordName).Writes l.outline (l.leaf.text recordName).toList := by
  induction l with
  | missing => exact .bare _ (congrArg String.toList (Scalar.text_eq_codeText .pointer))
  | scalar kind => exact .bare _ (congrArg String.toList (Scalar.text_eq_codeText kind))
  | record id => exact .bare _ rfl
  | fixed elem capacity ih => exact ih.dimension (Outline.outer_ofSpine _) capacity
  | dynamic elem ih =>
    rw [declarator]
    exact ih.wrap "ARRAY" .array (by simp [Macro.opening])
  | dict elem ih =>
    rw [declarator]
    exact ih.wrap "DICT" .dict (by simp [Macro.opening])

/-! ## Reading written forms -/

/-- Whether a text starts with no macro: neither with the first letter of `ARRAY` nor with that of
`DICT`. -/
def StartsPlain (text : List Char) : Prop := text.head? ≠ some 'A' ∧ text.head? ≠ some 'D'

/-- The macros at the start of a text are read off one by one. -/
theorem Macro.opening_append_inj {ms ms' : List Macro} {a b : List Char} (ha : StartsPlain a)
    (hb : StartsPlain b) (h : ms.flatMap opening ++ a = ms'.flatMap opening ++ b) :
    ms = ms' ∧ a = b := by
  induction ms generalizing ms' with
  | nil =>
    cases ms' with
    | nil => exact ⟨rfl, h⟩
    | cons m ms' =>
      rw [List.flatMap_nil, List.nil_append] at h
      subst h
      -- A plain text starts with the letter of no macro.
      cases m with
      | array => exact absurd rfl ha.1
      | dict => exact absurd rfl ha.2
  | cons m ms ih =>
    cases ms' with
    | nil =>
      rw [List.flatMap_nil, List.nil_append] at h
      subst h
      cases m with
      | array => exact absurd rfl hb.1
      | dict => exact absurd rfl hb.2
    | cons m' ms' =>
      cases m <;> cases m'
      all_goals simp [Macro.opening] at h
      all_goals
        obtain ⟨rfl, rfl⟩ := ih h
        exact ⟨rfl, rfl⟩

/-- A number is written with digits and a sign. -/
theorem isDigit_or_minus {c : Char} {n : Int} (h : c ∈ (toString n).toList) :
    c.isDigit ∨ c = '-' := by
  rw [Int.toString_eq_repr] at h
  cases n with
  | ofNat m =>
    simp only [Int.repr] at h
    rw [Nat.toList_repr] at h
    exact .inl (Nat.isDigit_of_mem_toDigits (by decide) (by decide) h)
  | negSucc m =>
    simp only [Int.repr] at h
    rw [String.toList_append, List.mem_append, Nat.toList_repr] at h
    rcases h with h | h
    · exact .inr (by simpa using h)
    · exact .inl (Nat.isDigit_of_mem_toDigits (by decide) (by decide) h)

/-- Whether a text may follow a leaf: parentheses that close macros, then nothing or the place of the
name. -/
def FollowsLeaf (text : List Char) : Prop :=
  ∃ k rest, text = List.replicate k ')' ++ rest ∧ (rest = [] ∨ ∃ more, rest = ' ' :: '\x7b' :: more)

/-- The forms in which leaves are written. -/
theorem Leaf.text_cases (recordName : RecordId → String)
    (hname : ∀ id, ' ' ∉ (recordName id).toList) (a : Leaf) :
    (a.text recordName).toList ∈ ["const char *".toList, "int16_t".toList, "uint8_t".toList,
        "void".toList, "void *".toList, "struct js_var".toList]
      ∨ (∃ digits, ')' ∉ digits ∧
        (a.text recordName).toList = "primitive(".toList ++ (digits ++ [')']))
      ∨ ∃ name, ' ' ∉ name ∧
        (a.text recordName).toList = "struct ".toList ++ (name ++ " *".toList) := by
  cases a with
  | scalar code =>
    simp only [Leaf.text, Scalar.codeText]
    split_ifs
    case neg =>
      refine .inr (.inl ⟨(toString code).toList, ?_, by simp⟩)
      intro hmem
      exact absurd (isDigit_or_minus hmem) (by decide)
    all_goals exact .inl (by simp)
  | record id => exact .inr (.inr ⟨(recordName id).toList, hname id, by simp [Leaf.text]⟩)

/-- Two texts are parted alike at the first place of a character. -/
theorem append_cons_inj {c : Char} {x y a b : List Char} (hx : c ∉ x) (hy : c ∉ y)
    (h : x ++ c :: a = y ++ c :: b) : x = y ∧ a = b := by
  induction x generalizing y with
  | nil =>
    cases y with
    | nil => exact ⟨rfl, (List.cons.inj h).2⟩
    | cons d y => exact absurd (by simp [(List.cons.inj h).1]) hy
  | cons d x ih =>
    cases y with
    | nil => exact absurd (by simp [(List.cons.inj h).1]) hx
    | cons e y =>
      rw [List.cons_append, List.cons_append] at h
      obtain ⟨rfl, htail⟩ := List.cons.inj h
      obtain ⟨rfl, rfl⟩ := ih (fun hc => hx (by simp [hc])) (fun hc => hy (by simp [hc])) htail
      exact ⟨rfl, rfl⟩

/-- The first space behind a leaf stands before the place of the name. -/
theorem FollowsLeaf.first_space {x front more back : List Char} {c : Char} (hx : FollowsLeaf x)
    (hfront : ' ' ∉ front) (hmore : ' ' ∉ more) (h : front ++ x = more ++ ' ' :: c :: back) :
    c = '\x7b' := by
  obtain ⟨k, rest, rfl, rfl | ⟨z, rfl⟩⟩ := hx
  · have hmem : ' ' ∈ front ++ (List.replicate k ')' ++ []) := by rw [h]; simp
    simp [hfront] at hmem
  · rw [← List.append_assoc] at h
    have hno : ' ' ∉ front ++ List.replicate k ')' := by simp [hfront]
    exact (List.cons.inj (append_cons_inj hno hmore h).2).1.symm

/-- A leaf at the start of a text is told from what may follow it. -/
theorem Leaf.text_append_inj {recordName : RecordId → String}
    (hname : ∀ id, ' ' ∉ (recordName id).toList) {a b : Leaf} {x y : List Char}
    (hx : FollowsLeaf x) (hy : FollowsLeaf y)
    (h : (a.text recordName).toList ++ x = (b.text recordName).toList ++ y) :
    a.text recordName = b.text recordName ∧ x = y := by
  rw [← String.toList_inj]
  have void_pointer {x y : List Char} (hx : FollowsLeaf x) (h : x = ' ' :: '*' :: y) : False := by
    have h' : [] ++ x = [] ++ ' ' :: '*' :: y := by simpa using h
    exact absurd (hx.first_space (by simp) (by simp) h') (by decide)
  have universal_record {x y name : List Char} (hx : FollowsLeaf x) (hn : ' ' ∉ name)
      (h : "struct js_var".toList ++ x = "struct ".toList ++ (name ++ " *".toList) ++ y) :
      False := by
    have h' : "js_var".toList ++ x = name ++ ' ' :: '*' :: y := by simpa using h
    exact absurd (hx.first_space (by simp) hn h') (by decide)
  have ha := a.text_cases recordName hname
  have hb := b.text_cases recordName hname
  generalize (a.text recordName).toList = s at ha h ⊢
  generalize (b.text recordName).toList = t at hb h ⊢
  rcases ha with ha | ⟨digits, hdigits, rfl⟩ | ⟨name, hn, rfl⟩ <;>
    rcases hb with hb | ⟨digits', hdigits', rfl⟩ | ⟨name', hn', rfl⟩
  · simp only [List.mem_cons, List.not_mem_nil, or_false] at ha hb
    rcases ha with rfl | rfl | rfl | rfl | rfl | rfl <;>
      rcases hb with rfl | rfl | rfl | rfl | rfl | rfl <;> simp at h ⊢
    -- what is left are equal texts and the two that begin with `void`
    all_goals first
      | exact h
      | exact (void_pointer hx h).elim
      | exact (void_pointer hy h.symm).elim
  · simp only [List.mem_cons, List.not_mem_nil, or_false] at ha
    rcases ha with rfl | rfl | rfl | rfl | rfl | rfl <;> simp at h
  · simp only [List.mem_cons, List.not_mem_nil, or_false] at ha
    rcases ha with rfl | rfl | rfl | rfl | rfl | rfl
    case inr.inr.inr.inr.inr => exact (universal_record hx hn' h).elim
    all_goals simp at h
  · simp only [List.mem_cons, List.not_mem_nil, or_false] at hb
    rcases hb with rfl | rfl | rfl | rfl | rfl | rfl <;> simp at h
  · have h' : digits ++ ')' :: x = digits' ++ ')' :: y := by simpa using h
    obtain ⟨rfl, rfl⟩ := append_cons_inj hdigits hdigits' h'
    exact ⟨rfl, rfl⟩
  · simp at h
  · simp only [List.mem_cons, List.not_mem_nil, or_false] at hb
    rcases hb with rfl | rfl | rfl | rfl | rfl | rfl
    case inr.inr.inr.inr.inr => exact (universal_record hy hn h.symm).elim
    all_goals simp at h
  · simp at h
  · have h' : name ++ ' ' :: '*' :: x = name' ++ ' ' :: '*' :: y := by simpa using h
    obtain ⟨rfl, htail⟩ := append_cons_inj hn hn' h'
    exact ⟨rfl, (List.cons.inj htail).2⟩

/-- Dimensions are read off one by one. -/
theorem dimensionsText_append_inj {ns ms : List Int} {a b : List Char} (ha : a.head? ≠ some '[')
    (hb : b.head? ≠ some '[') (h : dimensionsText ns ++ a = dimensionsText ms ++ b) :
    ns = ms ∧ a = b := by
  -- A dimension ends at its bracket, which no number holds.
  have hno (n : Int) : ']' ∉ (toString n).toList := fun hmem =>
    absurd (isDigit_or_minus hmem) (by decide)
  induction ns generalizing ms with
  | nil =>
    cases ms with
    | nil => exact ⟨rfl, h⟩
    | cons m ms =>
      rw [dimensionsText, List.flatMap_nil, List.nil_append] at h
      subst h
      exact absurd rfl ha
  | cons n ns ih =>
    cases ms with
    | nil =>
      rw [dimensionsText, dimensionsText, List.flatMap_nil, List.nil_append] at h
      subst h
      exact absurd rfl hb
    | cons m ms =>
      have h' : (toString n).toList ++ ']' :: (dimensionsText ns ++ a)
          = (toString m).toList ++ ']' :: (dimensionsText ms ++ b) := by
        simpa [dimensionsText] using h
      obtain ⟨hnm, htail⟩ := append_cons_inj (hno n) (hno m) h'
      rw [String.toList_inj, Int.toString_eq_repr, Int.toString_eq_repr] at hnm
      obtain ⟨rfl, rfl⟩ := ih htail
      exact ⟨by rw [Int.repr_injective hnm], rfl⟩

section Reading

variable {recordName : RecordId → String} (hname : ∀ id, ' ' ∉ (recordName id).toList)
include hname

/-- No leaf starts with a macro or with the keyword of a fixed array. -/
theorem Leaf.text_append_ne (a : Leaf) (x : List Char) :
    StartsPlain ((a.text recordName).toList ++ x)
      ∧ ∀ y, (a.text recordName).toList ++ x ≠ "static ".toList ++ y := by
  have ha := a.text_cases recordName hname
  generalize (a.text recordName).toList = s at ha ⊢
  rcases ha with ha | ⟨digits, -, rfl⟩ | ⟨name, -, rfl⟩
  · simp only [List.mem_cons, List.not_mem_nil, or_false] at ha
    rcases ha with rfl | rfl | rfl | rfl | rfl | rfl <;> simp [StartsPlain]
  · simp [StartsPlain]
  · simp [StartsPlain]

/-- Macros and leaf are read off a text that goes on with nothing or with the place of the name. -/
theorem enclosed_append_inj {ms ms' : List Macro} {a b : Leaf} {x y : List Char}
    (hx : x = [] ∨ ∃ z, x = ' ' :: '\x7b' :: z) (hy : y = [] ∨ ∃ z, y = ' ' :: '\x7b' :: z)
    (h : enclosed ms (a.text recordName).toList ++ x
      = enclosed ms' (b.text recordName).toList ++ y) :
    ms = ms' ∧ a.text recordName = b.text recordName ∧ x = y := by
  simp only [enclosed, List.append_assoc] at h
  obtain ⟨rfl, hleaf⟩ := Macro.opening_append_inj (Leaf.text_append_ne hname a _).1
    (Leaf.text_append_ne hname b _).1 h
  obtain ⟨htext, hrest⟩ := Leaf.text_append_inj hname ⟨_, x, rfl, hx⟩ ⟨_, y, rfl, hy⟩ hleaf
  exact ⟨rfl, htext, List.append_cancel_left hrest⟩

/-- The outline and the text of the leaf are read off a written form. -/
theorem Outline.text_inj {o o' : Outline} (ho : o.dims = [] → o.outer = [])
    (ho' : o'.dims = [] → o'.outer = []) {a b : Leaf}
    (h : o.text (a.text recordName).toList = o'.text (b.text recordName).toList) :
    o = o' ∧ a.text recordName = b.text recordName := by
  obtain ⟨outer, dims, inner⟩ := o
  obtain ⟨outer', dims', inner'⟩ := o'
  have hplain (z : List Char) : StartsPlain ("static ".toList ++ z) := by simp [StartsPlain]
  -- A text has a place for the name exactly if there are dimensions.
  by_cases hd : dims = [] <;> by_cases hd' : dims' = []
  · obtain rfl := ho hd
    obtain rfl := ho' hd'
    subst hd hd'
    have h' : enclosed inner (a.text recordName).toList ++ []
        = enclosed inner' (b.text recordName).toList ++ [] := by
      simpa [Outline.text, Outline.before] using h
    obtain ⟨rfl, htext, -⟩ := enclosed_append_inj hname (.inl rfl) (.inl rfl) h'
    exact ⟨rfl, htext⟩
  · simp only [Outline.text, Outline.before, if_pos hd, if_neg hd', enclosed,
      List.append_assoc] at h
    have hleaf := (Macro.opening_append_inj (Leaf.text_append_ne hname a _).1 (hplain _) h).2
    exact absurd hleaf ((Leaf.text_append_ne hname a _).2 _)
  · simp only [Outline.text, Outline.before, if_pos hd', if_neg hd, enclosed,
      List.append_assoc] at h
    have hleaf := (Macro.opening_append_inj (hplain _) (Leaf.text_append_ne hname b _).1 h).2
    exact absurd hleaf.symm ((Leaf.text_append_ne hname b _).2 _)
  · simp only [Outline.text, Outline.before, if_neg hd, if_neg hd', List.append_assoc,
      List.singleton_append] at h
    obtain ⟨rfl, hstatic⟩ := Macro.opening_append_inj (hplain _) (hplain _) h
    have hmiddle := List.append_cancel_left hstatic
    have hhole (z : List Char) : ∃ w, ' ' :: (Declarator.hole.toList ++ z) = ' ' :: '\x7b' :: w :=
      ⟨"var\x7d".toList ++ z, by simp [Declarator.hole]⟩
    obtain ⟨rfl, htext, hbehind⟩ :=
      enclosed_append_inj hname (.inr (hhole _)) (.inr (hhole _)) hmiddle
    have hafter := List.append_cancel_left (List.cons.inj hbehind).2
    -- Behind the dimensions nothing but parentheses follow.
    have hclose : (closing outer).head? ≠ some '[' := by
      cases outer <;> simp [closing, List.replicate_succ]
    obtain ⟨rfl, -⟩ := dimensionsText_append_inj hclose hclose hafter
    exact ⟨rfl, htext⟩

end Reading

/-- Scalars with different numbers are written differently. -/
theorem Scalar.codeText_injective {m n : Int} (h : Scalar.codeText m = Scalar.codeText n) :
    m = n := by
  rw [← String.toList_inj] at h
  unfold Scalar.codeText at h
  split_ifs at h
  all_goals try omega
  all_goals simp at h
  exact Int.repr_injective (String.toList_inj.mp h)

/-- No scalar is written like a record, whatever that is called. -/
theorem Scalar.codeText_ne (code : Int) (name : String) :
    Scalar.codeText code ≠ "struct " ++ name ++ " *" := by
  intro h
  rw [← String.toList_inj] at h
  unfold Scalar.codeText at h
  split_ifs at h
  all_goals simp at h
  -- The universal value starts like a record but does not end in a star.
  have hlast := congrArg List.getLast? h
  simp at hlast

/-- A leaf is told from its text if the names of records tell them apart. -/
theorem Leaf.text_injective {recordName : RecordId → String} {a b : Leaf}
    (hnames : ∀ i j, a = .record i → b = .record j → recordName i = recordName j → i = j)
    (h : a.text recordName = b.text recordName) : a = b := by
  cases a with
  | scalar code =>
    cases b with
    | scalar code' => rw [Scalar.codeText_injective h]
    | record id => exact absurd h (Scalar.codeText_ne code _)
  | record id =>
    cases b with
    | scalar code => exact absurd h.symm (Scalar.codeText_ne code _)
    | record id' =>
      have hname : recordName id = recordName id' := by
        simpa [Leaf.text, ← String.toList_inj] using h
      rw [hnames id id' rfl rfl hname]

/-- **What a written form tells.** Two layouts are written alike exactly when they have the same leaf
and the same outline, if the names of records hold no space and tell the records at hand apart. -/
theorem Layout.written_eq_iff {recordName : RecordId → String}
    (hspace : ∀ id, ' ' ∉ (recordName id).toList) {t u : Layout}
    (hnames : ∀ i j, t.leaf = .record i → u.leaf = .record j → recordName i = recordName j → i = j) :
    (t.declarator recordName).text = (u.declarator recordName).text
      ↔ t.leaf = u.leaf ∧ t.outline = u.outline := by
  rw [← String.toList_inj, (t.declarator_writes recordName).text,
    (u.declarator_writes recordName).text]
  constructor
  · intro h
    obtain ⟨ho, hleaf⟩ := Outline.text_inj hspace (Outline.outer_ofSpine _)
      (Outline.outer_ofSpine _) h
    exact ⟨Leaf.text_injective hnames hleaf, ho⟩
  · rintro ⟨hleaf, ho⟩
    rw [hleaf, ho]

/-! ## Keys -/

/-- The name of a record in a key. -/
def keyName (id : RecordId) : String := "@" ++ toString id

/-- The name of a record in a key holds no space. -/
theorem space_notMem_keyName (id : RecordId) : ' ' ∉ (keyName id).toList := by
  intro h
  rw [keyName, String.toList_append, List.mem_append, Nat.toString_eq_repr, Nat.toList_repr] at h
  rcases h with h | h
  · simp at h
  · exact absurd (Nat.isDigit_of_mem_toDigits (by decide) (by decide) h) (by decide)

/-- The name of a record in a key tells its number. -/
theorem keyName_injective {i j : RecordId} (h : keyName i = keyName j) : i = j := by
  have hdigits : (toString i).toList = (toString j).toList := by
    simpa [keyName, ← String.toList_inj] using h
  rw [String.toList_inj, Nat.toString_eq_repr, Nat.toString_eq_repr] at hdigits
  exact Nat.repr_injective hdigits

/-- A leaf is told from its text in a key. -/
theorem Leaf.text_keyName_injective {a b : Leaf} (h : a.text keyName = b.text keyName) : a = b :=
  text_injective (fun _ _ _ _ => keyName_injective) h

namespace Layout

/-- The key of a layout is the written form of its leaf inside its outline. -/
theorem key_toList (l : Layout) : l.key.toList = l.outline.text (l.leaf.text keyName).toList :=
  (l.declarator_writes keyName).text

/-- **What a key tells.** Two layouts have the same key exactly when they have the same leaf and the
same outline. -/
theorem key_eq_iff (t u : Layout) : t.key = u.key ↔ t.leaf = u.leaf ∧ t.outline = u.outline :=
  written_eq_iff space_notMem_keyName fun _ _ _ _ => keyName_injective

end Layout

end LayoutInference
