import Mathlib
import LayoutInference.Proofs.Interning

/-!
# What a body tells

The body of a list of fields is a flat text, for each field the key of its layout, a space, its name
and a semicolon. Nothing in a name is escaped, so a name can read like the end of one field and the
beginning of the next. This module says for which names that is so.

A name is *sealed* if it holds no semicolon that is followed by a key and a space, and does not begin
with a star and a space: `void` followed by such a name reads like the opaque pointer followed by the
rest of the name. `bodyKey_eq_iff` proves that lists of fields with sealed names have the same body
exactly when they are the same lists, and `exists_body_eq_of_not_sealed` that every other name
occurs in a list of fields whose body belongs to another list as well.

## Shape of the proof

Texts are read from the left. A key ends where a space follows, with the one exception above
(`Layout.key_append_cases`). A name ends at a semicolon; if it went on behind an earlier one, the key
of the next field would stand there (`Sealed.append_inj`).
-/

namespace LayoutInference

/-! ## Keys in front of a space -/

/-- A scalar at the start of a text is told from what follows, unless it is one of the two that begin
with `void`. -/
theorem Scalar.codeText_append_cases {m n : Int} {x y : List Char}
    (h : (codeText m).toList ++ x = (codeText n).toList ++ y) :
    (m = n ∧ x = y) ∨ (m = 3 ∧ n = 4 ∧ x = ' ' :: '*' :: y)
      ∨ (m = 4 ∧ n = 3 ∧ y = ' ' :: '*' :: x) := by
  have hno (n : Int) : ')' ∉ n.repr.toList := by
    intro hmem
    rw [← Int.toString_eq_repr] at hmem
    exact absurd (isDigit_or_minus hmem) (by decide)
  unfold codeText at h
  split_ifs at h
  all_goals simp at h
  case neg =>
    obtain ⟨hdigits, hxy⟩ := append_cons_inj (hno m) (hno n) h
    exact .inl ⟨Int.repr_injective (String.toList_inj.mp hdigits), hxy⟩
  all_goals
    subst_vars
    simp

/-- A record at the start of a text is told from what follows. -/
theorem Leaf.recordText_append_inj {i j : RecordId} {x y : List Char}
    (h : ((Leaf.record i).text keyName).toList ++ x
      = ((Leaf.record j).text keyName).toList ++ y) : i = j ∧ x = y := by
  have h' : (keyName i).toList ++ ' ' :: '*' :: x = (keyName j).toList ++ ' ' :: '*' :: y := by
    simpa [Leaf.text] using h
  obtain ⟨hname, htail⟩ := append_cons_inj (space_notMem_keyName i) (space_notMem_keyName j) h'
  have htext : (Leaf.record i).text keyName = (Leaf.record j).text keyName := by
    rw [Leaf.text, Leaf.text, String.toList_inj.mp hname]
  exact ⟨Leaf.record.inj (Leaf.text_keyName_injective htext), (List.cons.inj htail).2⟩

/-- A leaf at the start of a text is told from what follows, with the same exception. -/
theorem Leaf.text_append_cases {a b : Leaf} {x y : List Char}
    (h : (a.text keyName).toList ++ x = (b.text keyName).toList ++ y) :
    (a = b ∧ x = y) ∨ x = ' ' :: '*' :: y ∨ y = ' ' :: '*' :: x := by
  cases a with
  | scalar m =>
    cases b with
    | scalar n =>
      rcases Scalar.codeText_append_cases h with ⟨rfl, hxy⟩ | ⟨-, -, hx⟩ | ⟨-, -, hy⟩
      · exact .inl ⟨rfl, hxy⟩
      · exact .inr (.inl hx)
      · exact .inr (.inr hy)
    | record id =>
      simp only [Leaf.text, Scalar.codeText] at h
      split_ifs at h <;> simp [keyName] at h
  | record id =>
    cases b with
    | scalar n =>
      simp only [Leaf.text, Scalar.codeText] at h
      split_ifs at h <;> simp [keyName] at h
    | record id' =>
      obtain ⟨rfl, hxy⟩ := Leaf.recordText_append_inj h
      exact .inl ⟨rfl, hxy⟩

/-- Outline and leaf are read off a key in front of a space, with the same exception. -/
theorem Outline.text_append_cases {o o' : Outline} (ho : o.dims = [] → o.outer = [])
    (ho' : o'.dims = [] → o'.outer = []) {a b : Leaf} {x y : List Char}
    (h : o.text (a.text keyName).toList ++ ' ' :: x
      = o'.text (b.text keyName).toList ++ ' ' :: y) :
    (o = o' ∧ a = b ∧ x = y) ∨ x = '*' :: ' ' :: y ∨ y = '*' :: ' ' :: x := by
  obtain ⟨outer, dims, inner⟩ := o
  obtain ⟨outer', dims', inner'⟩ := o'
  have hplain (z : List Char) : StartsPlain ("static ".toList ++ z) := by simp [StartsPlain]
  have hleaf (a : Leaf) (z : List Char) := Leaf.text_append_ne space_notMem_keyName a z
  by_cases hd : dims = [] <;> by_cases hd' : dims' = []
  · obtain rfl := ho hd
    obtain rfl := ho' hd'
    subst hd hd'
    simp only [Outline.text, Outline.before, if_true, enclosed, List.append_assoc] at h
    obtain ⟨rfl, hrest⟩ := Macro.opening_append_inj (hleaf a _).1 (hleaf b _).1 h
    -- Behind a macro there is a parenthesis, so only a bare `void` can go on with a space.
    have hbare {x y : List Char}
        (h : closing inner ++ ' ' :: x = ' ' :: '*' :: (closing inner ++ ' ' :: y)) :
        x = '*' :: ' ' :: y := by
      cases inner with
      | nil => simpa [closing] using h
      | cons m ms => simp [closing, List.replicate_succ] at h
    rcases Leaf.text_append_cases hrest with ⟨rfl, hxy⟩ | hx | hy
    · exact .inl ⟨rfl, rfl, (List.cons.inj (List.append_cancel_left hxy)).2⟩
    · exact .inr (.inl (hbare hx))
    · exact .inr (.inr (hbare hy))
  · simp only [Outline.text, Outline.before, if_pos hd, if_neg hd', enclosed,
      List.append_assoc] at h
    have htexts := (Macro.opening_append_inj (hleaf a _).1 (hplain _) h).2
    exact absurd htexts ((hleaf a _).2 _)
  · simp only [Outline.text, Outline.before, if_pos hd', if_neg hd, enclosed,
      List.append_assoc] at h
    have htexts := (Macro.opening_append_inj (hplain _) (hleaf b _).1 h).2
    exact absurd htexts.symm ((hleaf b _).2 _)
  · simp only [Outline.text, Outline.before, if_neg hd, if_neg hd', List.append_assoc,
      List.cons_append, List.nil_append] at h
    obtain ⟨rfl, hstatic⟩ := Macro.opening_append_inj (hplain _) (hplain _) h
    have hmiddle := List.append_cancel_left hstatic
    have hhole (z : List Char) : ∃ w, ' ' :: (Declarator.hole.toList ++ z) = ' ' :: '\x7b' :: w :=
      ⟨"var\x7d".toList ++ z, by simp [Declarator.hole]⟩
    obtain ⟨rfl, htext, hbehind⟩ := enclosed_append_inj space_notMem_keyName
      (.inr (hhole _)) (.inr (hhole _)) hmiddle
    obtain rfl := Leaf.text_keyName_injective htext
    have hafter := List.append_cancel_left (List.cons.inj hbehind).2
    simp only [Outline.after, List.append_assoc] at hafter
    have hclose (z : List Char) : (closing outer ++ ' ' :: z).head? ≠ some '[' := by
      cases outer <;> simp [closing, List.replicate_succ]
    obtain ⟨rfl, htail⟩ := dimensionsText_append_inj (hclose x) (hclose y) hafter
    exact .inl ⟨rfl, rfl, (List.cons.inj (List.append_cancel_left htail)).2⟩

namespace Layout

/-- The key of a record is the written form of that leaf. -/
theorem key_record (id : RecordId) : (record id).key = (Leaf.record id).text keyName := rfl

/-- A key in front of a space is told from what follows, unless what follows begins with a star and a
space. -/
theorem key_append_cases {t u : Layout} {x y : List Char}
    (h : t.key.toList ++ ' ' :: x = u.key.toList ++ ' ' :: y) :
    (t.key = u.key ∧ x = y) ∨ x = '*' :: ' ' :: y ∨ y = '*' :: ' ' :: x := by
  rw [key_toList, key_toList] at h
  rcases Outline.text_append_cases (Outline.outer_ofSpine _) (Outline.outer_ofSpine _) h with
    ⟨ho, hleaf, hxy⟩ | hstar
  · exact .inl ⟨(key_eq_iff t u).mpr ⟨hleaf, ho⟩, hxy⟩
  · exact .inr hstar

/-- A key holds no semicolon. -/
theorem semicolon_notMem_key (l : Layout) : ';' ∉ l.key.toList := by
  have hno (n : Int) : ';' ∉ (toString n).toList := fun hmem =>
    absurd (isDigit_or_minus hmem) (by decide)
  have hleaf : ';' ∉ (l.leaf.text keyName).toList := by
    cases l.leaf with
    | scalar code =>
      simp only [Leaf.text, Scalar.codeText]
      split_ifs
      case neg => simpa using hno code
      all_goals simp
    | record id => simpa [Leaf.text, keyName, Int.toString_eq_repr, Int.repr] using hno id
  have hopening (ms : List Macro) : ';' ∉ ms.flatMap Macro.opening := by
    rw [List.mem_flatMap]
    rintro ⟨m, -, hm⟩
    cases m <;> simp [Macro.opening] at hm
  have hclosing (ms : List Macro) : ';' ∉ closing ms := by simp [closing]
  have hdims (dims : List Int) : ';' ∉ dimensionsText dims := by
    simpa [dimensionsText] using fun n _ => hno n
  rw [key_toList, Outline.text, Outline.before, Outline.after, enclosed]
  split_ifs <;> simp [hopening, hleaf, hclosing, hdims, Declarator.hole]

end Layout

/-! ## Names in front of a semicolon -/

@[simp] theorem bodyKey_nil : (bodyKey []).toList = [] := by
  simp [bodyKey, fieldsText]

/-- The body of a list of fields begins with the key, the name and the semicolon of the first. -/
theorem bodyKey_cons (f : Field) (fields : List Field) :
    (bodyKey (f :: fields)).toList
      = f.layout.key.toList ++ ' ' :: (f.name.toList ++ ';' :: (bodyKey fields).toList) := by
  simp [bodyKey, fieldsText, Layout.key]

/-- Whether a name is read back from a body wherever it stands: it neither goes on behind a semicolon
like the next field nor completes a key in front of it. -/
structure Sealed (name : String) : Prop where
  single : ∀ (l : Layout) (before after : List Char),
    name.toList ≠ before ++ ';' :: (l.key.toList ++ ' ' :: after)
  unstarred : ∀ rest : List Char, name.toList ≠ '*' :: ' ' :: rest

namespace Sealed

/-- A name without a space is sealed. -/
theorem of_space_notMem {name : String} (h : ' ' ∉ name.toList) : Sealed name where
  single l before after heq := h (by simp [heq])
  unstarred rest heq := h (by simp [heq])

/-- A name that ends before another does, in front of the same text, leaves a field behind its
semicolon. -/
theorem not_of_append {name : String} {front more rest : List Char} {fields : List Field}
    (hname : name.toList = front ++ more) (hmore : more ≠ [])
    (h : ';' :: (bodyKey fields).toList = more ++ ';' :: rest) : ¬ Sealed name := by
  intro hsealed
  obtain _ | ⟨c, more⟩ := more
  · exact hmore rfl
  rw [List.cons_append] at h
  obtain ⟨rfl, hbody⟩ := List.cons.inj h
  cases fields with
  | nil => simp at hbody
  | cons f fields =>
    rw [bodyKey_cons, List.append_eq_append_iff] at hbody
    rcases hbody with ⟨after, hmore, hafter⟩ | ⟨after, hkey, hafter⟩
    · -- The name goes on behind the key of the field, with the space that follows it.
      cases after with
      | nil => simp at hafter
      | cons d after =>
        obtain ⟨rfl, -⟩ := List.cons.inj hafter
        exact hsealed.single f.layout front after (by rw [hname, hmore])
    · -- A semicolon inside the key.
      cases after with
      | nil => simp at hafter
      | cons d after =>
        obtain ⟨rfl, -⟩ := List.cons.inj hafter
        exact f.layout.semicolon_notMem_key (by simp [hkey])

/-- Sealed names are told from the fields that follow. -/
theorem append_inj {m n : String} (hm : Sealed m) (hn : Sealed n) {fs gs : List Field}
    (h : m.toList ++ ';' :: (bodyKey fs).toList = n.toList ++ ';' :: (bodyKey gs).toList) :
    m = n ∧ bodyKey fs = bodyKey gs := by
  rcases List.append_eq_append_iff.mp h with ⟨more, hname, hrest⟩ | ⟨more, hname, hrest⟩
  · by_cases hmore : more = []
    · subst hmore
      simp only [List.append_nil, List.nil_append, List.cons.injEq, true_and] at hname hrest
      exact ⟨String.toList_inj.mp hname.symm, String.toList_inj.mp hrest⟩
    · exact absurd hn (not_of_append hname hmore hrest)
  · by_cases hmore : more = []
    · subst hmore
      simp only [List.append_nil, List.nil_append, List.cons.injEq, true_and] at hname hrest
      exact ⟨String.toList_inj.mp hname, String.toList_inj.mp hrest.symm⟩
    · exact absurd hm (not_of_append hname hmore hrest)

/-- The first fields of two equal bodies agree if their names are sealed, and so do the bodies of the
others. -/
theorem bodyKey_cons_inj {f g : Field} (hf : Sealed f.name) (hg : Sealed g.name)
    {fs gs : List Field} (h : bodyKey (f :: fs) = bodyKey (g :: gs)) :
    f.layout.key = g.layout.key ∧ f.name = g.name ∧ bodyKey fs = bodyKey gs := by
  rw [← String.toList_inj, bodyKey_cons, bodyKey_cons] at h
  -- A star and a space in front of the one text would begin the other, and with it its name.
  have hstar {m : String} (hm : Sealed m) {xs ys : List Char}
      (h : m.toList ++ ';' :: xs = '*' :: ' ' :: ys) : False := by
    match hm' : m.toList with
    | [] => simp [hm'] at h
    | [c] => simp [hm'] at h
    | c :: d :: rest =>
      simp only [hm', List.cons_append, List.cons.injEq] at h
      obtain ⟨rfl, rfl, -⟩ := h
      exact hm.unstarred rest hm'
  rcases Layout.key_append_cases h with ⟨hkey, hrest⟩ | hrest | hrest
  · exact ⟨hkey, append_inj hf hg hrest⟩
  · exact (hstar hf hrest).elim
  · exact (hstar hg hrest).elim

end Sealed

/-! ## Bodies of lists -/

namespace Layout

/-- The layout that is written for a layout in a field: the opaque pointer where none is known. -/
def written : Layout → Layout
  | .missing => .pointer
  | l => l

/-- Two layouts are written as the same one exactly when their keys agree. -/
theorem written_same_iff (t u : Layout) : t.written.same u.written = true ↔ t.key = u.key := by
  have hkey (l : Layout) : l.written.key = l.key := by cases l <;> rfl
  have hne (l : Layout) : l.written ≠ .missing := by cases l <;> simp [written]
  rw [same_iff_key_eq (hne t) (hne u), hkey, hkey]

end Layout

/-- Whether two fields have one name and the same layout. -/
def Field.Same (f g : Field) : Prop :=
  f.name = g.name ∧ f.layout.written.same g.layout.written = true

/-- Lists with the same fields have the same body, whatever the names are. -/
theorem bodyKey_eq_of_same {fs gs : List Field} (h : List.Forall₂ Field.Same fs gs) :
    bodyKey fs = bodyKey gs := by
  induction h with
  | nil => rfl
  | cons hfg _ ih =>
    obtain ⟨hname, hlayout⟩ := hfg
    rw [← String.toList_inj, bodyKey_cons, bodyKey_cons, hname,
      (Layout.written_same_iff _ _).mp hlayout, ih]

/-- **What a body tells.** Lists of fields with sealed names have the same body exactly when they
have the same fields in the same order. -/
theorem bodyKey_eq_iff {fs gs : List Field} (hfs : ∀ f ∈ fs, Sealed f.name)
    (hgs : ∀ g ∈ gs, Sealed g.name) : bodyKey fs = bodyKey gs ↔ List.Forall₂ Field.Same fs gs := by
  refine ⟨fun h => ?_, bodyKey_eq_of_same⟩
  induction fs generalizing gs with
  | nil =>
    cases gs with
    | nil => exact .nil
    | cons g gs =>
      rw [← String.toList_inj, bodyKey_cons] at h
      simp at h
  | cons f fs ih =>
    cases gs with
    | nil =>
      rw [← String.toList_inj, bodyKey_cons] at h
      simp at h
    | cons g gs =>
      rw [List.forall_mem_cons] at hfs hgs
      obtain ⟨hkey, hname, hrest⟩ := hfs.1.bodyKey_cons_inj hgs.1 h
      exact .cons ⟨hname, (Layout.written_same_iff _ _).mpr hkey⟩ (ih hfs.2 hgs.2 hrest)

/-- Every name that is not sealed occurs in a list of fields that shares its body with another. -/
theorem exists_body_eq_of_not_sealed {name : String} (h : ¬ Sealed name) :
    ∃ (l : Layout) (fields : List Field), bodyKey [⟨name, l⟩] = bodyKey fields
      ∧ ¬ List.Forall₂ Field.Same [⟨name, l⟩] fields := by
  by_cases hstar : ∃ rest : List Char, name.toList = '*' :: ' ' :: rest
  · obtain ⟨rest, hrest⟩ := hstar
    -- The star completes the key of the opaque pointer.
    refine ⟨.void, [⟨String.ofList rest, .pointer⟩], ?_, ?_⟩
    · rw [← String.toList_inj, bodyKey_cons, bodyKey_cons, hrest]
      simp [Layout.key, Layout.declarator, Declarator.text, Scalar.text]
    · rw [List.forall₂_cons]
      rintro ⟨⟨hname, -⟩, -⟩
      have hlength := congrArg (·.toList.length) hname
      simp [hrest] at hlength
      omega
  · obtain ⟨l, before, after, hname⟩ : ∃ (l : Layout) (before after : List Char),
        name.toList = before ++ ';' :: (l.key.toList ++ ' ' :: after) := by
      by_contra hno
      push Not at hno hstar
      exact h ⟨hno, hstar⟩
    -- The name goes on like a second field behind its semicolon.
    refine ⟨.integer, [⟨String.ofList before, .integer⟩, ⟨String.ofList after, l⟩], ?_, ?_⟩
    · rw [← String.toList_inj, bodyKey_cons, bodyKey_cons, bodyKey_cons, hname]
      simp
    · intro h
      simpa using h.length_eq

end LayoutInference
