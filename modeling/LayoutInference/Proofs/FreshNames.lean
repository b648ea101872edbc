import Mathlib
import LayoutInference.Layout.FinalName

/-!
# Fresh names

Searching a numbered series of names finds the first that is free: `firstFree_least`. The search tries
one name more than are taken, and the names of a series are all different, so one of them is free.

The series used for records consist of identifiers (`IsIdentifier`): letters, digits and underscores,
with no digit in front. Hints are identifiers already, as `identifier` makes them, and numbers and
underscores are appended to them.
-/

namespace LayoutInference

/-! ## Searching a series -/

/-- Where the search stops: at a free name, or when all tries are used up. -/
theorem firstFreeWithin_stops (taken : List String) (candidate : Nat → String) (tries start : Nat) :
    start ≤ firstFreeWithin taken candidate tries start
      ∧ (∀ j, start ≤ j → j < firstFreeWithin taken candidate tries start → candidate j ∈ taken)
      ∧ (candidate (firstFreeWithin taken candidate tries start) ∉ taken
        ∨ firstFreeWithin taken candidate tries start = start + tries) := by
  induction tries generalizing start with
  | zero =>
    rw [firstFreeWithin]
    exact ⟨le_refl _, fun j hle hlt => absurd hlt (by omega), .inr rfl⟩
  | succ tries ih =>
    rw [firstFreeWithin]
    split
    · next htaken =>
      obtain ⟨hle, hbefore, hstop⟩ := ih (start + 1)
      refine ⟨by omega, fun j hstart hlt => ?_, hstop.imp_right fun h => by omega⟩
      by_cases hj : j = start
      · rw [hj]
        exact htaken
      · exact hbefore j (by omega) hlt
    · next hfree => exact ⟨le_refl _, fun j hle hlt => absurd hlt (by omega), .inl hfree⟩

/-- The search finds the least number from `start` on whose name is free, if the names from there on
are different. -/
theorem firstFree_least (taken : List String) {candidate : Nat → String} {start : Nat}
    (hinj : ∀ i j, start ≤ i → start ≤ j → candidate i = candidate j → i = j) :
    start ≤ firstFree taken candidate start
      ∧ candidate (firstFree taken candidate start) ∉ taken
      ∧ ∀ j, start ≤ j → j < firstFree taken candidate start → candidate j ∈ taken := by
  obtain ⟨hle, hbefore, hstop⟩ := firstFreeWithin_stops taken candidate taken.length start
  refine ⟨hle, fun htaken => ?_, hbefore⟩
  -- If the last name that was tried is taken as well, there are more taken names than there are.
  have hlast : firstFree taken candidate start = start + taken.length :=
    hstop.resolve_left (not_not_intro htaken)
  have hnodup : ((List.range' start (taken.length + 1)).map candidate).Nodup := by
    refine List.Nodup.map_on (fun i hi j hj => ?_) List.nodup_range'
    exact hinj i j (List.mem_range'_1.mp hi).1 (List.mem_range'_1.mp hj).1
  have hsubset : (List.range' start (taken.length + 1)).map candidate ⊆ taken := by
    intro name hname
    obtain ⟨j, hj, rfl⟩ := List.mem_map.mp hname
    obtain ⟨hstart, hlt⟩ := List.mem_range'_1.mp hj
    by_cases hend : j = firstFree taken candidate start
    · rwa [hend]
    · refine hbefore j hstart ?_
      show j < firstFree taken candidate start
      omega
  have hlength := (List.subperm_of_subset hnodup hsubset).length_le
  simp at hlength

/-- Names that end in a number are told apart by it. -/
theorem toString_cancel {base : String} {j k : Nat} (h : base ++ toString j = base ++ toString k) :
    j = k := by
  have hdigits := (String.append_right_inj base).mp h
  rw [Nat.toString_eq_repr, Nat.toString_eq_repr] at hdigits
  exact Nat.repr_injective hdigits

/-! ## Identifiers -/

/-- Characters that may stand in an identifier. -/
def IsIdentifierChar (c : Char) : Prop := c = '_' ∨ c.isAlphanum = true

/-- The text is an identifier: it starts with a letter or an underscore, and letters, digits and
underscores follow. -/
def IsIdentifier (text : String) : Prop :=
  ∃ c cs, text.toList = c :: cs ∧ (c = '_' ∨ c.isAlpha = true) ∧ ∀ d ∈ cs, IsIdentifierChar d

/-- A character that was made fit for an identifier may stand in one. -/
theorem isIdentifierChar_identifierChar (c : Char) : IsIdentifierChar (identifierChar c) := by
  rw [identifierChar]
  split
  · assumption
  · exact .inl rfl

/-- A digit may stand in an identifier. -/
theorem isIdentifierChar_of_isDigit {c : Char} (h : c.isDigit = true) : IsIdentifierChar c :=
  .inr (by simp [Char.isAlphanum, h])

/-- A name made into an identifier is one, unless there is none to make. -/
theorem isIdentifier_identifier (name : String) :
    identifier name = "" ∨ IsIdentifier (identifier name) := by
  rw [identifier]
  split
  · exact .inl rfl
  · next c cs hname =>
    right
    have hrest : ∀ d ∈ cs.map identifierChar, IsIdentifierChar d := by
      intro d hd
      obtain ⟨c', -, rfl⟩ := List.mem_map.mp hd
      exact isIdentifierChar_identifierChar c'
    by_cases hdigit : c.isDigit = true
    · refine ⟨'_', c :: cs.map identifierChar, by simp [hdigit], .inl rfl, ?_⟩
      exact List.forall_mem_cons.mpr ⟨isIdentifierChar_of_isDigit hdigit, hrest⟩
    · refine ⟨identifierChar c, cs.map identifierChar, by simp [hdigit], ?_, hrest⟩
      rw [identifierChar]
      split
      · next h => exact h.imp_right fun halpha => by simpa [Char.isAlphanum, hdigit] using halpha
      · exact .inl rfl

/-- An identifier may be followed by characters that may stand in one. -/
theorem IsIdentifier.append {text more : String} (h : IsIdentifier text)
    (hmore : ∀ c ∈ more.toList, IsIdentifierChar c) : IsIdentifier (text ++ more) := by
  obtain ⟨c, cs, htext, hfirst, hrest⟩ := h
  refine ⟨c, cs ++ more.toList, by rw [String.toList_append, htext, List.cons_append], hfirst, ?_⟩
  exact List.forall_mem_append.mpr ⟨hrest, hmore⟩

/-- An identifier has no space in it. -/
theorem IsIdentifier.space_notMem {text : String} (h : IsIdentifier text) : ' ' ∉ text.toList := by
  obtain ⟨c, cs, htext, hfirst, hrest⟩ := h
  rw [htext, List.mem_cons]
  rintro (rfl | hmem)
  · revert hfirst
    decide
  · exact absurd (hrest ' ' hmem) (by simp [IsIdentifierChar])

/-- A number is written with characters that may stand in an identifier. -/
theorem isIdentifierChar_toString {k : Nat} {c : Char} (h : c ∈ (toString k).toList) :
    IsIdentifierChar c := by
  rw [Nat.toString_eq_repr, Nat.toList_repr] at h
  exact isIdentifierChar_of_isDigit (Nat.isDigit_of_mem_toDigits (by decide) (by decide) h)

/-! ## The names of records -/

namespace Registry

/-- The names of records without hint are identifiers. -/
theorem isIdentifier_anonymousName (k : Nat) : IsIdentifier (anonymousName k) := by
  have hstruct : IsIdentifier "struct_" :=
    ⟨'s', "truct_".toList, rfl, by decide, by simp [IsIdentifierChar]⟩
  exact (hstruct.append fun c => isIdentifierChar_toString).append (by simp [IsIdentifierChar])

/-- The names made from an identifier are identifiers. -/
theorem isIdentifier_hintedName {hint : String} (h : IsIdentifier hint) (k : Nat) :
    IsIdentifier (hintedName hint k) := by
  have hend : ∀ c ∈ "_t".toList, IsIdentifierChar c := by simp [IsIdentifierChar]
  rw [hintedName]
  split
  · exact h.append hend
  · have hbetween : ∀ c ∈ "_".toList, IsIdentifierChar c := by simp [IsIdentifierChar]
    exact ((h.append hbetween).append fun c => isIdentifierChar_toString).append hend

/-- The names of records without hint are all different. -/
theorem anonymousName_injective {j k : Nat} (h : anonymousName j = anonymousName k) : j = k :=
  toString_cancel ((String.append_left_inj "_t").mp h)

/-- The names made from one hint are all different. -/
theorem hintedName_injective {hint : String} {j k : Nat}
    (h : hintedName hint j = hintedName hint k) : j = k := by
  -- The name without a number is shorter than all others.
  have hshort {k : Nat} (hk : k ≠ 1) : hintedName hint 1 ≠ hintedName hint k := by
    intro h
    have hlength := congrArg String.length h
    rw [hintedName, hintedName, if_pos rfl, if_neg hk] at hlength
    simp only [String.length_append] at hlength
    have hunderscore : "_".length = 1 := rfl
    omega
  by_cases hj : j = 1
  · by_contra hne
    rw [hj] at h
    exact hshort (fun hk => hne (hj.trans hk.symm)) h
  · by_cases hk : k = 1
    · rw [hk] at h
      exact absurd h.symm (hshort hj)
    · rw [hintedName, hintedName, if_neg hj, if_neg hk] at h
      exact toString_cancel ((String.append_left_inj "_t").mp h)

end Registry

end LayoutInference
