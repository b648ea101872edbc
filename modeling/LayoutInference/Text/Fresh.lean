/-!
# Fresh names

Searching a numbered series of names for the first that is still free. Among any `n + 1` different
names at least one is free when `n` are taken, so the search tries no more than that.
-/

namespace LayoutInference

/-- The first number from `start` on whose name is not taken, trying at most `tries` others
before. -/
def firstFreeWithin (taken : List String) (candidate : Nat → String) : (tries : Nat) → (start : Nat) → Nat
  | 0, start => start
  | tries + 1, start =>
    if candidate start ∈ taken then firstFreeWithin taken candidate tries (start + 1) else start

/-- The first number from `start` on whose name is not taken. -/
def firstFree (taken : List String) (candidate : Nat → String) (start : Nat) : Nat :=
  firstFreeWithin taken candidate taken.length start

end LayoutInference
