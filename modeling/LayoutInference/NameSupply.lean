import LayoutInference.Program
import LayoutInference.Text.Fresh

/-!
# Names for temporaries

Generated code needs names of its own. A supply hands out names that are neither visible where they
are used nor given out before in the same function, the program outside all functions counting as one
more. Each request walks a fixed series of names and takes the first that is free.
-/

namespace LayoutInference

/-- The function that names used at a node belong to: the node itself if it is one, else the function
around it; none outside all functions. -/
def Program.owner (p : Program) (id : NodeId) : Option NodeId :=
  (p.node? id).bind fun n => if n.kind = .function then some n.id else n.func

/-- The `k`-th name of the series that starts with `base` and goes on with `base_2`, `base_3`. -/
def numberedName (base : String) (k : Nat) : String :=
  if k ≤ 1 then base else base ++ "_" ++ toString k

/-- The short names for loop counters. -/
def counterNames : List String := ["i", "j", "k", "l", "m", "n"]

/-- The names of loop counters in the order in which they are tried: the short names, then `i_2`,
`i_3` and so on. -/
def counterName (k : Nat) : String :=
  match counterNames[k]? with
  | some name => name
  | none => numberedName "i" (k - counterNames.length + 2)

/-- The names given out so far, each with the function it belongs to. -/
structure NameSupply where
  given : List (Option NodeId × String) := []

namespace NameSupply

/-- The names given out for a function. -/
def givenIn (supply : NameSupply) (owner : Option NodeId) : List String :=
  (supply.given.filter fun entry => entry.1 = owner).map (·.2)

/-- The names that cannot be given out at a node. -/
def taken (supply : NameSupply) (p : Program) (id : NodeId) : List String :=
  p.visibleNames id ++ supply.givenIn (p.owner id)

/-- Give out the first free name of a series whose first number is `start`. -/
def give (supply : NameSupply) (p : Program) (id : NodeId) (series : Nat → String) (start : Nat) :
    String × NameSupply :=
  let name := series (firstFree (supply.taken p id) series start)
  (name, ⟨(p.owner id, name) :: supply.given⟩)

/-- A name for a loop counter at a node. -/
def loopCounter (supply : NameSupply) (p : Program) (id : NodeId) : String × NameSupply :=
  supply.give p id counterName 0

/-- A name for a temporary at a node: the proposed one, numbered from 2 on if it is not free. -/
def temporary (supply : NameSupply) (p : Program) (id : NodeId) (proposed : String) :
    String × NameSupply :=
  supply.give p id (numberedName proposed) 1

end NameSupply

end LayoutInference
