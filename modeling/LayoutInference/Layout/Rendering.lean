import LayoutInference.Fault
import LayoutInference.Layout.Registry

/-!
# Rendering layouts

The written form of a layout in declarations. Every layout has one but the missing layout, for which
rendering fails.
-/

namespace LayoutInference.Registry

/-- The written form of a layout; the missing layout has none. -/
def render (r : Registry) (l : Layout) : Except Fault String :=
  if l = .missing then .error (.internal "cannot render type value <nil>") else .ok (r.text l)

/-- The declaration of a name with a layout. -/
def declare (r : Registry) (l : Layout) (name : String) : Except Fault String :=
  if l = .missing then .error (.internal "cannot render type value <nil>")
  else .ok ((r.declarator l).declare name)

end LayoutInference.Registry
