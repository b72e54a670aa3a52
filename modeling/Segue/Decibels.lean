/-!
Gains in decibels. How a gain becomes a factor is left to the number type, so that what holds of a
compiled mix holds whatever factors the gains have.
-/

namespace Segue

/-- Numbers that can be read as gains in decibels. -/
class Decibels (α : Type) where
  /-- The factor that a gain multiplies amplitudes by. -/
  factor : α → α

/-- Twenty decibels are a factor of ten. -/
instance : Decibels Float where
  factor gain := Float.pow 10.0 (gain / 20.0)

end Segue
