/-!
Values of the notation that projects, settings and loudness statistics are kept in. Objects keep
their members in order, a repeated name included.
-/

namespace Segue

/-- A value of the notation. -/
inductive Json where
  | null
  | bool (value : Bool)
  /-- A number without point and exponent, within 64 bits. -/
  | int (value : Int)
  /-- Any other number. -/
  | float (value : Float)
  | string (value : String)
  | array (elements : List Json)
  | object (members : List (String × Json))
  /-- Text of the right form that stands for no value: half of a surrogate pair, a number beyond the
  doubles, or an object with such a name. It does no harm where nothing looks at it. -/
  | unreadable
  deriving Inhabited

end Segue
