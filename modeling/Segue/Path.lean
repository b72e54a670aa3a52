/-!
Slash-separated file paths as text. Joining keeps the text of both sides; taking a path apart looks
past empty and single-dot steps, except for a dot that a relative path starts with.
-/

namespace Segue

/-- A file path, absolute when it starts with a slash. -/
structure Path where
  text : String
  deriving DecidableEq, Repr, Inhabited

namespace Path

def isAbsolute (path : Path) : Bool := path.text.toList.head? == some '/'

/-- The path of `child` as seen from `base`. -/
def join (base child : Path) : Path :=
  if child.isAbsolute || base.text == "" then child
  else if base.text.toList.getLast? == some '/' then ⟨base.text ++ child.text⟩
  else ⟨base.text ++ "/" ++ child.text⟩

/-- The text cut at each slash. -/
def steps (path : Path) : List String :=
  (path.text.toList.splitOn '/').map String.ofList

def ofSteps (steps : List String) : Path := ⟨"/".intercalate steps⟩

/-- A step that leads nowhere. -/
def isIdle (step : String) : Bool := step == "" || step == "."

/-- Steps without the idle ones at the end. -/
def dropIdle (steps : List String) : List String := (steps.reverse.dropWhile isIdle).reverse

/-- The first step, which alone may be idle, and the last step that is not, with what lies between
them: none of the last two for a path of one step. -/
structure Route where
  first : String
  middle : List String
  last : Option String
  deriving Repr

/-- The steps of a path without idle ones at its end. -/
def route (path : Path) : Route :=
  match path.steps with
  | [] => { first := "", middle := [], last := none }
  | first :: rest =>
    let rest := dropIdle rest
    { first, middle := rest.dropLast, last := rest.getLast? }

/-- The name a path ends in, unless it ends at a root, here, or above. -/
def fileName? (path : Path) : Option String :=
  match path.route.last with
  | some name => if name == ".." then none else some name
  | none =>
    let name := path.route.first
    if isIdle name || name == ".." then none else some name

/-- The path without its last step; a root and the empty path have none. -/
def parent? (path : Path) : Option Path :=
  let route := path.route
  match route.last with
  | none => if route.first == "" then none else some ⟨""⟩
  | some _ =>
    match dropIdle route.middle with
    | [] => some (if route.first == "" then ⟨"/"⟩ else ⟨route.first⟩)
    | middle => some (ofSteps (route.first :: middle))

/-- A name up to its last dot. A dot that starts the name does not end the stem. -/
def stem (name : String) : String :=
  match name.toList.reverse.dropWhile (· != '.') with
  | [] | [_] => name
  | _ :: before => String.ofList before.reverse

/-- What the last name of a path becomes when it gets an extension. Where a name with a lone dot for
its stem ends the path, what its extension leaves is a step up, and that takes no other. -/
def extendName (endsPath : Bool) (name extension : String) : String :=
  if endsPath && stem name == "." then ".." else stem name ++ "." ++ extension

/-- The path with its extension replaced, or added where the name has none; idle steps behind the name
are dropped. A path without a name stays as it is. -/
def withExtension (path : Path) (extension : String) : Path :=
  match path.fileName? with
  | none => path
  | some name =>
    let name := extendName (path.steps.getLast? == some name) name extension
    let route := path.route
    match route.last with
    | none => ⟨name⟩
    | some _ => ofSteps (route.first :: route.middle ++ [name])

end Path

end Segue
