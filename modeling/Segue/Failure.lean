import Segue.Text.Blank

/-!
The failures that a user is told about.
-/

namespace Segue

/-- What went wrong, in the words that follow the kind of failure. -/
inductive Failure where
  /-- Sources that are not there, by the titles of their tracks. -/
  | validation (missing : List String)
  | analysis (message : String)
  | graphBuild (message : String)
  /-- A failed render with the end of what the engine said. -/
  | render (message tail : String)
  | cueSheet (message : String)
  | persist (message : String)
  | alreadyInProgress
  | config (message : String)
  | unsupported (message : String)
  | io (message : String)
  | json (message : String)
  | other (message : String)
  deriving Repr, DecidableEq

/-- The end of the engine's output on lines of its own, when there is more in it than blanks. -/
def Failure.tailText (tail : String) : String :=
  let tail := Text.trim tail
  if tail = "" then "" else "\n" ++ tail

def Failure.message : Failure → String
  | validation missing => "Missing source files for: " ++ ", ".intercalate missing
  | analysis message => "Loudness analysis error: " ++ message
  | graphBuild message => "Graph build error: " ++ message
  | render message tail => "Render error: " ++ message ++ tailText tail
  | cueSheet message => "Cue sheet error: " ++ message
  | persist message => "Failed to persist export settings: " ++ message
  | alreadyInProgress => "An export is already in progress"
  | config message => "Configuration error: " ++ message
  | unsupported message => "Unsupported operation: " ++ message
  | io message | json message | other message => message

end Segue
