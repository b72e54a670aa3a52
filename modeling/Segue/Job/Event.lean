import Segue.Path

/-!
The phases of a render job, what its observers are told, and how it ends.
-/

namespace Segue

/-- Where a job is. -/
inductive Phase where
  | validating
  | analyzing
  | rendering
  | cue
  | complete
  | error
  | cancelled
  deriving Repr, DecidableEq, Inhabited

namespace Phase

def name : Phase → String
  | validating => "validating"
  | analyzing => "analyzing"
  | rendering => "rendering"
  | cue => "cue"
  | complete => "complete"
  | error => "error"
  | cancelled => "cancelled"

def all : List Phase := [validating, analyzing, rendering, cue, complete, error, cancelled]

def ofName? (name : String) : Option Phase := all.find? fun phase => phase.name = name

/-- Whether a job in this phase has ended. -/
def isTerminal : Phase → Bool
  | complete | error | cancelled => true
  | validating | analyzing | rendering | cue => false

end Phase

/-- What observers are told. -/
structure Event where
  job : Nat
  phase : Phase
  /-- The progress of the whole job, from 0 to 100. -/
  percent : Float
  /-- The seconds still to go, while rendering. -/
  remaining : Option Float := none
  /-- A detail for people; the failure, when the job has failed. -/
  message : Option String := none
  /-- The rendered file, when the job is complete. -/
  output : Option Path := none
  deriving Repr

/-- How a job has ended. -/
inductive Outcome where
  | completed (output : Path)
  | failed (message : String)
  | cancelled
  deriving Repr, DecidableEq

namespace Outcome

def phase : Outcome → Phase
  | completed _ => .complete
  | failed _ => .error
  | cancelled => .cancelled

/-- What observers are told last. -/
def message : Outcome → String
  | completed _ => "Export complete"
  | failed message => message
  | cancelled => "Export cancelled"

def output? : Outcome → Option Path
  | completed output => some output
  | failed _ | cancelled => none

end Outcome

end Segue
