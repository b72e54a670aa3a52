import Segue.Job.Schedule

/-!
Subscribers to the events of a service. Events wait for a subscriber in a buffer that keeps only the
latest, so one that is slow loses the oldest and is told how many.
-/

namespace Segue

/-- What a subscriber receives. -/
inductive Notice where
  /-- So many events have been lost. -/
  | lagged (count : Nat)
  | event (event : Event)
  deriving Repr

/-- A subscriber, by the number of events that it has received or lost. -/
structure Subscriber where
  seen : Nat := 0
  deriving Repr, DecidableEq

namespace Subscriber

/-- The most events that wait. -/
def capacity : Nat := 256

/-- Receives the next notice, if one waits. -/
def receive? (subscriber : Subscriber) (events : List Event) : Option (Notice × Subscriber) :=
  if subscriber.seen + capacity < events.length then
    let seen := events.length - capacity
    some (.lagged (seen - subscriber.seen), ⟨seen⟩)
  else events[subscriber.seen]?.map fun event => (.event event, ⟨subscriber.seen + 1⟩)

/-- Receives all notices that wait. -/
def drain (subscriber : Subscriber) (events : List Event) : List Notice × Subscriber :=
  let lost := events.length - capacity - subscriber.seen
  let notices := (events.drop (subscriber.seen + lost)).map Notice.event
  (if lost = 0 then notices else .lagged lost :: notices, ⟨max subscriber.seen events.length⟩)

/-- Receives notices until one tells of a phase or of the end of a job, while the service moves on;
at most so many notices and turns. -/
def followUpTo (phase : Phase) (holding : Bool) :
    Nat → Subscriber → Service → List Notice × Subscriber × Service
  | 0, subscriber, service => ([], subscriber, service)
  | count + 1, subscriber, service =>
    match subscriber.receive? service.events with
    | some (notice, subscriber) =>
      let isLast := match notice with
        | .event event => event.phase == phase || event.phase.isTerminal
        | .lagged _ => false
      if isLast then ([notice], subscriber, service)
      else
        let (notices, rest) := followUpTo phase holding count subscriber service
        (notice :: notices, rest)
    | none =>
      match service.turn? holding with
      | some service => followUpTo phase holding count subscriber service
      | none => ([], subscriber, service)

/-- Receives notices until one tells of a phase or of the end of a job, while the service moves on. -/
def follow (phase : Phase) (holding : Bool) (subscriber : Subscriber) (service : Service) :
    List Notice × Subscriber × Service :=
  followUpTo phase holding (service.events.length + 2 * service.moveCount) subscriber service

end Subscriber

end Segue
