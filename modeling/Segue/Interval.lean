import Segue.Track.Basic

/-!
What is left of a track when regions are cut out of it. Enabled regions of positive length are merged
into maximal runs, and the gaps between the runs are kept as far as the trim window reaches.
-/

namespace Segue

/-- A half-open interval of time in seconds. -/
structure Interval (α : Type) where
  start : α
  stop : α
  deriving Repr, DecidableEq

namespace Interval

variable {α : Type} [Scalar α]

/-- The times from the start on and before the stop. -/
instance : Membership α (Interval α) where
  mem interval time := interval.start ≤ time ∧ time < interval.stop

def length (interval : Interval α) : α := Scalar.atLeast 0 (interval.stop - interval.start)

def isEmpty (interval : Interval α) : Bool := decide (interval.stop ≤ interval.start)

/-- The intervals that are cut out. -/
def ofRegions (regions : List (RemovedRegion α)) : List (Interval α) :=
  (regions.filter fun region => region.enabled && decide (region.start < region.stop)).map
    fun region => { start := region.start, stop := region.stop }

/-- Merges intervals in order of their starts into the run that is being built. An interval that
starts in the run, or where it stops, belongs to it. -/
def coalesce (run : Interval α) : List (Interval α) → List (Interval α)
  | [] => [run]
  | next :: rest =>
    if next.start ≤ run.stop then
      coalesce { run with stop := Scalar.larger run.stop next.stop } rest
    else run :: coalesce next rest

/-- The maximal runs of what the regions cut out, in order. -/
def merge (regions : List (RemovedRegion α)) : List (Interval α) :=
  match (ofRegions regions).mergeSort fun a b => Scalar.sortsBefore a.start b.start with
  | [] => []
  | first :: rest => coalesce first rest

/-- The interval between two times, when there is one. -/
def between (start stop : α) : List (Interval α) := if start < stop then [{ start, stop }] else []

/-- What the runs leave between a time and the end of the window. -/
def keptFrom (cursor windowEnd : α) : List (Interval α) → List (Interval α)
  | [] => between cursor windowEnd
  | run :: rest =>
    if windowEnd ≤ run.start then between cursor windowEnd
    else if run.stop ≤ cursor then keptFrom cursor windowEnd rest
    else
      let later := keptFrom (Scalar.larger cursor run.stop) windowEnd rest
      if cursor < run.start then
        { start := cursor, stop := Scalar.smaller run.start windowEnd } :: later
      else later

/-- The parts of a window that survive the cuts. Without a cut this is the window itself, whatever
its length. -/
def kept (window : Interval α) (regions : List (RemovedRegion α)) : List (Interval α) :=
  match merge regions with
  | [] => [window]
  | runs => keptFrom window.start window.stop runs

def totalLength (intervals : List (Interval α)) : α := Scalar.total (intervals.map length)

end Interval

/-- The intervals of a track's source that the mix plays. -/
def Track.kept {α : Type} [Scalar α] (track : Track α) : List (Interval α) :=
  let (start, stop) := track.window
  Interval.kept { start, stop } track.removed

end Segue
