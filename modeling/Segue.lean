import Segue.Job.Subscriber
import Segue.Main
import Segue.Proofs.Cue.Timeline
import Segue.Proofs.Job.Cancellation
import Segue.Proofs.Job.Exclusion
import Segue.Proofs.Job.Release
import Segue.Proofs.Files.Directories
import Segue.Proofs.Job.Untouched
import Segue.Proofs.Job.Engines
import Segue.Proofs.Job.Validation
import Segue.Proofs.Mixing.Normalization
import Segue.Proofs.Job.Measured
import Segue.Proofs.Job.Invocations
import Segue.Proofs.Cue.Drift
import Segue.Proofs.Mixing.Stages
import Segue.Proofs.Mixing.Arity
import Segue.Proofs.Graph.Reading
import Segue.Proofs.Mixing.Text
import Segue.Proofs.Double.Rounding
import Segue.Proofs.Double.Units
import Segue.Proofs.Double.Arithmetic
import Segue.Proofs.Cue.Frames
import Segue.Proofs.Cue.Markers
import Segue.Proofs.Cue.Listing
import Segue.Proofs.Job.Hearing
import Segue.Proofs.Loudness.Noise
import Segue.Proofs.Settings.Sections
import Segue.Proofs.Job.Remembering
import Segue.Proofs.Job.Advancing
import Segue.Proofs.Job.Audio
import Segue.Proofs.CommandLine.CueSheets
import Segue.Proofs.Project.Stored
import Segue.Proofs.Graph.Discipline
import Segue.Proofs.Double.Order
import Segue.Proofs.Interval.Doubles
import Segue.Proofs.Cue.Entries
import Segue.Proofs.Project.Reading
import Segue.Proofs.CommandLine.Validating
import Segue.Proofs.Mixing.Compiling
import Segue.Proofs.Tempo.Ramp
import Segue.Proofs.Envelope.Lines
import Segue.Proofs.Cue.Spans
import Segue.Proofs.Json.Grammar
import Segue.Proofs.Loudness.Decomposition
import Segue.Proofs.Tempo.Factors
import Segue.Proofs.Job.LastEvent
import Segue.Proofs.Text.LongestEnd
import Segue.Proofs.Cue.Stamps
import Segue.Proofs.Cue.Length
import Segue.Proofs.Text.ShellWords
import Segue.Proofs.Progress.Elapsed
import Segue.Proofs.Interval.Canonical
import Segue.Proofs.Cue.Durations
import Segue.Proofs.Mixing.Spans
import Segue.Proofs.Progress.Clocks
