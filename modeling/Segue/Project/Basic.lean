import Segue.Text.Blank
import Segue.Track.Basic

/-!
A mix project: the tracks in their order, the name and artist of the mix, and what is written into
the rendered file about it.
-/

namespace Segue

/-- What is said about a release. Only what is filled in is written out. -/
structure Metadata where
  title : Option String := none
  artist : Option String := none
  album : Option String := none
  genre : Option String := none
  comment : Option String := none
  year : Option String := none
  deriving Repr, DecidableEq, Inhabited

/-- The filled-in fields with their tag names, without blanks around their values. -/
def Metadata.entries (metadata : Metadata) : List (String × String) :=
  let fields := [("title", metadata.title), ("artist", metadata.artist), ("album", metadata.album),
    ("genre", metadata.genre), ("comment", metadata.comment), ("date", metadata.year)]
  fields.filterMap fun (tag, value) =>
    match value.map Text.trim with
    | some value => if value == "" then none else some (tag, value)
    | none => none

/-- The crossfade between a track and the next one; a plain join when it has no length. -/
structure Transition (α : Type) where
  duration : α
  curve : Curve
  deriving Repr

/-- A project as its file keeps it. -/
structure Project (α : Type) where
  version : String
  name : String
  artist : Option String := none
  tracks : List (Track α)
  metadata : Metadata := {}
  deriving Repr

namespace Project

variable {α : Type}

/-- A project without tracks. -/
def empty (name : String) : Project α := { version := "1.0", name, tracks := [] }

/-- The project with its tracks in order of position; equal positions keep their order. -/
def sorted (project : Project α) : Project α :=
  { project with tracks := project.tracks.mergeSort fun a b => decide (a.position ≤ b.position) }

/-- The metadata with the project's name and artist where it has no title or artist of its own. -/
def effectiveMetadata (project : Project α) : Metadata :=
  { project.metadata with
    title := some (project.metadata.title.getD project.name)
    artist := project.metadata.artist.or project.artist }

/-- The transitions out of all tracks but the last. A track without a crossfade of its own takes the
default one, and a negative length counts as none. -/
def transitions [Scalar α] (project : Project α) (default : α) : List (Transition α) :=
  project.tracks.dropLast.map fun track =>
    { duration := Scalar.atLeast 0 (track.crossfade.getD default), curve := track.curve.getD .linear }

end Project

/-- A project together with where it was found; its tracks are in order. -/
structure Mix (α : Type) where
  /-- The directory where relative sources start. -/
  root : Path
  /-- The project file. -/
  file : Path
  project : Project α
  deriving Repr

namespace Mix

variable {α : Type}

/-- The name of a project file inside its directory. -/
def fileName : Path := ⟨"project.json"⟩

/-- A project taken as rooted in a directory. -/
def ofProject (root : Path) (project : Project α) : Mix α :=
  { root, file := root.join fileName, project := project.sorted }

/-- A project as read from its file. -/
def ofFile (file : Path) (project : Project α) : Mix α :=
  { root := file.parent?.getD ⟨"."⟩, file, project := project.sorted }

/-- Where the source of a track is. -/
def sourcePath (mix : Mix α) (track : Track α) : Path := mix.root.join track.source

/-- The sources of all tracks, in order. -/
def sourcePaths (mix : Mix α) : List Path := mix.project.tracks.map mix.sourcePath

end Mix

end Segue
