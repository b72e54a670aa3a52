import Segue.Json.Reader
import Segue.Json.Writer
import Segue.Project.Basic
import Segue.Track.Record

/-!
Projects as records, and the text of a project file.
-/

namespace Segue

open Json

def Metadata.decode : Decoder Metadata := fun json => do
  let fields ← fields? ["title", "artist", "album", "genre", "comment", "year"] json
  return {
    title := ← fields.optional "title" asString
    artist := ← fields.optional "artist" asString
    album := ← fields.optional "album" asString
    genre := ← fields.optional "genre" asString
    comment := ← fields.optional "comment" asString
    year := ← fields.optional "year" asString }

def Metadata.encode (metadata : Metadata) : Json :=
  .object [("title", ofOption .string metadata.title), ("artist", ofOption .string metadata.artist),
    ("album", ofOption .string metadata.album), ("genre", ofOption .string metadata.genre),
    ("comment", ofOption .string metadata.comment), ("year", ofOption .string metadata.year)]

namespace Project

def decode : Decoder (Project Float) := fun json => do
  let fields ← fields? ["version", "name", "artist", "tracks", "metadata"] json
  return {
    version := ← fields.required "version" asString
    name := ← fields.required "name" asString
    artist := ← fields.optional "artist" asString
    tracks := ← fields.required "tracks" (asList Track.decode)
    metadata := ← fields.withDefault "metadata" {} Metadata.decode }

def encode (project : Project Float) : Json :=
  .object [("version", .string project.version), ("name", .string project.name),
    ("artist", ofOption .string project.artist), ("tracks", .array (project.tracks.map Track.encode)),
    ("metadata", project.metadata.encode)]

/-- Reads the text of a project file. -/
def parse? (text : String) : Option (Project Float) := (Json.parse? text).bind decode

/-- The text of a project file. -/
def fileText (project : Project Float) : String := project.encode.pretty

end Project

end Segue
