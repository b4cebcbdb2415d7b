import JamTokens.Files.Path
import JamTokens.Source.Event

/-!
# Files and directories

A file system maps places to files and directories; a place is the list of
names that leads to it from the root.  Paths are followed part by part, and
every part but the last has to be a directory.
-/

set_option autoImplicit false

namespace JamTokens

inductive FileEntry
  | file (content : ByteArray)
  | directory

/-- Whether both are directories, or files of the same content. -/
def FileEntry.same : FileEntry → FileEntry → Bool
  | file a, file b => a.data == b.data
  | directory, directory => true
  | _, _ => false

abbrev Place := List String

structure FileSystem where
  entries : List (Place × FileEntry)
  here : Place

namespace FileSystem

def find? (fs : FileSystem) (place : Place) : Option FileEntry :=
  if place = [] then some .directory else fs.entries.lookup place

def put (fs : FileSystem) (place : Place) (entry : FileEntry) : FileSystem :=
  { fs with entries := (place, entry) :: fs.entries.filter (·.1 ≠ place) }

def install (fs : FileSystem) (place : Place) (entry : FileEntry) : FileSystem :=
  let above := ((List.range place.length).drop 1).map (place.take ·)
  let fs := above.foldl (fun fs p => if (fs.find? p).isSome then fs else fs.put p .directory) fs
  fs.put place entry

/-- Follows parts from a place.  Every place that is left must be a directory. -/
def walk (fs : FileSystem) : Place → List PathPart → Except Failure Place
  | place, [] => .ok place
  | place, part :: rest =>
    match fs.find? place with
    | none => .error .noSuchFile
    | some (.file _) => .error .notADirectory
    | some .directory =>
      match part with
      | .current => walk fs place rest
      | .parent => walk fs place.dropLast rest
      | .name s => walk fs (place ++ [s]) rest

/-- The place that a path leads to; there need not be anything. -/
def locate (fs : FileSystem) (path : Path) : Except Failure Place :=
  if path.isEmpty then .error .noSuchFile
  else fs.walk (if path.absolute then [] else fs.here) path.parts

def status (fs : FileSystem) (path : Path) : Except Failure FileEntry :=
  match fs.locate path with
  | .error f => .error f
  | .ok place =>
    match fs.find? place with
    | none => .error .noSuchFile
    | some .directory => .ok .directory
    | some (.file content) =>
      if path.endsInSlash then .error .notADirectory else .ok (.file content)

def isPresent (fs : FileSystem) (path : Path) : Bool := (fs.status path).toOption.isSome

def isDirectory (fs : FileSystem) (path : Path) : Bool :=
  (fs.status path).toOption.any (·.same .directory)

def read (fs : FileSystem) (path : Path) : Except Failure ByteArray :=
  match fs.status path with
  | .error f => .error f
  | .ok (.file content) => .ok content
  | .ok .directory => .error .isADirectory

/-- Opens a file as a source.  A directory can be opened, but not read. -/
def openSource (fs : FileSystem) (path : Path) : Except Failure Source :=
  match fs.status path with
  | .error f => .error f
  | .ok (.file content) => .ok (.ofBytes content.data.toList)
  | .ok .directory => .ok (.ofFailure .isADirectory)

def makeDirectory (fs : FileSystem) (path : Path) : Except Failure FileSystem :=
  match fs.locate path with
  | .error f => .error f
  | .ok place =>
    if (fs.find? place).isSome then .error .fileExists else .ok (fs.put place .directory)

/-- Makes a directory and all that are missing above it.  What has been made
before a failure stays. -/
def makeDirectories (fs : FileSystem) (path : Path) : Except Failure Unit × FileSystem :=
  if path.isEmpty then (.ok (), fs)
  else
    match fs.makeDirectory path with
    | .ok fs => (.ok (), fs)
    | .error f =>
      if f.kind = .notFound then
        match _h : path.parent? with
        | none => (.error f, fs)
        | some parent =>
          match makeDirectories fs parent with
          | (.error f, fs) => (.error f, fs)
          | (.ok (), fs) =>
            match fs.makeDirectory path with
            | .ok fs => (.ok (), fs)
            | .error f => (if fs.isDirectory path then .ok () else .error f, fs)
      else (if fs.isDirectory path then .ok () else .error f, fs)
termination_by path.parts.length
decreasing_by exact Path.parent?_length _h

def write (fs : FileSystem) (path : Path) (content : ByteArray) : Except Failure FileSystem :=
  match fs.locate path with
  | .error f => .error f
  | .ok place =>
    match path.parts.getLast? with
    | some (.name _) =>
      if path.endsInSlash || (fs.find? place).any (·.same .directory) then .error .isADirectory
      else .ok (fs.put place (.file content))
    | _ => .error .isADirectory

def save (fs : FileSystem) (path : Path) (content : ByteArray) : Except Failure Unit × FileSystem :=
  match path.parent? with
  | none => finish fs
  | some parent =>
    match fs.makeDirectories parent with
    | (.error f, fs) => (.error f, fs)
    | (.ok (), fs) => finish fs
where
  finish (fs : FileSystem) : Except Failure Unit × FileSystem :=
    match fs.write path content with
    | .ok fs => (.ok (), fs)
    | .error f => (.error f, fs)

def changedSince (fs before : FileSystem) : List (Place × ByteArray) :=
  fs.entries.filterMap fun (place, entry) =>
    match entry with
    | .directory => none
    | .file content =>
      if (before.find? place).any (·.same entry) then none else some (place, content)

end FileSystem

end JamTokens
