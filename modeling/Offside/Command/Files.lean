/-!
# `Command.Files` — reaching files

A command reads one file and may write another. `FileAccess` is how it does so; the command is written
over any of them. `Directory` is one without a computer: files kept in memory, below a working directory
that nothing else lives in.
-/

namespace Offside.Command

/-- Why a file was not read or written. -/
inductive FileFault where
  | missing
  | notDirectory
  | isDirectory
  | notText
  | other (text : String)
deriving DecidableEq

/-- The text of a fault. -/
def FileFault.message : FileFault → String
  | .missing => "No such file or directory (os error 2)"
  | .notDirectory => "Not a directory (os error 20)"
  | .isDirectory => "Is a directory (os error 21)"
  | .notText => "stream did not contain valid UTF-8"
  | .other text => text

/-- How files are read and written. -/
structure FileAccess (m : Type → Type) where
  read : String → m (Except FileFault String)
  write : String → String → m (Except FileFault Unit)

/-- Bytes as text. -/
def decodeText (bytes : ByteArray) : Except FileFault String :=
  match String.fromUTF8? bytes with
  | some text => .ok text
  | none => .error .notText

/-- The path of a file below the working directory, outermost directory first. -/
abbrev Path := List String

/-- Files in memory. Directories are the paths that files lie below. -/
structure Directory where
  files : List (Path × ByteArray)

/-- What a path leads to. -/
inductive Place where
  | file (path : Path)
  | directory
  /-- Nothing is there, but a file could be made. -/
  | vacant (path : Path)
  /-- Nothing is there, and only a directory could be. -/
  | vacantDirectory
  | missing
  | notDirectory
deriving DecidableEq

namespace Directory

/-- The bytes of a file. -/
def find? (d : Directory) (path : Path) : Option ByteArray := (d.files.find? (·.1 == path)).map (·.2)

/-- Some file lies below the path. -/
def isDirectory (d : Directory) (path : Path) : Bool :=
  path.isEmpty || d.files.any fun f => path.isPrefixOf f.1 && f.1 != path

/-- The part of a path leads to no place of its own: it stays in place or goes up. -/
def isMove (part : String) : Bool := part == "" || part == "." || part == ".."

/-- Follows the parts of a path from a directory. Empty parts and single dots stay in place, two dots go
    up; above the working directory there are only directories. -/
def walk (d : Directory) (here : Path) : List String → Place
  | [] => .directory
  | part :: rest =>
    if part = "" ∨ part = "." then walk d here rest
    else if part = ".." then
      if !here.isEmpty then walk d here.dropLast rest
      else if rest.all isMove then .directory
      else .missing
    else
      let path := here ++ [part]
      if (d.find? path).isSome then (if rest.isEmpty then .file path else .notDirectory)
      else if d.isDirectory path then walk d path rest
      else if rest.isEmpty then .vacant path
      else if rest.all (· = "") then .vacantDirectory
      else .missing

/-- What a path leads to. Below the root of the system nothing is known. -/
def locate (d : Directory) (path : String) : Place :=
  match path.splitOn "/" with
  | "" :: rest => if rest.all (· = "") ∧ path ≠ "" then .directory else .missing
  | parts => d.walk [] parts

/-- Reads a file as text. -/
def read (d : Directory) (path : String) : Except FileFault String :=
  match d.locate path with
  | .file p => decodeText ((d.find? p).getD ByteArray.empty)
  | .directory => .error .isDirectory
  | .notDirectory => .error .notDirectory
  | .vacant _ | .vacantDirectory | .missing => .error .missing

/-- Replaces the bytes of a file, or makes it. -/
def put (d : Directory) (path : Path) (bytes : ByteArray) : Directory :=
  if (d.find? path).isSome then ⟨d.files.map fun f => if f.1 == path then (path, bytes) else f⟩
  else ⟨d.files ++ [(path, bytes)]⟩

/-- Writes text to a file. -/
def write (d : Directory) (path text : String) : Except FileFault Directory :=
  match d.locate path with
  | .file p | .vacant p => .ok (d.put p text.toUTF8)
  | .directory | .vacantDirectory => .error .isDirectory
  | .notDirectory => .error .notDirectory
  | .missing => .error .missing

/-- The directory as a place where a command reads and writes. -/
def access : FileAccess (StateM Directory) where
  read path := return (← get).read path
  write path text := do
    match (← get).write path text with
    | .error e => return .error e
    | .ok d =>
      set d
      return .ok ()

/-- The files of `after` that are new or differ from those of `before`. -/
def changes (before after : Directory) : List (Path × ByteArray) :=
  after.files.filter fun f => before.find? f.1 != some f.2

end Directory

end Offside.Command
