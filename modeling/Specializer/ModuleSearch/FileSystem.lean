/-!
# File systems

A file system as far as module search looks at it: which paths are files and which are directories. Paths are texts
with `/` between their parts.
-/

namespace Specializer

namespace FilePath

/-- The parts of a path, between its slashes. -/
def parts (path : String) : List String := path.splitOn "/"

/-- Where a part of a path leads from a place, which is given by the names on the way to it from the top. Two dots lead
up, and from the top nowhere; one dot and an empty part stay. -/
def step (place : List String) (part : String) : List String :=
  if part = ".." then place.dropLast
  else if part = "." || part = "" then place
  else place ++ [part]

/-- Whether a path starts at the top. -/
def isAbsolute (path : String) : Bool := path.startsWith "/"

/-- A path inside a directory. An absolute path stays as it is. -/
def join (directory path : String) : String :=
  if isAbsolute path || directory.isEmpty then path
  else if directory.endsWith "/" then directory ++ path
  else directory ++ "/" ++ path

end FilePath

/-- The files and directories that exist. -/
structure FileSystem where
  isFile : String → Bool
  isDirectory : String → Bool

namespace FileSystem

/-- The file system without anything in it. -/
def empty : FileSystem := ⟨fun _ => false, fun _ => false⟩

/-- Follows the parts of a path from a place. Each place that is left has to be a directory. -/
def follow? (isDirectory : List String → Bool) (place : List String) : List String → Option (List String)
  | [] => some place
  | part :: rest => if isDirectory place then follow? isDirectory (FilePath.step place part) rest else none

/-- The places a path passes, the last one first, starting from a place. -/
def passed (place : List String) (parts : List String) : List (List String) :=
  parts.foldl (fun places part => FilePath.step (places.headD []) part :: places) [place]

/-- The file system of an absolute root directory that holds the given entries: files, directories where an entry ends
in `/`, and all directories on the way to them. -/
def ofEntries (root : String) (entries : List String) : FileSystem :=
  let top := passed [] (FilePath.parts root)
  let places := fun entry => passed (top.headD []) (FilePath.parts entry)
  let files := (entries.filter fun entry => !entry.endsWith "/").filterMap fun entry => (places entry).head?
  let directories := top ++ entries.flatMap fun entry =>
    if entry.endsWith "/" then places entry else (places entry).tail
  let find? := fun path =>
    if FilePath.isAbsolute path then follow? directories.contains [] (FilePath.parts path) else none
  { isFile := fun path => (find? path).any files.contains
    isDirectory := fun path => (find? path).any directories.contains }

end FileSystem

end Specializer
