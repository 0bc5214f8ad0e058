import MiniRisc.Command.Start
/-! Folders of files, and what paths lead to in them. -/
namespace MiniRisc

structure Folder where
  files : List (String × List UInt8) := []
  directories : List String := []
  deriving DecidableEq, Repr

namespace Folder

/-- What is at the end of a path. A path may end at a name that is still free. -/
inductive Place
  | file (path : String) (data : List UInt8)
  | directory
  | free (path : String)
  | absent
  /-- The path goes on behind a file. -/
  | behindFile
  /-- A name that is free where nothing of the folder is. -/
  | elsewhere
  | tooLong
  deriving DecidableEq, Repr

def pathOf (parts : List String) : String := "/".intercalate parts

/-- Whether a path is a directory, itself or because something is in it. -/
def isDirectory (f : Folder) (path : String) : Bool :=
  path = "" || f.directories.contains path ||
    (f.files.map (·.1) ++ f.directories).any fun below => (path ++ "/").isPrefixOf below

def isDots (part : String) : Bool := part = "" || part = "." || part = ".."

/-- What the parts of a path that has left the folder lead to. There is no file there, and no
directory below. -/
def outside (rest : List String) : Place :=
  if rest.all isDots then .directory
  else if rest.dropLast.all isDots then .elsewhere
  else .absent

def nameLimit : Nat := 255

def pathLimit : Nat := 4095

def follow (f : Folder) (parts : List String) : List String → Place
  | [] => .directory
  | part :: rest =>
    if part = "" ∨ part = "." then follow f parts rest
    else if part = ".." then
      if parts = [] then outside rest else follow f parts.dropLast rest
    else if nameLimit < part.utf8ByteSize then .tooLong
    else
      let path := pathOf (parts ++ [part])
      match f.files.lookup path with
      | some data => if rest = [] then .file path data else .behindFile
      | none =>
        if f.isDirectory path then follow f (parts ++ [part]) rest
        else if rest = [] then .free path
        else .absent

def find (f : Folder) (path : String) : Place :=
  if path = "" then .absent
  else if pathLimit < path.utf8ByteSize then .tooLong
  else if path.front = '/' then outside (path.splitOn "/")
  else f.follow [] (path.splitOn "/")

/-- The folder with a file written, if a file can be at the path. A file that is written elsewhere
leaves the folder as it is. -/
def write? (f : Folder) (path : String) (data : List UInt8) : Option Folder :=
  match f.find path with
  | .file name _ =>
    some { f with files := f.files.map fun e => if e.1 = name then (name, data) else e }
  | .free name => some { f with files := f.files ++ [(name, data)] }
  | .elsewhere => some f
  | _ => none

def changed (before after : Folder) : List (String × List UInt8) :=
  after.files.filter fun e => before.files.lookup e.1 ≠ some e.2

open Command

def read (f : Folder) (path : String) : Reading :=
  if isUnnameable path then .unnameable else
  match f.find path with
  | .file _ data => .content data
  | .directory => .failed 21 "Is a directory"
  | .behindFile => .failed 20 "Not a directory"
  | .tooLong => .failed 36 "File name too long"
  | .free _ | .elsewhere | .absent => .absent

def storage : Storage Folder := ⟨read, write?⟩

end Folder
end MiniRisc
