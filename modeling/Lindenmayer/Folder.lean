import Lindenmayer.Program

/-!
# A folder of files

What reading a path gives in a folder that holds nothing but the given files. The
folder has no folders inside it. What lies around it is not known here: a path that
starts with a slash, or goes out, is read in whatever way paths are read around it.

A path is walked name by name. An empty name and `.` stay, `..` goes out, and
nothing can be below a file, not even an empty name.
-/

namespace Lindenmayer

namespace Folder

def noSuchFile : String := "No such file or directory (os error 2)"
def notADirectory : String := "Not a directory (os error 20)"
def isADirectory : String := "Is a directory (os error 21)"
def nameTooLong : String := "File name too long (os error 36)"

/-- How many bytes a name can have. -/
def nameLimit : Nat := 255

/-- How many bytes a path can have. -/
def pathLimit : Nat := 4095

/-- The names of a path, between its slashes. -/
def names (path : String) : List String :=
  (path.toList.splitOn '/').map String.ofList

/-- What reading a path gives where there are no files, and no folders with a name. -/
def deserted (path : String) : Program.Reading :=
  match (names path).find? fun name => name ∉ ["", ".", ".."] with
  | some name => .error (if nameLimit < name.utf8ByteSize then nameTooLong else noSuchFile)
  | none => .error isADirectory

end Folder

structure Folder where
  files : List (String × ByteArray)
  /-- What reading a path gives that leaves the folder. -/
  around : String → Program.Reading := Folder.deserted

namespace Folder

/-- Where a walk along a path has got to. -/
inductive Place where
  /-- The folder itself. -/
  | here
  /-- Somewhere else, and nothing is known of where. -/
  | outside
  | file (bytes : ByteArray)

/-- Goes one name further. -/
def enter (f : Folder) (place : Place) (name : String) : Except String Place :=
  match place with
  | .file _ => .error notADirectory
  | .here =>
      if name = "" ∨ name = "." then .ok .here
      else if name = ".." then .ok .outside
      else if nameLimit < name.utf8ByteSize then .error nameTooLong
      else
        match f.files.lookup name with
        | some bytes => .ok (.file bytes)
        | none => .error noSuchFile
  | .outside => .ok .outside

def read (f : Folder) (path : String) : Program.Reading :=
  if path = "" then .error noSuchFile
  else if pathLimit < path.utf8ByteSize then .error nameTooLong
  else do
    let start := if path.front = '/' then Place.outside else .here
    match ← (names path).foldlM f.enter start with
    | .file bytes => return bytes
    | .here => throw isADirectory
    | .outside => f.around path

end Folder

end Lindenmayer
