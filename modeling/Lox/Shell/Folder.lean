/-!
A folder of files, and what it means to read a path in it. Reading fails when a part of the path
does not exist, when a file stands where a folder should be, and when the path leads to a folder.
-/

namespace Lox

/-- Why a file cannot be read. -/
inductive ReadError where
  | notFound | notFolder | isFolder
  deriving DecidableEq, Repr

/-- How the system words it, with its number. -/
def ReadError.message : ReadError → String
  | .notFound => "No such file or directory (os error 2)"
  | .notFolder => "Not a directory (os error 20)"
  | .isFolder => "Is a directory (os error 21)"

/-- Files by the parts of their paths. A folder inside exists when some file lies in it. -/
structure Folder where
  files : List (List String × ByteArray)

namespace Folder

/-- Whether a part of a path stays where it is. -/
def stays (part : String) : Bool := part == "" || part == "."

/-- Whether a part of a path leads to the folder around. -/
def climbs (part : String) : Bool := part == ".."

/-- The parts of a path. -/
def parts (path : String) : List String := path.splitOn "/"

/-- A folder that holds just these files. -/
def ofFiles (files : List (String × ByteArray)) : Folder :=
  ⟨files.map fun f => ((parts f.1).filter (!stays ·), f.2)⟩

/-- Whether there is a folder at a place. -/
def hasFolder (d : Folder) (place : List String) : Bool :=
  d.files.any fun f => place.isPrefixOf f.1 && place.length < f.1.length

/-- Go on from a place outside of the folder. Of what is there, only the folders around are
known. -/
def outside (ps : List String) : ReadError :=
  if ps.all fun p => stays p || climbs p then .isFolder else .notFound

/-- Follow the parts of a path from the folder at `place`. -/
def follow (d : Folder) : List String → List String → Except ReadError ByteArray
  | _, [] => .error .isFolder
  | place, p :: ps =>
    if stays p then d.follow place ps
    else if climbs p then
      if place.isEmpty then .error (outside ps) else d.follow place.dropLast ps
    else
      let place := place ++ [p]
      match d.files.lookup place with
      | some bytes => if ps.isEmpty then .ok bytes else .error .notFolder
      | none => if d.hasFolder place then d.follow place ps else .error .notFound

/-- The contents of the file at a path. -/
def read (d : Folder) (path : String) : Except ReadError ByteArray :=
  if path = "" then .error .notFound
  else if path.startsWith "/" then .error (outside (parts path))
  else d.follow [] (parts path)

end Folder
end Lox
