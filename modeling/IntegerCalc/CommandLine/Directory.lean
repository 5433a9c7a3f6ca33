/-! Files to read: why reading one can fail, and a working directory that holds
some files and no directories. -/

namespace IntegerCalc.CommandLine

inductive ReadFailure where
  | notFound
  | notDirectory
  | isDirectory
  | nameTooLong
  | notText
  /-- Any other reason, as the system words it. -/
  | system (why : String)
  deriving DecidableEq

def ReadFailure.message : ReadFailure → String
  | notFound => "No such file or directory (os error 2)"
  | notDirectory => "Not a directory (os error 20)"
  | isDirectory => "Is a directory (os error 21)"
  | nameTooLong => "File name too long (os error 36)"
  | notText => "stream did not contain valid UTF-8"
  | system why => why

/-- The files of a working directory by their names. -/
structure Directory where
  files : List (String × ByteArray)

namespace Directory

/-- Follows the components of a path. `here` says that they are looked up in the
working directory; of what is above it only the directories are known. -/
def follow (d : Directory) (here : Bool) : List String → Except ReadFailure ByteArray
  | [] => .error .isDirectory
  | name :: rest =>
    if name = "" ∨ name = "." then d.follow here rest
    else if name = ".." then d.follow false rest
    else if 255 < name.utf8ByteSize then .error .nameTooLong
    else
      match if here then d.files.lookup name else none with
      | none => .error .notFound
      | some bytes => if rest = [] then .ok bytes else .error .notDirectory

/-- The content of a file. A path has at most 4095 bytes, and each of its components at most 255. -/
def read (d : Directory) (path : String) : Except ReadFailure ByteArray :=
  if path = "" then .error .notFound
  else if 4095 < path.utf8ByteSize then .error .nameTooLong
  else d.follow (path.toList.head? ≠ some '/') (path.splitOn "/")

end Directory

end IntegerCalc.CommandLine
