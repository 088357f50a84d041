import TwoPass.Bindings
import TwoPass.Text.Basic
import TwoPass.Text.Utf8

/-!
# Files

A disk holds directories and files, each at a place: the sequence of names that leads to it from the
root.  Nothing is at two places; there are no links.  Paths are written with slashes.  A path that
starts with a slash leads from the root, any other path from the current directory, and a name of
two points leads to the directory above.
-/

namespace TwoPass

/-- Why a file cannot be read or written. -/
inductive FileError where
  | missing
  | notDirectory
  | isDirectory
  | nameTooLong
  | nulInName
  deriving DecidableEq, Repr, Inhabited

/-- The wording of an error, with its number. -/
def FileError.message : FileError → Text
  | missing => "No such file or directory (os error 2)".toList
  | notDirectory => "Not a directory (os error 20)".toList
  | isDirectory => "Is a directory (os error 21)".toList
  | nameTooLong => "File name too long (os error 36)".toList
  | nulInName => "file name contained an unexpected NUL byte".toList

/-- The reason given where a file does not hold text. -/
def notTextMessage : Text := "stream did not contain valid UTF-8".toList

/-- Directories and files by the names that lead to them from the root. -/
structure Disk where
  /-- The directory that paths lead from unless they start with a slash. -/
  current : List Text := []
  /-- The directories other than the root. -/
  directories : List (List Text) := []
  files : List (List Text × List UInt8)
  deriving DecidableEq, Repr, Inhabited

namespace Disk

/-- The name of the directory above. -/
def above : Text := ['.', '.']

/-- Whether there is a directory at a place. -/
def hasDirectory (disk : Disk) (names : List Text) : Bool :=
  names.isEmpty || disk.directories.contains names

/-- Whether there is a file at a place. -/
def hasFile (disk : Disk) (names : List Text) : Bool := (disk.files.lookup names).isSome

/-- The most bytes of a name. -/
def maxNameLength : Nat := 255

/-- The most bytes of a written path. -/
def maxPathLength : Nat := 4095

/-- Follows written names from a directory, given in reverse.  All names but the last have to lead
to directories. -/
def follow (disk : Disk) (directory : List Text) : List Text → Except FileError (List Text)
  | [] => .ok directory.reverse
  | name :: rest =>
    if disk.hasFile directory.reverse then .error .notDirectory
    else if !disk.hasDirectory directory.reverse then .error .missing
    else if name.isEmpty || name == ['.'] then disk.follow directory rest
    -- The root has no directory above it and is taken for that itself.
    else if name == above then disk.follow directory.tail rest
    else if maxNameLength < (Utf8.encode name).length then .error .nameTooLong
    else disk.follow (name :: directory) rest

/-- Where a written path starts, in reverse. -/
def origin (disk : Disk) (path : Text) : List Text :=
  if path.head? == some '/' then [] else disk.current.reverse

/-- The place that a written path leads to.  An empty path leads nowhere. -/
def locate (disk : Disk) (path : Text) : Except FileError (List Text) :=
  if path.contains (Char.ofNat 0) then .error .nulInName
  else if path.isEmpty then .error .missing
  else if maxPathLength < (Utf8.encode path).length then .error .nameTooLong
  else disk.follow (disk.origin path) (path.splitOn '/')

/-- The contents of a file. -/
def read (disk : Disk) (path : Text) : Except FileError (List UInt8) :=
  match disk.locate path with
  | .error error => .error error
  | .ok names =>
    match disk.files.lookup names with
    | some bytes => .ok bytes
    | none => if disk.hasDirectory names then .error .isDirectory else .error .missing

/-- Creates or replaces a file, in a directory that exists. -/
def write (disk : Disk) (path : Text) (bytes : List UInt8) : Except FileError Disk :=
  match disk.locate path with
  | .error error => .error error
  | .ok names =>
    if disk.hasDirectory names then .error .isDirectory
    else .ok { disk with files := bindKey names bytes disk.files }

/-- The directories that are passed on the way from the root to a place. -/
def passed (names : List Text) : List (List Text) := (List.range names.length).map names.take

/-- The directory in which the files of a new disk lie. -/
def home : List Text := ["home".toList, "work".toList]

/-- A disk with the given files under paths from the current directory.  There are no directories
but those that lead to it and to the files. -/
def ofFiles (files : List (Text × List UInt8)) : Disk :=
  let placed := files.foldl (fun placed file =>
    let names := (file.1.splitOn '/').filter fun name => !name.isEmpty && name != ['.']
    bindKey (home ++ names) file.2 placed) []
  { current := home
    directories := home :: (home :: placed.map Prod.fst).flatMap passed
    files := placed }

/-- The files of a disk that an earlier state did not have or had with other contents, under their
paths from the current directory.  What lies outside of it does not count. -/
def changedSince (disk before : Disk) : List (Text × List UInt8) :=
  (disk.files.filter fun file =>
    before.files.lookup file.1 != some file.2 && disk.current.isPrefixOf file.1).map fun file =>
      (['/'].intercalate (file.1.drop disk.current.length), file.2)

end Disk

end TwoPass
