import TwoPass.Text.Basic

/-!
# Paths

Paths are written with slashes.  The extension of a file is what follows the last point of its name.
-/

namespace TwoPass.Path

/-- The last name of a path. -/
def fileName (path : Text) : Text := ((path.splitOn '/').getLast?).getD []

/-- A file name cut before its last point: the part before it and the part after it.  A point at the
start of a name does not count. -/
def splitName (name : Text) : Text × Option Text :=
  let reversed := name.reverse
  match reversed.dropWhile (· != '.') with
  | _ :: stem =>
    if stem.isEmpty then (name, none)
    else (stem.reverse, some (reversed.takeWhile (· != '.')).reverse)
  | [] => (name, none)

/-- The extension of a file, without its point. -/
def extension? (path : Text) : Option Text := (splitName (fileName path)).2

/-- A file name without its extension.  One of which a single point would be left keeps the point
before the extension, too. -/
def bareName (name : Text) : Text :=
  match splitName name with
  | (['.'], some _) => ['.', '.']
  | (stem, _) => stem

/-- A path without the extension of the file. -/
def withoutExtension (path : Text) : Text :=
  let name := fileName path
  path.take (path.length - name.length) ++ bareName name

end TwoPass.Path
