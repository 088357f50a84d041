import TwoPass.File.Disk
import TwoPass.Object.Record

/-!
# Configuration

Which outputs are written and how.  Loading a configuration from a file takes a reader of such
files.
-/

namespace TwoPass

/-- The options of a configuration file. -/
structure Config where
  /-- The number of data bytes in a record. -/
  recordLength : Nat := Run.defaultRecordLength
  /-- Whether there may be more than one `ORG`. -/
  multipleOrigins : Bool := false
  listing : Bool := true
  /-- Whether to write a hexadecimal dump. -/
  dump : Bool := true
  /-- Whether to write S-records. -/
  records : Bool := true
  symbolMap : Bool := false
  deriving DecidableEq, Repr, Inhabited

/-- Why a configuration is refused. -/
inductive ConfigError where
  | unreadable (error : FileError)
  | malformed
  deriving DecidableEq, Repr, Inhabited

/-- The wording of an error.  What is wrong with a malformed text is not said. -/
def ConfigError.message : ConfigError → Text
  | unreadable error => "Cannot read config file: ".toList ++ error.message
  | malformed => "Invalid config: ".toList

namespace Config

/-- Makes a configuration of the contents of a file.  A directory can be opened like a file, but
nothing can be read from it. -/
def loadBy (read? : List UInt8 → Option Config) (contents : Except FileError (List UInt8)) :
    Except ConfigError Config :=
  match contents with
  | .error .isDirectory => .error .malformed
  | .error error => .error (.unreadable error)
  | .ok bytes => (read? bytes).elim (.error .malformed) .ok

end Config

end TwoPass
