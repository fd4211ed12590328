/-!
What can go wrong when files and streams are read and written, with the wording of each
failure.
-/

namespace DeployClient

/-- Refusals of the file system. -/
inductive OsError where
  | noEntry
  | noDevice
  | alreadyExists
  | notDirectory
  | isDirectory
  | invalidArgument
  | nameTooLong
  | tooManyLinks
  | permissionDenied
  | notPermitted
  | nulInPath
deriving DecidableEq, Inhabited

namespace OsError

def numbered (text : String) (number : Nat) : String := s!"{text} (os error {number})"

def message : OsError → String
  | .notPermitted => numbered "Operation not permitted" 1
  | .noEntry => numbered "No such file or directory" 2
  | .noDevice => numbered "No such device or address" 6
  | .permissionDenied => numbered "Permission denied" 13
  | .alreadyExists => numbered "File exists" 17
  | .notDirectory => numbered "Not a directory" 20
  | .isDirectory => numbered "Is a directory" 21
  | .invalidArgument => numbered "Invalid argument" 22
  | .nameTooLong => numbered "File name too long" 36
  | .tooManyLinks => numbered "Too many levels of symbolic links" 40
  | .nulInPath => "file name contained an unexpected NUL byte"

end OsError

inductive IoError where
  | os (error : OsError)
  | notUtf8
  | sinkFailed
  | writeZero
  | connectionCut
deriving DecidableEq, Inhabited

namespace IoError

def message : IoError → String
  | .os error => error.message
  | .notUtf8 => "stream did not contain valid UTF-8"
  | .sinkFailed => "sink failed"
  | .writeZero => "write zero"
  | .connectionCut => "connection closed before message completed"

/-- The thing asked for is not there; every other failure is a real one. -/
def isNotFound (e : IoError) : Bool := e = .os .noEntry

end IoError

end DeployClient
