/-!
# System errors

Why an operation on files or programs fails, with the text that the system gives.
-/

namespace ConfigAudit

/-- A failure of the system: the reasons that it knows by number, then a file that holds no text,
and a zero character in a path or in the words of a command. -/
inductive IoError
  | notFound
  | noDevice
  | permissionDenied
  | notDirectory
  | isDirectory
  | nameTooLong
  | tooManyLinks
  | brokenPipe
  | notText
  | zeroInPath
  | zeroInCommand
  deriving DecidableEq, Repr

namespace IoError

/-- What went wrong. -/
def reason : IoError → String
  | .notFound => "No such file or directory"
  | .noDevice => "No such device or address"
  | .permissionDenied => "Permission denied"
  | .notDirectory => "Not a directory"
  | .isDirectory => "Is a directory"
  | .nameTooLong => "File name too long"
  | .tooManyLinks => "Too many levels of symbolic links"
  | .brokenPipe => "Broken pipe"
  | .notText => "stream did not contain valid UTF-8"
  | .zeroInPath => "file name contained an unexpected NUL byte"
  | .zeroInCommand => "nul byte found in provided data"

/-- The number under which the system knows a failure; failures found before the system is asked
have none. -/
def code? : IoError → Option Nat
  | .notFound => some 2
  | .noDevice => some 6
  | .permissionDenied => some 13
  | .notDirectory => some 20
  | .isDirectory => some 21
  | .brokenPipe => some 32
  | .nameTooLong => some 36
  | .tooManyLinks => some 40
  | .notText | .zeroInPath | .zeroInCommand => none

/-- The reason with the number. -/
def message (e : IoError) : String :=
  match e.code? with
  | some n => e.reason ++ " (os error " ++ toString n ++ ")"
  | none => e.reason

end IoError

end ConfigAudit
