/-!
# Errors of files

What can go wrong with a file, in the words in which the operating system reports it.
-/

namespace Typestrip.Files

/-- Why a file cannot be read or written. -/
inductive IoError where
  | notFound
  | alreadyExists
  | notDirectory
  | isDirectory
  | nameTooLong
  /-- A path holds the null character. -/
  | nullInPath
  /-- The content is no UTF-8. -/
  | notText
  /-- Another error, by its message. -/
  | other (message : String)
  deriving DecidableEq, Repr

/-- The message for an error. -/
def IoError.message : IoError → String
  | notFound => "No such file or directory (os error 2)"
  | alreadyExists => "File exists (os error 17)"
  | notDirectory => "Not a directory (os error 20)"
  | isDirectory => "Is a directory (os error 21)"
  | nameTooLong => "File name too long (os error 36)"
  | nullInPath => "file name contained an unexpected NUL byte"
  | notText => "stream did not contain valid UTF-8"
  | other message => message

end Typestrip.Files
