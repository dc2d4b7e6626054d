import Typestrip.Files.Error
import Typestrip.Grammar.Parser
import Typestrip.Rpc.Message

/-!
# Errors of the setup

What keeps a transpiler from being set up. Faults of a source are no errors in this sense; they are
reported in its output.
-/

namespace Typestrip.TypeScript

/-- Why there is no transpiler. -/
inductive SetupError where
  | grammar (cause : Grammar.GrammarError)
  | dispatch (cause : Rpc.DispatchError)
  /-- The settings cannot be read. -/
  | unreadable (cause : Files.IoError)
  /-- The settings are no record of settings. -/
  | malformed
  deriving DecidableEq, Repr

/-- The message for a setup error. -/
def SetupError.message : SetupError → String
  | grammar cause => "grammar error: " ++ cause.message
  | dispatch cause => "dispatch error: " ++ cause.message
  | unreadable cause => "failed to read configuration: " ++ cause.message
  | malformed => "invalid configuration"

end Typestrip.TypeScript
