import Typestrip.Main
import Typestrip.Proofs.CommandLine.Runs
import Typestrip.Proofs.Grammar.Adequacy
import Typestrip.Proofs.Grammar.Evaluations
import Typestrip.Proofs.Grammar.Joining
import Typestrip.Proofs.Grammar.Nesting
import Typestrip.Proofs.Grammar.Positions
import Typestrip.Proofs.Grammar.Translation
import Typestrip.Proofs.Rpc.Answers
import Typestrip.Proofs.Rpc.Draining
import Typestrip.Proofs.Rpc.Results
import Typestrip.Proofs.TypeScript.Batch
import Typestrip.Proofs.TypeScript.Refusals
import Typestrip.Proofs.Grammar.Courses
import Typestrip.Proofs.Regex.Locality
import Typestrip.Proofs.TypeScript.Types
import Typestrip.Proofs.Grammar.Endings
import Typestrip.Proofs.Grammar.Forms
import Typestrip.Proofs.Grammar.Values
import Typestrip.Proofs.Grammar.Versions
import Typestrip.Proofs.Text.Blanks
import Typestrip.Proofs.TypeScript.Annotations
import Typestrip.Proofs.TypeScript.Bodies
import Typestrip.Proofs.TypeScript.Erasure
import Typestrip.Proofs.TypeScript.Expressions
import Typestrip.Proofs.TypeScript.Literals
import Typestrip.Proofs.Grammar.Registration
import Typestrip.Proofs.Json.Meaning
import Typestrip.Proofs.Rpc.Normalization
import Typestrip.Proofs.Grammar.Extents
import Typestrip.Proofs.Grammar.Furthest
import Typestrip.Proofs.Grammar.Omissions
import Typestrip.Proofs.TypeScript.Declarators
import Typestrip.Proofs.TypeScript.Calls
import Typestrip.Proofs.TypeScript.Dangling
import Typestrip.Proofs.Grammar.Shifts
import Typestrip.Proofs.Grammar.Lossless
import Typestrip.Proofs.Grammar.Anchoring
import Typestrip.Proofs.CommandLine.Emission
import Typestrip.Proofs.Grammar.Tandem
import Typestrip.Proofs.TypeScript.Remarks
import Typestrip.Proofs.Rpc.Observations
import Typestrip.Proofs.Json.Transport
import Typestrip.Proofs.Source.Positions
import Typestrip.Proofs.Rpc.Rotation
import Typestrip.Proofs.Grammar.Acceptance
import Typestrip.Proofs.Json.Kinds
