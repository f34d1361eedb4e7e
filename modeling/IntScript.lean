import IntScript.Main
import IntScript.Render
import IntScript.Session
import IntScript.Proofs.Contents
import IntScript.Proofs.Precedence
import IntScript.Proofs.Relayout
import IntScript.Proofs.Eval.Faults
import IntScript.Proofs.Eval.Terminal
import IntScript.Proofs.Lineage
import IntScript.Proofs.Isolation
import IntScript.Proofs.Grammar.Takes
import IntScript.Proofs.Peg.Reports
import IntScript.Proofs.Prefix
import IntScript.Proofs.Behind
import IntScript.Proofs.Grammar.Awaits
import IntScript.Proofs.Grammar.Truthful
import IntScript.Proofs.Expected
import IntScript.Proofs.Literals
import IntScript.Proofs.Output
import IntScript.Proofs.Eval.Simulation
import IntScript.Proofs.Renaming
import IntScript.Proofs.CommandLine
import IntScript.Proofs.Concatenation
import IntScript.Proofs.Names
import IntScript.Proofs.Eval.Termination
import IntScript.Proofs.Eval.Loops
import IntScript.Proofs.Eval.Unrolling
import IntScript.Proofs.Eval.Changes
import IntScript.Proofs.Eval.Calls
import IntScript.Proofs.Eval.Steps
import IntScript.Proofs.Eval.Arithmetic
import IntScript.Proofs.Eval.Truth
import IntScript.Proofs.GreatestDivisor
import IntScript.Proofs.Eval.Matching
import IntScript.Proofs.Unmentioned
import IntScript.Proofs.Unused
import IntScript.Proofs.Messages
import IntScript.Proofs.Unfinished
import IntScript.Proofs.Location
import IntScript.Proofs.Shifted
import IntScript.Proofs.Fibonacci
import IntScript.Proofs.Indentation
import IntScript.Proofs.Recognition
