import StackScript.Main
import StackScript.Proofs.Command.Building
import StackScript.Proofs.Compile.Histories
import StackScript.Proofs.Compile.Names
import StackScript.Proofs.Evaluation.Correctness
import StackScript.Proofs.Image.Running
import StackScript.Proofs.Image.Truncation
import StackScript.Proofs.Image.Varints
import StackScript.Proofs.Link.Again
import StackScript.Proofs.Link.Arity
import StackScript.Proofs.Link.Meaning
import StackScript.Proofs.Link.Repeats
import StackScript.Proofs.Machine.Arrays
import StackScript.Proofs.Machine.Random
import StackScript.Proofs.Safety.Counting
import StackScript.Proofs.Safety.Dispatch
import StackScript.Proofs.Safety.Literals
import StackScript.Proofs.Safety.Variables
import StackScript.Proofs.Tree.RoundTrip
import StackScript.Proofs.Value.Searching
