import TreeScript.Main
import TreeScript.Proofs.Lowering.Standing
import TreeScript.Proofs.Machine.Depth
import TreeScript.Proofs.Session.Growth
import TreeScript.Proofs.Session.IntegerLiterals
import TreeScript.Proofs.Session.Locality
import TreeScript.Proofs.Session.Pieces
import TreeScript.Proofs.Session.QuotedTexts
import TreeScript.Proofs.Session.Update
import TreeScript.Proofs.Token.NewlineBefore
import TreeScript.Proofs.Tree.Prefix
import TreeScript.Proofs.Lowering.StatementCount
import TreeScript.Proofs.Value.IntegerPower
import TreeScript.Proofs.Heap.Rendering
import TreeScript.Proofs.Lowering.Excerpts
import TreeScript.Proofs.Operation.Outlines
import TreeScript.Proofs.Value.Equality
import TreeScript.Proofs.Tree.Halting
