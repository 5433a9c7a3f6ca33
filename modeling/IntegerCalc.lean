import IntegerCalc.Expression
import IntegerCalc.Main
import IntegerCalc.ReversePolish
import IntegerCalc.Session
import IntegerCalc.Token.Spelling
import IntegerCalc.Proofs.Execution
import IntegerCalc.Proofs.Translation
import IntegerCalc.Proofs.Infix
import IntegerCalc.Proofs.ReleasePoints
import IntegerCalc.Proofs.Conservation
import IntegerCalc.Proofs.Grammar
import IntegerCalc.Proofs.Groups
import IntegerCalc.Proofs.StackShape
import IntegerCalc.Proofs.Reading
import IntegerCalc.Proofs.Spelling
import IntegerCalc.Proofs.Completion
import IntegerCalc.Proofs.Chunks
import IntegerCalc.Proofs.Arguments
import IntegerCalc.Proofs.ScriptLines
import IntegerCalc.Proofs.Diagnostics
import IntegerCalc.Proofs.Congruence
import IntegerCalc.Proofs.Failures
import IntegerCalc.Proofs.PostOrder
import IntegerCalc.Proofs.Discards
import IntegerCalc.Proofs.Layout
import IntegerCalc.Proofs.Interruption
import IntegerCalc.Proofs.Decoding
import IntegerCalc.Proofs.Rearrangement
