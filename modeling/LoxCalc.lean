import LoxCalc.Main
import LoxCalc.Session
import LoxCalc.Proofs.Nesting.Rereading
import LoxCalc.Proofs.Nesting.Walks
import LoxCalc.Proofs.Parser.Diagnosis
import LoxCalc.Proofs.Script.Blocking
import LoxCalc.Proofs.Script.Interpretation
import LoxCalc.Proofs.CommandLine.Runs
import LoxCalc.Proofs.Script.Repetition
import LoxCalc.Proofs.Script.EqualTrees
import LoxCalc.Proofs.Script.Interchange
import LoxCalc.Proofs.Number.Literals
import LoxCalc.Proofs.Token.Respacing
import LoxCalc.Proofs.Token.Bytes
