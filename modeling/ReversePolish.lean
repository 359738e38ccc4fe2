import ReversePolish.Config.Json
import ReversePolish.Conversion.Visit
import ReversePolish.Expr.Arity
import ReversePolish.Generator
import ReversePolish.Random.ChaCha
import ReversePolish.Random.Script
import ReversePolish.Proofs.Config.Forms
import ReversePolish.Proofs.Config.Members
import ReversePolish.Proofs.Conversion.Conservation
import ReversePolish.Proofs.Conversion.Output
import ReversePolish.Proofs.Conversion.Readings
import ReversePolish.Proofs.Conversion.Stack
import ReversePolish.Proofs.Conversion.Visits
import ReversePolish.Proofs.Expr.Rpn
import ReversePolish.Proofs.Expr.Unambiguous
import ReversePolish.Proofs.Expr.UnknownNames
import ReversePolish.Proofs.Generator.Full
import ReversePolish.Proofs.Generator.Kinds
import ReversePolish.Proofs.Generator.Numbers
import ReversePolish.Proofs.Generator.Requests
import ReversePolish.Proofs.Generator.Trees
import ReversePolish.Proofs.Json.Reading
import ReversePolish.Proofs.Token.Exhaustion
import ReversePolish.Proofs.Token.Lookbehind
import ReversePolish.Proofs.Token.Split
