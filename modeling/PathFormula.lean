import PathFormula.Main
import PathFormula.Session
import PathFormula.Proofs.Encoding
import PathFormula.Proofs.Shape
import PathFormula.Proofs.Boundary
import PathFormula.Proofs.Reads
import PathFormula.Proofs.InPlace
import PathFormula.Proofs.Drivers
import PathFormula.Proofs.Balance
import PathFormula.Proofs.Lossless
import PathFormula.Proofs.Stack
import PathFormula.Proofs.Conservation
import PathFormula.Proofs.Acceptance
import PathFormula.Proofs.Grammar
import PathFormula.Proofs.Escapes
import PathFormula.Proofs.Quotation
import PathFormula.Proofs.Items
import PathFormula.Proofs.Unescaping
import PathFormula.Proofs.Surrogates
import PathFormula.Proofs.Bodies
import PathFormula.Proofs.Agreement
import PathFormula.Proofs.Numerals
import PathFormula.Proofs.LongestNumber
import PathFormula.Proofs.Nesting
import PathFormula.Proofs.Contexts
import PathFormula.Proofs.Seams
import PathFormula.Proofs.Layout
import PathFormula.Proofs.Kinds
import PathFormula.Proofs.Blame
import PathFormula.Proofs.Malformed
import PathFormula.Proofs.Expression
import PathFormula.Proofs.RoundTrip
import PathFormula.Proofs.Precedence
import PathFormula.Proofs.Subformulas
import PathFormula.Proofs.Evaluation
import PathFormula.Proofs.BrokenReference
import PathFormula.Proofs.Unbalanced
import PathFormula.Proofs.SessionBounds
import PathFormula.Proofs.Lookup
import PathFormula.Proofs.PostfixLayout
import PathFormula.Proofs.Crossings
import PathFormula.Proofs.Excerpt
import PathFormula.Proofs.Slices
import PathFormula.Proofs.StackOrder
