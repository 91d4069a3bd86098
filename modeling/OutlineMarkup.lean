import OutlineMarkup.Text
import OutlineMarkup.Text.Numeral
import OutlineMarkup.Text.Quoted
import OutlineMarkup.Fault
import OutlineMarkup.Table
import OutlineMarkup.Decimal.Shortest
import OutlineMarkup.Decimal.Layout
import OutlineMarkup.Expression.Value
import OutlineMarkup.Expression.Format
import OutlineMarkup.Expression.Arithmetic
import OutlineMarkup.Expression.TextMethod
import OutlineMarkup.Expression.Builtin
import OutlineMarkup.Expression.Token
import OutlineMarkup.Expression.Reader
import OutlineMarkup.Expression
import OutlineMarkup.Pattern
import OutlineMarkup.Pattern.Reader
import OutlineMarkup.Pattern.Replacement
import OutlineMarkup.Indentation
import OutlineMarkup.Grammar
import OutlineMarkup.Grammar.Shipped
import OutlineMarkup.Colour.Names
import OutlineMarkup.Library.Modules
import OutlineMarkup.Colour
import OutlineMarkup.Shorthand
import OutlineMarkup.ArrayIndex
import OutlineMarkup.Attributes
import OutlineMarkup.Call
import OutlineMarkup.Reference
import OutlineMarkup.Assignment
import OutlineMarkup.Shell
import OutlineMarkup.Method
import OutlineMarkup.Engine
import OutlineMarkup.Action
import OutlineMarkup.Library
import OutlineMarkup.Session
import OutlineMarkup.Session.Engines
import OutlineMarkup.Session.Verbatim
import OutlineMarkup.Session.Methods
import OutlineMarkup.Session.Source
import OutlineMarkup.Session.Line
import OutlineMarkup.Document
import OutlineMarkup.CommandLine
import OutlineMarkup.Main
import OutlineMarkup.Proofs.Acceptance
import OutlineMarkup.Proofs.Closing
import OutlineMarkup.Proofs.Drift
import OutlineMarkup.Proofs.Inlining
import OutlineMarkup.Proofs.Rendering
import OutlineMarkup.Proofs.Unrolling
import OutlineMarkup.Proofs.Transparency
import OutlineMarkup.Proofs.MethodLoops
import OutlineMarkup.Proofs.Repetitions
import OutlineMarkup.Proofs.VerbatimBlocks
import OutlineMarkup.Proofs.Imports
import OutlineMarkup.Proofs.Forwarding
import OutlineMarkup.Proofs.QuotedText
import OutlineMarkup.Proofs.Comments
import OutlineMarkup.Proofs.BlockCalls
import OutlineMarkup.Proofs.OpenBranches
import OutlineMarkup.Proofs.Shadowing
import OutlineMarkup.Proofs.AttributeRows
import OutlineMarkup.Proofs.Reindenting
import OutlineMarkup.Proofs.Formulas
import OutlineMarkup.Proofs.Evaluation
import OutlineMarkup.Proofs.Updates
import OutlineMarkup.Proofs.Colours
import OutlineMarkup.Proofs.Vacancy
import OutlineMarkup.Proofs.UpdateLoops
import OutlineMarkup.Proofs.IntegerLoops
import OutlineMarkup.Proofs.CompoundAssignments
import OutlineMarkup.Proofs.Inclusion
import OutlineMarkup.Proofs.Portions
import OutlineMarkup.Proofs.RootPaths
import OutlineMarkup.Proofs.Substitution
import OutlineMarkup.Proofs.SubstitutionOrder
import OutlineMarkup.Proofs.AttributeLists
import OutlineMarkup.Proofs.Suites
import OutlineMarkup.Proofs.PrintedDepths
import OutlineMarkup.Proofs.LostLevels
import OutlineMarkup.Proofs.Apostrophes
import OutlineMarkup.Proofs.Shorthands
import OutlineMarkup.Proofs.IndexLoops
import OutlineMarkup.Proofs.NestedArrays
import OutlineMarkup.Proofs.GrammarLines
import OutlineMarkup.Proofs.Inheritance
import OutlineMarkup.Proofs.GrammarLayout
import OutlineMarkup.Proofs.ContinuedLines
import OutlineMarkup.Proofs.LearntUnits
import OutlineMarkup.Proofs.TargetChains
import OutlineMarkup.Proofs.ColourArithmetic
