import Lox.Description
import Lox.Main
import Lox.Proofs.Grammar
import Lox.Proofs.Syntax.Likeness
import Lox.Proofs.Grammar.Acceptance
import Lox.Proofs.Grammar.ExpressionComplete
import Lox.Proofs.Grammar.Program
import Lox.Proofs.Agreement
import Lox.Proofs.Environments
import Lox.Proofs.Evaluation.Content
import Lox.Proofs.Evaluation.Heap
import Lox.Proofs.Evaluation.Hits
import Lox.Proofs.Evaluation.Undefined
import Lox.Proofs.Faults
import Lox.Proofs.Lexical
import Lox.Proofs.Lexical.Declaring
import Lox.Proofs.Lexical.Programs
import Lox.Proofs.Number.Display
import Lox.Proofs.Prefixes
import Lox.Proofs.Resolution.Addresses
import Lox.Proofs.Session.Arising
import Lox.Proofs.Session.CallLimit
import Lox.Proofs.Session.Construction
import Lox.Proofs.Session.Expressions
import Lox.Proofs.Session.ForLoops
import Lox.Proofs.Session.Inheritance
import Lox.Proofs.Session.Lines
import Lox.Proofs.Session.Names
import Lox.Proofs.Session.Pieces
import Lox.Proofs.Session.Properties
import Lox.Proofs.Session.Rejection
import Lox.Proofs.Session.Respelling
import Lox.Proofs.Session.Identities
import Lox.Proofs.Session.Returns
import Lox.Proofs.Session.ScopeChains
import Lox.Proofs.Session.Sinks
import Lox.Proofs.Session.Termination
import Lox.Proofs.Token.Segmentation
import Lox.Proofs.Token.Spacing
import Lox.Proofs.Evaluation.Equality
import Lox.Proofs.Resolution.Discipline
import Lox.Proofs.Grammar.Progress
import Lox.Proofs.Printing.Unique
