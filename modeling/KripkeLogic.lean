import KripkeLogic.Session
import KripkeLogic.Proofs.Value
import KripkeLogic.Proofs.Access.Closure
import KripkeLogic.Proofs.Model.Consistency
import KripkeLogic.Proofs.Model.Loops
import KripkeLogic.Proofs.Evaluation.Forcing
import KripkeLogic.Proofs.Session
import KripkeLogic.Proofs.Formula.Tokens
import KripkeLogic.Proofs.Formula.Grammar
import KripkeLogic.Proofs.Formula.Parsing
import KripkeLogic.Proofs.Evaluation.Persistence
import KripkeLogic.Proofs.Model.Edits
import KripkeLogic.Proofs.Formula.Representations
import KripkeLogic.Proofs.Record
import KripkeLogic.Proofs.Evaluation.Reordering
import KripkeLogic.Proofs.Model.Shared
import KripkeLogic.Proofs.Formula.Nesting
import KripkeLogic.Proofs.Model.Imported
import KripkeLogic.Proofs.Model.Described
import KripkeLogic.Proofs.Evaluation.Renewal
import KripkeLogic.Proofs.Evaluation.Agreement
import KripkeLogic.Proofs.Evaluation.Extension
import KripkeLogic.Proofs.Node.Tree
import KripkeLogic.Proofs.Evaluation.Relevance
import KripkeLogic.Proofs.Node.Identity
import KripkeLogic.Proofs.Model.Insertion
import KripkeLogic.Proofs.Evaluation.Modality
import KripkeLogic.Proofs.Evaluation.Confluence
import KripkeLogic.Proofs.Evaluation.Discrete
import KripkeLogic.Proofs.Model.Removal
import KripkeLogic.Proofs.Formula.Blanks
import KripkeLogic.Proofs.Formula.Viable
import KripkeLogic.Proofs.Record.Pattern
import KripkeLogic.Proofs.Node.ObjectForm
import KripkeLogic.Proofs.Evaluation.Negation
import KripkeLogic.Proofs.Formula.Lexemes
import KripkeLogic.Proofs.Formula.Renderings
import KripkeLogic.Proofs.Formula.Substitution
import KripkeLogic.Proofs.Formula.Prefixes
import KripkeLogic.Proofs.Access.Modal
import KripkeLogic.Proofs.Evaluation.Composition
import KripkeLogic.Proofs.Evaluation.Monotonicity
import KripkeLogic.Proofs.Formula.Division
import KripkeLogic.Proofs.Model.Undo
import KripkeLogic.Proofs.Formula.Transcription
import KripkeLogic.Proofs.Node.Validation
import KripkeLogic.Proofs.Evaluation.Work
import KripkeLogic.Proofs.Access.Pairs
import KripkeLogic.Proofs.Access.Transitivity
import KripkeLogic.Proofs.Descent.Agreement
