import CodeLayout.Main
import CodeLayout.Tree.Outline
import CodeLayout.Proofs.Text.Slices
import CodeLayout.Proofs.Token.Lexes
import CodeLayout.Proofs.Token.Tiling
import CodeLayout.Proofs.Token.Sections
import CodeLayout.Proofs.Token.Resume
import CodeLayout.Proofs.Token.Edges
import CodeLayout.Proofs.Tree.Leaves
import CodeLayout.Proofs.Stream.Between
import CodeLayout.Proofs.Grammar.Added
import CodeLayout.Proofs.Grammar.Growth
import CodeLayout.Proofs.Grammar.Fronts
import CodeLayout.Proofs.Grammar.Operands
import CodeLayout.Proofs.Grammar.Shape
import CodeLayout.Proofs.Grammar.Positions
import CodeLayout.Proofs.Grammar.Progress
import CodeLayout.Proofs.Grammar.Termination
import CodeLayout.Proofs.Grammar.Lossless
import CodeLayout.Proofs.Grammar.Outline
import CodeLayout.Proofs.Grammar.Correspondence
import CodeLayout.Proofs.Grammar.Recovery
import CodeLayout.Proofs.Grammar.Clean
import CodeLayout.Proofs.Grammar.Forms
import CodeLayout.Proofs.Grammar.Whole
import CodeLayout.Proofs.Annotate.Run
import CodeLayout.Proofs.Annotate.Cover
import CodeLayout.Proofs.Annotate.Ready
import CodeLayout.Proofs.Annotate.Markup
import CodeLayout.Proofs.Annotate.Tame
import CodeLayout.Proofs.Annotate.Steps
import CodeLayout.Proofs.Annotate.Visit
import CodeLayout.Proofs.Annotate.Statement
import CodeLayout.Proofs.Annotate.Expression
import CodeLayout.Proofs.Annotate.Declaration
import CodeLayout.Proofs.Annotate.Program
import CodeLayout.Proofs.Annotate.Take
import CodeLayout.Proofs.Annotate.Complete
import CodeLayout.Proofs.Annotate.Path
import CodeLayout.Proofs.Annotate.Blocks
import CodeLayout.Proofs.Annotate.Layout
import CodeLayout.Proofs.Annotate.Groups
import CodeLayout.Proofs.Annotate.Balance
import CodeLayout.Proofs.Annotate.Signs
import CodeLayout.Proofs.Annotate.Phase
import CodeLayout.Proofs.Annotate.Lead
import CodeLayout.Proofs.Annotate.Members
import CodeLayout.Proofs.Edit.Apply
import CodeLayout.Proofs.Edit.Rewrite
import CodeLayout.Proofs.Edit.Copy
import CodeLayout.Proofs.Edit.Single
import CodeLayout.Proofs.Render.Relaid
import CodeLayout.Proofs.Render.Change
import CodeLayout.Proofs.Render.Columns
import CodeLayout.Proofs.Render.Operator
import CodeLayout.Proofs.Render.Restrict
import CodeLayout.Proofs.Render.Spaced
import CodeLayout.Proofs.Format.Content
import CodeLayout.Proofs.Format.Edits
import CodeLayout.Proofs.Format.Range
import CodeLayout.Proofs.Format.WholeWindow
import CodeLayout.Proofs.Format.Literals
import CodeLayout.Proofs.Format.Operators
import CodeLayout.Proofs.Format.Check
import CodeLayout.Proofs.Format.Problems
import CodeLayout.Proofs.Format.Gaps
import CodeLayout.Proofs.Format.Markup
import CodeLayout.Proofs.Indent.Scan
import CodeLayout.Proofs.Indent.Window
import CodeLayout.Proofs.Format.Trace
import CodeLayout.Proofs.Grammar.Precedence
import CodeLayout.Proofs.Grammar.Agreement
import CodeLayout.Proofs.Grammar.Alike
import CodeLayout.Proofs.Grammar.Productions
import CodeLayout.Proofs.Grammar.Attributes
import CodeLayout.Proofs.Grammar.Braces
import CodeLayout.Proofs.Grammar.Calls
import CodeLayout.Proofs.Format.BlankLines
import CodeLayout.Proofs.Format.Margin
import CodeLayout.Proofs.Tree.Builder
import CodeLayout.Proofs.Indent.Caret
import CodeLayout.Proofs.Indent.Label
import CodeLayout.Proofs.Indent.Pairs
import CodeLayout.Proofs.Render.Indents
