import AmdUnwrap.Main
import AmdUnwrap.Proofs.CommandLine.Directory
import AmdUnwrap.Proofs.CommandLine.Arguments
import AmdUnwrap.Proofs.CommandLine.Run
import AmdUnwrap.Proofs.Syntax.Laid
import AmdUnwrap.Proofs.Syntax.Reading
import AmdUnwrap.Proofs.Syntax.Passage
import AmdUnwrap.Proofs.Syntax.Repetition
import AmdUnwrap.Proofs.Syntax.Grammar.Basic
import AmdUnwrap.Proofs.Syntax.Grammar.Pattern
import AmdUnwrap.Proofs.Syntax.Grammar.Function
import AmdUnwrap.Proofs.Syntax.Grammar.Class
import AmdUnwrap.Proofs.Syntax.Grammar.Literal
import AmdUnwrap.Proofs.Syntax.Grammar.Expression
import AmdUnwrap.Proofs.Syntax.Grammar.Module
import AmdUnwrap.Proofs.Syntax.Grammar.Statement
import AmdUnwrap.Proofs.Syntax.Name
import AmdUnwrap.Proofs.Syntax.Spelling
import AmdUnwrap.Proofs.Syntax.Nested
import AmdUnwrap.Proofs.Search
import AmdUnwrap.Proofs.Frame
import AmdUnwrap.Proofs.Text.Trim
import AmdUnwrap.Proofs.Text.Line
import AmdUnwrap.Proofs.Text.LineColumn
import AmdUnwrap.Proofs.Dependency
import AmdUnwrap.Proofs.Module
import AmdUnwrap.Proofs.Body
import AmdUnwrap.Proofs.Replacement
import AmdUnwrap.Proofs.Seam
import AmdUnwrap.Proofs.Syntax.Shape
import AmdUnwrap.Proofs.Syntax.Shape.Expression
import AmdUnwrap.Proofs.Syntax.Shape.Statement
import AmdUnwrap.Proofs.Lineage
import AmdUnwrap.Proofs.Placement
import AmdUnwrap.Proofs.Stability
import AmdUnwrap.Proofs.Cut
import AmdUnwrap.Proofs.Emission
import AmdUnwrap.Proofs.Coverage
import AmdUnwrap.Proofs.Return
import AmdUnwrap.Proofs.Argument
import AmdUnwrap.Proofs.Agreement
import AmdUnwrap.Proofs.Policy
import AmdUnwrap.Proofs.Walk
import AmdUnwrap.Proofs.Stacks
import AmdUnwrap.Proofs.Literal
import AmdUnwrap.Proofs.Declaration
import AmdUnwrap.Proofs.Printing
import AmdUnwrap.Proofs.LineEnding
import AmdUnwrap.Proofs.Checked.Slice
import AmdUnwrap.Proofs.Boundary
import AmdUnwrap.Proofs.Comment
import AmdUnwrap.Proofs.Checked.Line
import AmdUnwrap.Proofs.Line
import AmdUnwrap.Proofs.Checked.Print
import AmdUnwrap.Proofs.Checked.Module
import AmdUnwrap.Proofs.Checked.Walk
import AmdUnwrap.Proofs.Nesting
import AmdUnwrap.Proofs.Indentation
import AmdUnwrap.Proofs.Report.Json
import AmdUnwrap.Proofs.CommandLine.Report
import AmdUnwrap.Proofs.LineStart
import AmdUnwrap.Proofs.Chain
