import ApiStencil.Main
import ApiStencil.Proofs.Template.Lines
import ApiStencil.Proofs.Template.Mark
import ApiStencil.Proofs.Template.Cut
import ApiStencil.Proofs.Template.Nesting
import ApiStencil.Proofs.Template.Alone
import ApiStencil.Proofs.Template.Span
import ApiStencil.Proofs.Placeholder.Substitute
import ApiStencil.Proofs.Template.Shift
import ApiStencil.Proofs.Template.EndsLine
import ApiStencil.Proofs.Template.Concatenation
import ApiStencil.Proofs.OrderedMap
import ApiStencil.Proofs.Template.Trace
import ApiStencil.Proofs.Template.Guard
import ApiStencil.Proofs.Template.Enclosed
import ApiStencil.Proofs.Template.Filter
import ApiStencil.Proofs.Template.Visit
import ApiStencil.Proofs.Template.Chain
import ApiStencil.Proofs.Condition.Composition
import ApiStencil.Proofs.Condition.Negation
import ApiStencil.Proofs.Template.Complement
import ApiStencil.Proofs.Registry.Pruned
import ApiStencil.Proofs.Registry.Untagged
import ApiStencil.Proofs.Registry.Resolved
import ApiStencil.Proofs.Placeholder.Pieces
import ApiStencil.Proofs.Template.Vocabulary
import ApiStencil.Proofs.Template.Scoped
import ApiStencil.Proofs.Condition.Grammar
import ApiStencil.Proofs.Condition.Reading
import ApiStencil.Proofs.Condition.Filling
import ApiStencil.Proofs.Registry.Unique
import ApiStencil.Proofs.Registry.Owner
import ApiStencil.Proofs.Registry.Options
import ApiStencil.Proofs.Registry.Redeclared
import ApiStencil.Proofs.FileTree.View
import ApiStencil.Proofs.Output.Write
import ApiStencil.Proofs.Cache
import ApiStencil.Proofs.Registry.Renamed
import ApiStencil.Proofs.Placeholder.Exact
import ApiStencil.Proofs.FileTree.Sibling
import ApiStencil.Proofs.Output.Sibling
import ApiStencil.Proofs.Generator.Again
import ApiStencil.Proofs.Generator.Alone
import ApiStencil.Proofs.Generator.CommandLine
import ApiStencil.Proofs.Condition.Laws
import ApiStencil.Proofs.Condition.Precedence
import ApiStencil.Proofs.Condition.Position
import ApiStencil.Proofs.Template.Reach
import ApiStencil.Proofs.Template.WholeLines
import ApiStencil.Proofs.Template.Placed
import ApiStencil.Proofs.Template.Located
import ApiStencil.Proofs.Registry.Dispatch
import ApiStencil.Proofs.Registry.StructureType
import ApiStencil.Proofs.Registry.LengthGiver
import ApiStencil.Proofs.Registry.SystemType
import ApiStencil.Proofs.Declaration.Levels
import ApiStencil.Proofs.Declaration.Split
import ApiStencil.Proofs.Declaration.Comment
import ApiStencil.Proofs.Registry.Recorded
import ApiStencil.Proofs.Declaration.Latexmath
import ApiStencil.Proofs.Output.Mismatch
import ApiStencil.Proofs.Registry.FirstFailure
import ApiStencil.Proofs.Alias.Cycle
import ApiStencil.Proofs.Template.Captured
import ApiStencil.Proofs.Declaration.Lengths
import ApiStencil.Proofs.Registry.Number
