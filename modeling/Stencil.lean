import Stencil.Main
import Stencil.Engine.Operation
import Stencil.Proofs.Render.Ends
import Stencil.Proofs.Render.Moved
import Stencil.Proofs.Render.Composition
import Stencil.Proofs.Statement.Grammar
import Stencil.Proofs.Render.Substitution
import Stencil.Proofs.Render.Widening
import Stencil.Proofs.Expr.Chain
import Stencil.Proofs.Expr.Height
import Stencil.Proofs.Expr.Spelling
import Stencil.Proofs.Expr.Tower
import Stencil.Proofs.Expr.Depth
import Stencil.Proofs.Expr.Grammar
import Stencil.Proofs.Expr.Completeness
import Stencil.Proofs.Expr.Printed
import Stencil.Proofs.Render.Finality
import Stencil.Proofs.Render.Loop
import Stencil.Proofs.Render.Markers
import Stencil.Proofs.Render.Isolation
import Stencil.Proofs.Render.Termination
import Stencil.Proofs.Render.Cursor
import Stencil.Proofs.Render.Surroundings
import Stencil.Proofs.Render.Declarations
import Stencil.Proofs.Engine.History
import Stencil.Proofs.Command.Check
import Stencil.Proofs.Render.Failure
import Stencil.Proofs.Expr.Quotation
import Stencil.Proofs.Expr.Spacing
import Stencil.Proofs.Expr.Lookahead
import Stencil.Proofs.Expr.Impossible
import Stencil.Proofs.Expr.Access
import Stencil.Proofs.Expr.Names
import Stencil.Proofs.Number.Exact
import Stencil.Proofs.Render.Elements
import Stencil.Proofs.Command.Agreement
import Stencil.Proofs.Project.LoadScope
import Stencil.Proofs.Statement.RegionCount
import Stencil.Proofs.Value.Equality
import Stencil.Proofs.Value.Documents
import Stencil.Proofs.Command.Relocation
import Stencil.Proofs.Expr.Siblings
