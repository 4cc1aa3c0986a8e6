import Stencil.Element.Analysis
import Stencil.Element.Construct
import Stencil.Proofs.BarePath
import Stencil.Proofs.Binding
import Stencil.Proofs.Cache.Balance
import Stencil.Proofs.Cache.Eviction
import Stencil.Proofs.Cache.FailedParses
import Stencil.Proofs.Cache.Lifecycle
import Stencil.Proofs.Cache.Retention
import Stencil.Proofs.Cache.Sessions
import Stencil.Proofs.Concatenation
import Stencil.Proofs.Escaping
import Stencil.Proofs.Excerpt
import Stencil.Proofs.Expectation
import Stencil.Proofs.Fragments
import Stencil.Proofs.IndexerBlanks
import Stencil.Proofs.Nesting
import Stencil.Proofs.NormalForm
import Stencil.Proofs.Occurrences
import Stencil.Proofs.PathText
import Stencil.Proofs.Placement
import Stencil.Proofs.Positivity
import Stencil.Proofs.Rendering
import Stencil.Proofs.TakenBlanks
import Stencil.Proofs.Wrapping
import Stencil.Settings.Argument
import Stencil.Template.Access
