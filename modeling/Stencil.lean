import Stencil.Engine
import Stencil.Proofs.Find
import Stencil.Proofs.Scan
import Stencil.Proofs.Grammar
import Stencil.Proofs.Blocks
import Stencil.Proofs.Newlines
import Stencil.Proofs.Fragments
import Stencil.Proofs.OnePass
import Stencil.Proofs.Arithmetic
import Stencil.Proofs.Clauses
import Stencil.Proofs.Conditions
import Stencil.Proofs.Failures
import Stencil.Proofs.Trim
import Stencil.Proofs.Resolution
import Stencil.Proofs.Moved
import Stencil.Proofs.Cleanup
import Stencil.Proofs.Concatenation
import Stencil.Proofs.Printing
import Stencil.Proofs.Origins
import Stencil.Proofs.Markup
import Stencil.Proofs.Cache
import Stencil.Proofs.Outlines
import Stencil.Proofs.Unambiguous
import Stencil.Proofs.Typeset
import Stencil.Proofs.Mistakes
import Stencil.Proofs.Demands
import Stencil.Proofs.Callees
import Stencil.Proofs.Integers
import Stencil.Proofs.Partition
import Stencil.Proofs.Appending
import Stencil.Proofs.Views
import Stencil.Proofs.NormalForm
import Stencil.Proofs.Coherence
import Stencil.Proofs.Equality
import Stencil.Proofs.Exactness
import Stencil.Proofs.Tiling
import Stencil.Proofs.Decimals
import Stencil.Proofs.Paths
import Stencil.Proofs.Arguments
import Stencil.Proofs.Conversion
import Stencil.Proofs.Shortest
import Stencil.Proofs.IntegerKeys
import Stencil.Proofs.Frames
import Stencil.Proofs.Words
