import Conic.Exchange.Run
import Conic.Program.File
import Conic.Program.Measure
import Conic.Program.StandardForm
import Conic.Program.Storing
import Conic.Sparse.Lookup
import Conic.Sparse.Scan
import Conic.Proofs.Dual.Transpose
import Conic.Proofs.Dual.WeakDuality
import Conic.Proofs.Dual.Twice
import Conic.Proofs.Dual.SolveCycle
import Conic.Proofs.Dual.Tables
import Conic.Proofs.Dual.Multipliers
import Conic.Proofs.Dual.Rearranging
import Conic.Proofs.Exchange.Acceptance
import Conic.Proofs.Exchange.Protocol
import Conic.Proofs.Exchange.InPlace
import Conic.Proofs.Exchange.Ways
import Conic.Proofs.Exchange.Recycling
import Conic.Proofs.Exchange.Pricing
import Conic.Proofs.Program.Construction
import Conic.Proofs.Program.Deciding
import Conic.Proofs.Program.Export
import Conic.Proofs.Program.File
import Conic.Proofs.Program.Measuring
import Conic.Proofs.Program.ReducedCost
import Conic.Proofs.Program.Storing
import Conic.Proofs.Sparse.Dense
import Conic.Proofs.Sparse.Gathering
import Conic.Proofs.Sparse.Relisting
import Conic.Proofs.Equality
import Conic.Proofs.Sparse.Pattern
import Conic.Proofs.Dual.Counting
import Conic.Proofs.Exchange.Summarizing
import Conic.Proofs.Program.Equality
import Conic.Proofs.Dual.Signs
import Conic.Proofs.PartialRat
import Conic.Proofs.Reporting
import Conic.Proofs.Dual.Divisions
import Conic.Proofs.Program.Undoing
import Conic.Proofs.Program.Listing
import Conic.Proofs.Program.Undefined
import Conic.Proofs.Exchange.Printing
import Conic.Proofs.Dual.Ordering
