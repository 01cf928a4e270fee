import StatBounds.Config.Document
import StatBounds.Script
import StatBounds.Proofs.Binary64.Integers
import StatBounds.Proofs.Binary64.Neighbours
import StatBounds.Proofs.Propagation.FixedPoint
import StatBounds.Proofs.Propagation.Repetition
import StatBounds.Proofs.Propagation.Soundness
import StatBounds.Proofs.Store.Atomicity
import StatBounds.Proofs.Store.Operations
import StatBounds.Proofs.Binary64.Margins
import StatBounds.Proofs.Expr.Meaning
import StatBounds.Proofs.Interval.Products
import StatBounds.Proofs.Propagation.Formulas
import StatBounds.Proofs.Encoding.FixedTables
import StatBounds.Proofs.Encoding.GlobalCounts
import StatBounds.Proofs.Encoding.Lockstep
import StatBounds.Proofs.Propagation.SettledConjunctions
import StatBounds.Proofs.Store.Shrinking
import StatBounds.Proofs.Encoding.AllOrNothing
import StatBounds.Proofs.Propagation.Supports
import StatBounds.Proofs.Encoding.Inverses
import StatBounds.Proofs.Encoding.Kinds
import StatBounds.Proofs.Encoding.Spreads
import StatBounds.Proofs.Encoding.StatisticBounds
import StatBounds.Proofs.Encoding.Statistics
import StatBounds.Proofs.Propagation.Expressions
import StatBounds.Proofs.Transport.Clipping
import StatBounds.Proofs.Domain.Membership
import StatBounds.Proofs.Propagation.Tests
import StatBounds.Proofs.Propagation.Wakings
import StatBounds.Proofs.BinCount.Stability
import StatBounds.Proofs.Propagation.BoundsConsistency
import StatBounds.Proofs.Propagation.Invocations
import StatBounds.Proofs.Expr.Sweep
import StatBounds.Proofs.Interval.Isotone
import StatBounds.Proofs.Encoding.Partitions
import StatBounds.Proofs.Interval.Emptiness
import StatBounds.Proofs.Binary64.Text
import StatBounds.Proofs.Expr.Reading
import StatBounds.Proofs.Transport.Optimality
import StatBounds.Proofs.Store.Values
