import WeakForm.Breach
import WeakForm.Decimal.Reading
import WeakForm.Decimal.Shortest
import WeakForm.Decimal.Style
import WeakForm.Digest
import WeakForm.Error
import WeakForm.Error.Message
import WeakForm.Expr.Balance
import WeakForm.Expr.Basic
import WeakForm.Expr.Build
import WeakForm.Expr.ListItems
import WeakForm.Expr.Normalization
import WeakForm.Expr.Replacement
import WeakForm.Expr.Size
import WeakForm.Expr.Substitution
import WeakForm.Expr.Text
import WeakForm.Factorization
import WeakForm.Graph.Basic
import WeakForm.Graph.Elimination
import WeakForm.Graph.Leaves
import WeakForm.Graph.Partition
import WeakForm.Graph.Registers
import WeakForm.Graph.Scalarization
import WeakForm.Index.Basic
import WeakForm.Index.Layout
import WeakForm.Integral.Block
import WeakForm.Integral.Measure
import WeakForm.Integral.Plan
import WeakForm.Literal
import WeakForm.Machine
import WeakForm.Memo
import WeakForm.Mesh
import WeakForm.ModifiedTerminal
import WeakForm.Monomial.Basic
import WeakForm.Monomial.Extraction
import WeakForm.Monomial.Factor
import WeakForm.Monomial.Text
import WeakForm.Operator
import WeakForm.Parameters
import WeakForm.Proofs.Admission
import WeakForm.Proofs.Annotation
import WeakForm.Proofs.ArgumentOrder
import WeakForm.Proofs.ArgumentVector
import WeakForm.Proofs.Attributes
import WeakForm.Proofs.Balancing
import WeakForm.Proofs.Blocks
import WeakForm.Proofs.BoundNames
import WeakForm.Proofs.ByteOrder
import WeakForm.Proofs.Canonical
import WeakForm.Proofs.CanonicalNames
import WeakForm.Proofs.Chains
import WeakForm.Proofs.Classification
import WeakForm.Proofs.ComponentFolding
import WeakForm.Proofs.ComponentPlaces
import WeakForm.Proofs.ComponentRenaming
import WeakForm.Proofs.Components
import WeakForm.Proofs.Compression
import WeakForm.Proofs.Construction
import WeakForm.Proofs.Consumers
import WeakForm.Proofs.Deduplication
import WeakForm.Proofs.Descriptors
import WeakForm.Proofs.Differential
import WeakForm.Proofs.Distributivity
import WeakForm.Proofs.ElementNumbers
import WeakForm.Proofs.ElementOrdinals
import WeakForm.Proofs.EmptyAxes
import WeakForm.Proofs.Extraction
import WeakForm.Proofs.FactorArithmetic
import WeakForm.Proofs.FactorComponents
import WeakForm.Proofs.FactorDegrees
import WeakForm.Proofs.FactorGraph
import WeakForm.Proofs.FactorKeys
import WeakForm.Proofs.Factorization
import WeakForm.Proofs.Filing
import WeakForm.Proofs.FirstMatch
import WeakForm.Proofs.FixedComponents
import WeakForm.Proofs.FixedPoints
import WeakForm.Proofs.Folding
import WeakForm.Proofs.GraphTargets
import WeakForm.Proofs.Hoisting
import WeakForm.Proofs.Homogeneity
import WeakForm.Proofs.ImplicitSums
import WeakForm.Proofs.IndexSets
import WeakForm.Proofs.Insertion
import WeakForm.Proofs.Integrands
import WeakForm.Proofs.KeptTables
import WeakForm.Proofs.Layout
import WeakForm.Proofs.LeafAnalysis
import WeakForm.Proofs.ListItems
import WeakForm.Proofs.MapSum
import WeakForm.Proofs.Meaning
import WeakForm.Proofs.MergedIndices
import WeakForm.Proofs.MergedTables
import WeakForm.Proofs.ModifierOrder
import WeakForm.Proofs.MonomialEquivalence
import WeakForm.Proofs.MonomialIndexing
import WeakForm.Proofs.MonomialSums
import WeakForm.Proofs.Monomials
import WeakForm.Proofs.NamedSources
import WeakForm.Proofs.NormalForm
import WeakForm.Proofs.NumberedElements
import WeakForm.Proofs.Outcome
import WeakForm.Proofs.Partition
import WeakForm.Proofs.PassErrors
import WeakForm.Proofs.PassRuns
import WeakForm.Proofs.Peeling
import WeakForm.Proofs.Plans
import WeakForm.Proofs.PointReads
import WeakForm.Proofs.Polynomials
import WeakForm.Proofs.Preparation
import WeakForm.Proofs.Rational
import WeakForm.Proofs.RawValues
import WeakForm.Proofs.Reachability
import WeakForm.Proofs.Rebuilding
import WeakForm.Proofs.Reduction
import WeakForm.Proofs.References
import WeakForm.Proofs.Registers
import WeakForm.Proofs.Renamings
import WeakForm.Proofs.Reordering
import WeakForm.Proofs.Representation
import WeakForm.Proofs.Rewriting
import WeakForm.Proofs.Scalarization
import WeakForm.Proofs.SelectedItems
import WeakForm.Proofs.Semantics
import WeakForm.Proofs.Separation
import WeakForm.Proofs.Shadowing
import WeakForm.Proofs.Stripping
import WeakForm.Proofs.TableFits
import WeakForm.Proofs.TableNames
import WeakForm.Proofs.TableReads
import WeakForm.Proofs.TerminalSources
import WeakForm.Proofs.Termination
import WeakForm.Proofs.Typing
import WeakForm.Proofs.Visits
import WeakForm.Proofs.WellFactored
import WeakForm.Proofs.ZeroElimination
import WeakForm.Scalar
import WeakForm.Signature
import WeakForm.Table.Assembly
import WeakForm.Table.Basic
import WeakForm.Table.Basis
import WeakForm.Table.Classification
import WeakForm.Table.Deduplication
import WeakForm.Table.Naming
import WeakForm.Table.Numbering
import WeakForm.Table.Reference
import WeakForm.Terminal
import WeakForm.Text.Blank
import WeakForm.Text.Combining
import WeakForm.Text.Quoted
import WeakForm.Text.Ranges
import WeakForm.Text.Unprintable
import WeakForm.Tolerance
