import Typecase.Main
import Typecase.Source.Printer
import Typecase.Source.Walk
import Typecase.Types.Workbench
import Typecase.Proofs.Match.FirstMatch
import Typecase.Proofs.Types.UnifySound
import Typecase.Proofs.Dependency.Components
import Typecase.Proofs.Graph.Components
import Typecase.Proofs.Dependency.Analysis
import Typecase.Proofs.Types.Formed
import Typecase.Proofs.Types.UnifyComplete
import Typecase.Proofs.Elaborate.Preludes
import Typecase.Proofs.Elaborate.Generalization
import Typecase.Proofs.Types.Transactions
import Typecase.Proofs.Types.SingleAssignment
import Typecase.Proofs.Environment
import Typecase.Proofs.Source.Nested
import Typecase.Proofs.Elaborate.Events
import Typecase.Proofs.Elaborate.Registry
import Typecase.Proofs.Elaborate.Declared
import Typecase.Proofs.Elaborate.Generativity
import Typecase.Proofs.Elaborate.Steady
import Typecase.Proofs.Elaborate.ExceptionTags
import Typecase.Proofs.Types.LevelInvariant
import Typecase.Proofs.Elaborate.Stepwise
import Typecase.Proofs.Elaborate.Parallel
import Typecase.Proofs.Elaborate.Splitting
import Typecase.Proofs.Elaborate.Settled
import Typecase.Proofs.Elaborate.Exports
import Typecase.Proofs.Elaborate.RecursiveForms
import Typecase.Proofs.Match.Bindings
import Typecase.Proofs.Match.Columns
import Typecase.Proofs.Match.Descriptions
import Typecase.Proofs.Match.Failures
import Typecase.Proofs.Match.Missing
import Typecase.Proofs.Types.Speculation
import Typecase.Proofs.Match.Irrefutable
import Typecase.Proofs.Match.WellFormed
import Typecase.Proofs.Types.Termination
import Typecase.Proofs.Types.Copying
import Typecase.Proofs.Types.Generalization
import Typecase.Proofs.Types.Instances
import Typecase.Proofs.Types.RowGrowth
import Typecase.Proofs.Elaborate.DerivedForms
import Typecase.Proofs.Elaborate.ValueRestriction
import Typecase.Proofs.InsertionOrder
import Typecase.Proofs.Elaborate.ErrorLimit
import Typecase.Proofs.Elaborate.Replacements
import Typecase.Proofs.Match.Integers
import Typecase.Proofs.Elaborate.Judgement
import Typecase.Proofs.Elaborate.Forms
import Typecase.Proofs.Elaborate.Traversal
import Typecase.Proofs.Types.Quiet
import Typecase.Proofs.Dump
import Typecase.Proofs.Types.Reading
