import JavaMinus.Command.Run
import JavaMinus.Main
import JavaMinus.Proofs.Flat.Meaning
import JavaMinus.Proofs.Source.Meaning
import JavaMinus.Proofs.Lowering.Derivation
import JavaMinus.Proofs.Lowering.StmtDerivation
import JavaMinus.Proofs.Lowering.Names
import JavaMinus.Proofs.Flat.Run
import JavaMinus.Proofs.Lowering.Cells
import JavaMinus.Proofs.Lowering.ExprMeaning
import JavaMinus.Proofs.Lowering.StmtMeaning
import JavaMinus.Proofs.Flat.Assembled
import JavaMinus.Proofs.Flat.Execution
import JavaMinus.Proofs.Liveness.Fixpoint
import JavaMinus.Proofs.Slots.Disjoint
import JavaMinus.Proofs.Slots.Simulation
import JavaMinus.Proofs.Assembly.Derivation
import JavaMinus.Proofs.Assembly.Layout
import JavaMinus.Proofs.Assembly.Names
import JavaMinus.Proofs.Assembly.Simulation
import JavaMinus.Proofs.Assembly.Reading
import JavaMinus.Proofs.Assembly.MethodMeaning
import JavaMinus.Proofs.Lowering.ControlFlow
import JavaMinus.Proofs.Assembly.ControlFlow
import JavaMinus.Proofs.Assembly.Returning
import JavaMinus.Proofs.Assembly.MethodEnds
import JavaMinus.Proofs.Compilation
import JavaMinus.Proofs.Assembly.Outcomes
import JavaMinus.Proofs.Assembly.StackEffect
import JavaMinus.Proofs.Assembly.StackDepths
import JavaMinus.Proofs.Lowering.Shapes
import JavaMinus.Proofs.Lowering.Failures
import JavaMinus.Proofs.Lowering.Types
import JavaMinus.Proofs.Lowering.Sites
import JavaMinus.Proofs.Assembly.Sites
import JavaMinus.Proofs.Assembly.Construction
import JavaMinus.Proofs.Assembly.Linking
import JavaMinus.Proofs.InternalErrors
import JavaMinus.Proofs.Assembly.Labels
import JavaMinus.Proofs.Lowering.Operands
import JavaMinus.Proofs.Lowering.StaticCode
import JavaMinus.Proofs.Liveness.Paths
import JavaMinus.Proofs.Lowering.Assignment
import JavaMinus.Proofs.Assembly.Accesses
import JavaMinus.Proofs.Slots.Frame
import JavaMinus.Proofs.Assembly.SlotPaths
import JavaMinus.Proofs.Assembly.SlotSafety
import JavaMinus.Proofs.Flat.Renaming
import JavaMinus.Proofs.Lowering.Renaming
import JavaMinus.Proofs.Slots.Renaming
import JavaMinus.Proofs.Assembly.Renaming
import JavaMinus.Proofs.MethodOrder
import JavaMinus.Proofs.Json.Scanning
import JavaMinus.Proofs.Json.Text
import JavaMinus.Proofs.Source.RoundTrip
import JavaMinus.Proofs.Lowering.Freshness
import JavaMinus.Proofs.Slots.LiveTogether
import JavaMinus.Proofs.Flat.Numbering
import JavaMinus.Proofs.Liveness.Passes
import JavaMinus.Proofs.Slots.Limit
import JavaMinus.Proofs.Lowering.BareTrees
import JavaMinus.Proofs.Lowering.EntryLiveness
import JavaMinus.Proofs.Assembly.SlotNumbers
import JavaMinus.Proofs.Assembly.OperandKinds
import JavaMinus.Proofs.Assembly.Descriptors
import JavaMinus.Proofs.Lowering.ParameterSlots
import JavaMinus.Proofs.Lowering.Instructions
import JavaMinus.Proofs.Lowering.ThreeAddress
import JavaMinus.Proofs.Assembly.ReturnCounts
import JavaMinus.Proofs.Lowering.FreshResults
