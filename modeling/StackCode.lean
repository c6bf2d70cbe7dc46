import StackCode.Assembler
import StackCode.Bytes.Basic
import StackCode.CodeObject
import StackCode.Compile
import StackCode.Config
import StackCode.Decimal.Fixed
import StackCode.Decimal.Shortest
import StackCode.Decimal.Text
import StackCode.Double
import StackCode.Edit
import StackCode.Error
import StackCode.Image.Basic
import StackCode.Image.Reader
import StackCode.Image.Writer
import StackCode.Instruction
import StackCode.Listing
import StackCode.Lowering
import StackCode.Opcode
import StackCode.Program
import StackCode.Proofs.Abreast
import StackCode.Proofs.Acceptance
import StackCode.Proofs.Alignment
import StackCode.Proofs.Charts
import StackCode.Proofs.CleanupScope
import StackCode.Proofs.Climbs
import StackCode.Proofs.ClosureCapture
import StackCode.Proofs.CodeFiles
import StackCode.Proofs.Congruences
import StackCode.Proofs.Consistency
import StackCode.Proofs.ConstantSharing
import StackCode.Proofs.Contexts
import StackCode.Proofs.ControlFlow
import StackCode.Proofs.CopiedTrees
import StackCode.Proofs.Counterparts
import StackCode.Proofs.DebugInfo
import StackCode.Proofs.DebugNames
import StackCode.Proofs.Descriptors
import StackCode.Proofs.DraftOrder
import StackCode.Proofs.DraftPairs
import StackCode.Proofs.Drafts
import StackCode.Proofs.DupElision
import StackCode.Proofs.Emission
import StackCode.Proofs.Exits
import StackCode.Proofs.ExpressionCode
import StackCode.Proofs.Failures
import StackCode.Proofs.HandlerBalance
import StackCode.Proofs.Landing
import StackCode.Proofs.Lifetimes
import StackCode.Proofs.LineMarkers
import StackCode.Proofs.LineMarks
import StackCode.Proofs.Linked
import StackCode.Proofs.LoweredClimbs
import StackCode.Proofs.LoweredFrames
import StackCode.Proofs.LoweredHeights
import StackCode.Proofs.LoweredOrder
import StackCode.Proofs.LoweredPairs
import StackCode.Proofs.LoweredRegular
import StackCode.Proofs.LoweredSelfCalls
import StackCode.Proofs.Meanings
import StackCode.Proofs.NodePaths
import StackCode.Proofs.Orderly
import StackCode.Proofs.Origins
import StackCode.Proofs.Outcomes
import StackCode.Proofs.PairedContexts
import StackCode.Proofs.Paths
import StackCode.Proofs.Placeholders
import StackCode.Proofs.Plans
import StackCode.Proofs.Prolongation
import StackCode.Proofs.Readers
import StackCode.Proofs.Reconciliation
import StackCode.Proofs.RecordedHeights
import StackCode.Proofs.Regular
import StackCode.Proofs.Relocation
import StackCode.Proofs.Resaving
import StackCode.Proofs.ReturnedCalls
import StackCode.Proofs.Returns
import StackCode.Proofs.Runs
import StackCode.Proofs.ScriptPairs
import StackCode.Proofs.SelfCalls
import StackCode.Proofs.SideBySide
import StackCode.Proofs.SlotDiscipline
import StackCode.Proofs.SpareDups
import StackCode.Proofs.SpelledScopes
import StackCode.Proofs.StackHeight
import StackCode.Proofs.Stages
import StackCode.Proofs.StepOutcomes
import StackCode.Proofs.Tables
import StackCode.Proofs.TailPositions
import StackCode.Proofs.TailSites
import StackCode.Proofs.TailSwitch
import StackCode.Proofs.TailTargets
import StackCode.Proofs.Tracking
import StackCode.Proofs.TreeWalk
import StackCode.Proofs.Truncation
import StackCode.Proofs.Twins
import StackCode.Proofs.Units
import StackCode.Proofs.UnlinedScopes
import StackCode.Proofs.Untailing
import StackCode.Proofs.Validity
import StackCode.Proofs.Veils
import StackCode.Proofs.WireRoundTrip
import StackCode.Proofs.Wiring
import StackCode.Scope.Basic
import StackCode.Scope.Buffer
import StackCode.Scope.Labels
import StackCode.Scope.Outers
import StackCode.Scope.Pool
import StackCode.Scope.Recorder
import StackCode.Scope.Slots
import StackCode.Script
import StackCode.Statistics
import StackCode.TailCalls
import StackCode.Text.Columns
import StackCode.Text.Hidden
import StackCode.Text.Quoted
import StackCode.Value.Basic
import StackCode.Value.Text
import StackCode.Wire.Basic
import StackCode.Wire.CodeObject
import StackCode.Wire.Value
