import ScriptFlow.Proofs.Analyzer.Cache
import ScriptFlow.Proofs.BitSet
import ScriptFlow.Proofs.ClassTable.Precedence
import ScriptFlow.Proofs.Core.Constants
import ScriptFlow.Proofs.Core.Integers
import ScriptFlow.Proofs.Core.Raises
import ScriptFlow.Proofs.Digraph.Joins
import ScriptFlow.Proofs.Digraph.Postorder
import ScriptFlow.Proofs.Digraph.SearchOrder
import ScriptFlow.Proofs.Dispatch.Arguments
import ScriptFlow.Proofs.Dispatch.Lookup
import ScriptFlow.Proofs.Dispatch.Special
import ScriptFlow.Proofs.Findings.UnusedVariable
import ScriptFlow.Proofs.FlowGraph.Consistent
import ScriptFlow.Proofs.FlowGraph.Duplicate
import ScriptFlow.Proofs.FlowGraph.GuaranteedSuper
import ScriptFlow.Proofs.Lowering.Ensure
import ScriptFlow.Proofs.Lowering.NestedTargets
import ScriptFlow.Proofs.Propagation.Fixpoint
import ScriptFlow.Proofs.SingleAssignment.Reads
import ScriptFlow.Proofs.SingleAssignment.Strict
