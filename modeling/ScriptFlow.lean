import ScriptFlow.Main
import ScriptFlow.Proofs.Code.Linked
import ScriptFlow.Proofs.Flow.Leaders
import ScriptFlow.Proofs.Flow.Walks
import ScriptFlow.Proofs.Flow.Cutting
import ScriptFlow.Proofs.Flow.Partition
import ScriptFlow.Proofs.Flow.Edges
import ScriptFlow.Proofs.Flow.Execution
import ScriptFlow.Proofs.Script.Loading
import ScriptFlow.Proofs.Graph.Marking
import ScriptFlow.Proofs.Flow.Runs
import ScriptFlow.Proofs.Instruction.Wire
import ScriptFlow.Proofs.Instruction.Decode
import ScriptFlow.Proofs.Code.Linkable
import ScriptFlow.Proofs.Graph.Rounds
import ScriptFlow.Proofs.Script.Totality
import ScriptFlow.Proofs.Flow.Confluence
import ScriptFlow.Proofs.Stack.Depth
import ScriptFlow.Proofs.Stack.Steps
import ScriptFlow.Proofs.Stack.Consistency
import ScriptFlow.Proofs.Script.Laid
import ScriptFlow.Proofs.Script.Analyzed
import ScriptFlow.Proofs.Flow.Owners
import ScriptFlow.Proofs.Stack.Outcome
import ScriptFlow.Proofs.Stack.Points
import ScriptFlow.Proofs.Stack.Failures
import ScriptFlow.Proofs.Stack.Termination
import ScriptFlow.Proofs.Stack.Once
import ScriptFlow.Proofs.Script.Outcomes
import ScriptFlow.Proofs.Stack.Deltas
import ScriptFlow.Proofs.Script.Deltas
import ScriptFlow.Proofs.Stack.Saves
import ScriptFlow.Proofs.Script.Bases
import ScriptFlow.Proofs.Flow.Stages
import ScriptFlow.Proofs.Order
import ScriptFlow.Proofs.Flow.Ownership
import ScriptFlow.Proofs.Script.Ownership
import ScriptFlow.Proofs.Text.Hex
import ScriptFlow.Proofs.Listing.Lines
import ScriptFlow.Proofs.Listing.Sections
import ScriptFlow.Proofs.Listing.Breaks
import ScriptFlow.Proofs.Script.Listed
import ScriptFlow.Proofs.Graph.Mirror
import ScriptFlow.Proofs.Flow.Contents
import ScriptFlow.Proofs.Flow.Growth
import ScriptFlow.Proofs.Stack.Writes
import ScriptFlow.Proofs.Script.Writes
import ScriptFlow.Proofs.Graph.Settling
import ScriptFlow.Proofs.Script.Outlets
import ScriptFlow.Proofs.Stack.Trades
import ScriptFlow.Proofs.Stack.Space
import ScriptFlow.Proofs.Stack.Variables
import ScriptFlow.Proofs.Script.Variables
import ScriptFlow.Proofs.Flow.Neighbours
import ScriptFlow.Proofs.Stack.Lookups
import ScriptFlow.Proofs.Script.Lookups
import ScriptFlow.Proofs.Subroutine.Roles
import ScriptFlow.Proofs.Subroutine.Casting
import ScriptFlow.Proofs.Code.Tags
import ScriptFlow.Proofs.Script.Roles
import ScriptFlow.Proofs.Graph.Duality
import ScriptFlow.Proofs.Graph.LinearPath
import ScriptFlow.Proofs.Graph.Search
import ScriptFlow.Proofs.Graph.Unreachable
import ScriptFlow.Proofs.Code.Linking
import ScriptFlow.Proofs.Code.History
import ScriptFlow.Proofs.Instruction.Locality
import ScriptFlow.Proofs.Script.Tail
import ScriptFlow.Proofs.Engine.Entries
import ScriptFlow.Proofs.Engine.Table
