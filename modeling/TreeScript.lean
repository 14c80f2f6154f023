import TreeScript.Ast.Node
import TreeScript.Ast.Numbering
import TreeScript.Ast.Operator
import TreeScript.Ast.TypeKind
import TreeScript.Class
import TreeScript.Coroutine
import TreeScript.Error
import TreeScript.Eval.Access
import TreeScript.Eval.Calls
import TreeScript.Eval.Control
import TreeScript.Eval.Exec
import TreeScript.Eval.Hooks
import TreeScript.Eval.Node
import TreeScript.Eval.Operators
import TreeScript.Eval.Template
import TreeScript.Function.Catalog
import TreeScript.Function.Routine
import TreeScript.Heap.Basic
import TreeScript.Heap.Conversion
import TreeScript.Heap.Equality
import TreeScript.Heap.Identity
import TreeScript.Heap.Rendering
import TreeScript.Interner
import TreeScript.Number.Binary
import TreeScript.Number.Notation
import TreeScript.Number.Reader
import TreeScript.Number.Shortest
import TreeScript.Operation.Arithmetic
import TreeScript.Operation.Basic
import TreeScript.Operation.Promotion
import TreeScript.Proofs.Arity.Callees
import TreeScript.Proofs.Arity.Calls
import TreeScript.Proofs.Arity.Checked
import TreeScript.Proofs.Arity.Code
import TreeScript.Proofs.Arity.Lawful
import TreeScript.Proofs.Arity.State
import TreeScript.Proofs.Backtraces.Chronicle
import TreeScript.Proofs.Backtraces.Hosts
import TreeScript.Proofs.Backtraces.Lawful
import TreeScript.Proofs.Balance
import TreeScript.Proofs.Boundaries.Calls
import TreeScript.Proofs.Boundaries.Jumps
import TreeScript.Proofs.Boundaries.Throws
import TreeScript.Proofs.CallSites
import TreeScript.Proofs.Constructs
import TreeScript.Proofs.Coroutines.LifeCycle
import TreeScript.Proofs.Coroutines.Lives
import TreeScript.Proofs.Coroutines.Moments
import TreeScript.Proofs.Counting
import TreeScript.Proofs.Elements
import TreeScript.Proofs.Endings.Branching
import TreeScript.Proofs.Endings.Structures
import TreeScript.Proofs.Equality
import TreeScript.Proofs.Evaluations
import TreeScript.Proofs.Exceptions.Catching
import TreeScript.Proofs.Exceptions.Making
import TreeScript.Proofs.Generators.Activation
import TreeScript.Proofs.Generators.Legs
import TreeScript.Proofs.Generators.Positions
import TreeScript.Proofs.Generators.Resumes
import TreeScript.Proofs.Generators.Stages
import TreeScript.Proofs.Generators.Straight
import TreeScript.Proofs.Generators.Upfront
import TreeScript.Proofs.Hierarchy.Hosts
import TreeScript.Proofs.Hierarchy.Merging
import TreeScript.Proofs.Hierarchy.Order
import TreeScript.Proofs.Hierarchy.Registering
import TreeScript.Proofs.Hierarchy.Sessions
import TreeScript.Proofs.Hierarchy.Walk
import TreeScript.Proofs.Histories.Catalog
import TreeScript.Proofs.Histories.Interner
import TreeScript.Proofs.Histories.Last
import TreeScript.Proofs.Histories.OrderedMap
import TreeScript.Proofs.Histories.ScopeTree
import TreeScript.Proofs.Instances
import TreeScript.Proofs.Integers.Arithmetic
import TreeScript.Proofs.Integers.Comparison
import TreeScript.Proofs.Integers.Negation
import TreeScript.Proofs.Integers.Numerals
import TreeScript.Proofs.Integers.Promotion
import TreeScript.Proofs.Isolation.Bodies
import TreeScript.Proofs.Isolation.Company
import TreeScript.Proofs.Isolation.Expressions
import TreeScript.Proofs.Isolation.Interleavings
import TreeScript.Proofs.Isolation.Primitives
import TreeScript.Proofs.Isolation.Resumes
import TreeScript.Proofs.Isolation.Schedule
import TreeScript.Proofs.Isolation.Statements
import TreeScript.Proofs.Isolation.Twins
import TreeScript.Proofs.Json.Grammar
import TreeScript.Proofs.Json.Rendering
import TreeScript.Proofs.Logic.Alike
import TreeScript.Proofs.Logic.Basic
import TreeScript.Proofs.Logic.Calls
import TreeScript.Proofs.Logic.Control
import TreeScript.Proofs.Logic.Core
import TreeScript.Proofs.Logic.Failures
import TreeScript.Proofs.Logic.Nodes
import TreeScript.Proofs.Logs.Basic
import TreeScript.Proofs.Logs.Budget
import TreeScript.Proofs.Logs.Fatal
import TreeScript.Proofs.Logs.Gauge
import TreeScript.Proofs.Logs.Lawful
import TreeScript.Proofs.Loops
import TreeScript.Proofs.Overloads
import TreeScript.Proofs.Pooling.Captures
import TreeScript.Proofs.Pooling.Frames
import TreeScript.Proofs.Pooling.Handlers
import TreeScript.Proofs.Pooling.Hosts
import TreeScript.Proofs.Pooling.Laws
import TreeScript.Proofs.Pooling.Ownership
import TreeScript.Proofs.Pooling.Relation
import TreeScript.Proofs.Pooling.Scopes
import TreeScript.Proofs.Pooling.World
import TreeScript.Proofs.Reach.Calls
import TreeScript.Proofs.Reach.Control
import TreeScript.Proofs.Reach.Expressions
import TreeScript.Proofs.Reach.Heaps
import TreeScript.Proofs.Reach.Hooks
import TreeScript.Proofs.Reach.Rendering
import TreeScript.Proofs.Reach.Within
import TreeScript.Proofs.Requests
import TreeScript.Proofs.Rounds
import TreeScript.Proofs.Scopes
import TreeScript.Proofs.Sessions
import TreeScript.Proofs.Simulation.Alike
import TreeScript.Proofs.Simulation.Basic
import TreeScript.Proofs.Simulation.Calls
import TreeScript.Proofs.Simulation.Control
import TreeScript.Proofs.Simulation.Expressions
import TreeScript.Proofs.Simulation.Hooks
import TreeScript.Proofs.Simulation.Host
import TreeScript.Proofs.Simulation.Invariant
import TreeScript.Proofs.Simulation.Lawful
import TreeScript.Proofs.Simulation.Moments
import TreeScript.Proofs.Simulation.Node
import TreeScript.Proofs.Simulation.Primitives
import TreeScript.Proofs.Simulation.View
import TreeScript.Proofs.Storage
import TreeScript.Proofs.Templates
import TreeScript.Proofs.Texts
import TreeScript.Proofs.Typing.Agreement
import TreeScript.Proofs.Typing.Conversions
import TreeScript.Proofs.Typing.Idempotence
import TreeScript.Proofs.Typing.Slots
import TreeScript.Proofs.Units
import TreeScript.Proofs.Visits
import TreeScript.Session.CallSites
import TreeScript.Session.CallStack
import TreeScript.Session.Cancellation
import TreeScript.Session.Host
import TreeScript.Session.Mode
import TreeScript.Session.Output
import TreeScript.Session.Pool
import TreeScript.Session.State
import TreeScript.Table
import TreeScript.Text.Blank
import TreeScript.Text.Printable
import TreeScript.Text.Quoted
import TreeScript.Text.Units
import TreeScript.Value
import TreeScript.Value.OrderedMap
