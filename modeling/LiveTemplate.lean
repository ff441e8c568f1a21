import LiveTemplate.Text.Blank
import LiveTemplate.Text.Offset
import LiveTemplate.Text.Quoted
import LiveTemplate.Number.Numeral
import LiveTemplate.Number.Shortest
import LiveTemplate.Number.Arithmetic
import LiveTemplate.Arena
import LiveTemplate.Table
import LiveTemplate.Operator
import LiveTemplate.Value
import LiveTemplate.Value.Coercion
import LiveTemplate.Value.Operation
import LiveTemplate.Value.Scalar
import LiveTemplate.Error
import LiveTemplate.Path
import LiveTemplate.Path.Parser
import LiveTemplate.Token
import LiveTemplate.Token.Lexer
import LiveTemplate.Expr
import LiveTemplate.Expr.Parser
import LiveTemplate.Template.Chunk
import LiveTemplate.Template
import LiveTemplate.Template.Cache
import LiveTemplate.Reactive.Graph
import LiveTemplate.Reactive.Settings
import LiveTemplate.Reactive.Program
import LiveTemplate.Reactive.Engine
import LiveTemplate.Resolution
import LiveTemplate.Evaluation
import LiveTemplate.Binding
import LiveTemplate.Feed
import LiveTemplate.Session.Shown
import LiveTemplate.Session.Workspace
import LiveTemplate.Session.Action
import LiveTemplate.Session.Script
import LiveTemplate.Session.Report
import LiveTemplate.Proofs.Value.Agreement
import LiveTemplate.Proofs.Reactive.Reading
import LiveTemplate.Proofs.Reactive.Scratch
import LiveTemplate.Proofs.Reactive.Edges
import LiveTemplate.Proofs.Reactive.Coherence
import LiveTemplate.Proofs.Reactive.Refreshed
import LiveTemplate.Proofs.Reactive.Running
import LiveTemplate.Proofs.Reactive.Refresh
import LiveTemplate.Proofs.Reactive.Marking
import LiveTemplate.Proofs.Reactive.Writing
import LiveTemplate.Proofs.Reactive.Watching
import LiveTemplate.Proofs.Reactive.Effects
import LiveTemplate.Proofs.Reactive.Sound
import LiveTemplate.Proofs.Reactive.Nodes
import LiveTemplate.Proofs.Reactive.Vigilance
import LiveTemplate.Proofs.Reactive.Flush
import LiveTemplate.Proofs.Reactive.Reached
import LiveTemplate.Proofs.Reactive.Attention
import LiveTemplate.Proofs.Reactive.Operations
import LiveTemplate.Proofs.Reactive.Propagation
import LiveTemplate.Proofs.Reactive.Cycles
import LiveTemplate.Proofs.Reactive.Recovery
import LiveTemplate.Proofs.Reactive.Walks
import LiveTemplate.Proofs.Expr.Completeness
import LiveTemplate.Proofs.Template.Region
import LiveTemplate.Proofs.Template.Writing
import LiveTemplate.Proofs.Reactive.Continuity
import LiveTemplate.Proofs.Reactive.Hearing
import LiveTemplate.Proofs.Reactive.Frames
import LiveTemplate.Proofs.Reactive.Quiescence
import LiveTemplate.Proofs.Reactive.Acyclic
import LiveTemplate.Proofs.Reactive.Forest
import LiveTemplate.Proofs.Reactive.Moments
import LiveTemplate.Proofs.Reactive.Removal
import LiveTemplate.Proofs.Reactive.Invariance
import LiveTemplate.Proofs.Reactive.Attribution
import LiveTemplate.Proofs.Reactive.Attentive
import LiveTemplate.Proofs.Reactive.Thrift
import LiveTemplate.Proofs.Reactive.Bystanders
import LiveTemplate.Proofs.Reactive.Deafness
import LiveTemplate.Proofs.Reactive.Disposal
import LiveTemplate.Proofs.Reactive.Losses
import LiveTemplate.Proofs.Binding.Sessions
import LiveTemplate.Proofs.Template.Caching
import LiveTemplate.Proofs.Template.Pointing
import LiveTemplate.Proofs.Template.Constants
import LiveTemplate.Proofs.Expr.Relevance
import LiveTemplate.Proofs.Number.Reading
import LiveTemplate.Proofs.Expr.Lexing
import LiveTemplate.Proofs.Token.Patterns
import LiveTemplate.Proofs.Token.Munching
import LiveTemplate.Proofs.Expr.Display
import LiveTemplate.Proofs.Expr.Height
import LiveTemplate.Proofs.Expr.Paths
import LiveTemplate.Proofs.Value.Likeness
import LiveTemplate.Proofs.Reactive.Reckoning
import LiveTemplate.Proofs.Expr.Discretion
import LiveTemplate.Proofs.Binding.Displaying
import LiveTemplate.Proofs.Binding.Usage
import LiveTemplate.Proofs.Binding.Policies
import LiveTemplate.Proofs.Path.Scanning
import LiveTemplate.Proofs.Path.Display
import LiveTemplate.Proofs.Path.Composition
import LiveTemplate.Proofs.Reactive.Chains
import LiveTemplate.Proofs.Reactive.Alongside
import LiveTemplate.Proofs.Expr.Eagerness
import LiveTemplate.Proofs.Reactive.Turns
import LiveTemplate.Proofs.Path.Indexing
import LiveTemplate.Proofs.Value.Reflexivity
import LiveTemplate.Proofs.Reactive.Permanence
import LiveTemplate.Proofs.Reactive.WritingBack
import LiveTemplate.Proofs.Reactive.Spreading
import LiveTemplate.Proofs.Feed.Prefix
import LiveTemplate.Proofs.Binding.Refusals
