import IncrementalLR.Data.Keyed
import IncrementalLR.Data.Pile
import IncrementalLR.Error
import IncrementalLR.Grammar.Basic
import IncrementalLR.Grammar.Dialect
import IncrementalLR.Grammar.Tuning
import IncrementalLR.Input.Document
import IncrementalLR.Input.Ranges
import IncrementalLR.Input.Stream
import IncrementalLR.Lexer.Group
import IncrementalLR.Lexer.Scan
import IncrementalLR.Lexer.Tokenizer
import IncrementalLR.Node.Prop
import IncrementalLR.Node.Type
import IncrementalLR.Parse.Advance
import IncrementalLR.Parse.Basic
import IncrementalLR.Parse.Reuse
import IncrementalLR.Parse.Scores
import IncrementalLR.Parse.Select
import IncrementalLR.Parse.Tokens
import IncrementalLR.Parser.Basic
import IncrementalLR.Parser.Written
import IncrementalLR.Proofs.Adopting
import IncrementalLR.Proofs.Answers
import IncrementalLR.Proofs.Apart
import IncrementalLR.Proofs.BalancedViews
import IncrementalLR.Proofs.Balancing
import IncrementalLR.Proofs.Building
import IncrementalLR.Proofs.Caching
import IncrementalLR.Proofs.CharacterEnds
import IncrementalLR.Proofs.Characters
import IncrementalLR.Proofs.Cuts
import IncrementalLR.Proofs.Derivations
import IncrementalLR.Proofs.Deterministic
import IncrementalLR.Proofs.Dialects
import IncrementalLR.Proofs.Driver
import IncrementalLR.Proofs.Endless
import IncrementalLR.Proofs.Exact
import IncrementalLR.Proofs.FirstActions
import IncrementalLR.Proofs.ForeignCodes
import IncrementalLR.Proofs.Forests
import IncrementalLR.Proofs.Formed
import IncrementalLR.Proofs.FragmentEdits
import IncrementalLR.Proofs.Fragments
import IncrementalLR.Proofs.Gaps
import IncrementalLR.Proofs.Gotos
import IncrementalLR.Proofs.Guards
import IncrementalLR.Proofs.Horizons
import IncrementalLR.Proofs.Layouts
import IncrementalLR.Proofs.Leaving
import IncrementalLR.Proofs.Lookups
import IncrementalLR.Proofs.Lossless
import IncrementalLR.Proofs.Marks
import IncrementalLR.Proofs.Measured
import IncrementalLR.Proofs.Memos
import IncrementalLR.Proofs.Moves
import IncrementalLR.Proofs.NestedStacks
import IncrementalLR.Proofs.Nesting
import IncrementalLR.Proofs.NestingMoves
import IncrementalLR.Proofs.NestingParsers
import IncrementalLR.Proofs.Observing
import IncrementalLR.Proofs.OpenSides
import IncrementalLR.Proofs.Operations
import IncrementalLR.Proofs.Orders
import IncrementalLR.Proofs.Outlines
import IncrementalLR.Proofs.Overflows
import IncrementalLR.Proofs.Packing
import IncrementalLR.Proofs.Penalties
import IncrementalLR.Proofs.Permits
import IncrementalLR.Proofs.Pieces
import IncrementalLR.Proofs.Places
import IncrementalLR.Proofs.PlainRuns
import IncrementalLR.Proofs.Planned
import IncrementalLR.Proofs.Positions
import IncrementalLR.Proofs.Progress
import IncrementalLR.Proofs.Pruning
import IncrementalLR.Proofs.Pushing
import IncrementalLR.Proofs.Reach
import IncrementalLR.Proofs.Reading
import IncrementalLR.Proofs.Refusals
import IncrementalLR.Proofs.Rejections
import IncrementalLR.Proofs.Repairs
import IncrementalLR.Proofs.Resolving
import IncrementalLR.Proofs.Reuse
import IncrementalLR.Proofs.RootLengths
import IncrementalLR.Proofs.Selection
import IncrementalLR.Proofs.Sharing
import IncrementalLR.Proofs.Showing
import IncrementalLR.Proofs.Segments
import IncrementalLR.Proofs.Simulations
import IncrementalLR.Proofs.SingleRuns
import IncrementalLR.Proofs.Sinking
import IncrementalLR.Proofs.Sizes
import IncrementalLR.Proofs.Slots
import IncrementalLR.Proofs.Spreads
import IncrementalLR.Proofs.Steps
import IncrementalLR.Proofs.Storing
import IncrementalLR.Proofs.Streams
import IncrementalLR.Proofs.Suppressed
import IncrementalLR.Proofs.SymbolStarts
import IncrementalLR.Proofs.Symbols
import IncrementalLR.Proofs.TableTexts
import IncrementalLR.Proofs.TokenRuns
import IncrementalLR.Proofs.TokenTables
import IncrementalLR.Proofs.Tokens
import IncrementalLR.Proofs.Tours
import IncrementalLR.Proofs.Trails
import IncrementalLR.Proofs.Tunings
import IncrementalLR.Proofs.Unfolding
import IncrementalLR.Proofs.Views
import IncrementalLR.Proofs.Visible
import IncrementalLR.Proofs.Walks
import IncrementalLR.Proofs.WellFormed
import IncrementalLR.Proofs.Widths
import IncrementalLR.Span
import IncrementalLR.Stack.Arena
import IncrementalLR.Stack.Basic
import IncrementalLR.Stack.Cursor
import IncrementalLR.Stack.Env
import IncrementalLR.Stack.Recovery
import IncrementalLR.Stack.Scores
import IncrementalLR.Stack.Step
import IncrementalLR.Stack.Store
import IncrementalLR.Table.Action
import IncrementalLR.Table.Codec
import IncrementalLR.Table.Layout
import IncrementalLR.Table.Lookup
import IncrementalLR.Text.Printable
import IncrementalLR.Text.Quoted
import IncrementalLR.Text.Utf8
import IncrementalLR.Text.Words
import IncrementalLR.Tree.Arithmetic
import IncrementalLR.Tree.Balance
import IncrementalLR.Tree.Basic
import IncrementalLR.Tree.BufferCursor
import IncrementalLR.Tree.Build
import IncrementalLR.Tree.Cursor
import IncrementalLR.Tree.Fragment
import IncrementalLR.Tree.Identity
import IncrementalLR.Tree.Iterate
import IncrementalLR.Tree.Record
import IncrementalLR.Tree.Render
import IncrementalLR.Tree.Resolve
import IncrementalLR.Tree.Rows
import IncrementalLR.Tree.Tokens
import IncrementalLR.Tree.View
