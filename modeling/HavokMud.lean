import HavokMud.SearchTree.Basic
import HavokMud.SearchTree.Balance
import HavokMud.SearchTree.Index
import HavokMud.SearchTree.Arranged
import HavokMud.SearchTree.Marks
import HavokMud.SearchTree.Dictionary
import HavokMud.SearchTree.Spine
import HavokMud.Interval.Tiling
import HavokMud.Interval.Ledger
import HavokMud.Records.FreeList
import HavokMud.BTree.Nodes
import HavokMud.BTree.Representation
import HavokMud.BTree.Search
import HavokMud.BTree.Rotation
import HavokMud.BTree.Replace
import HavokMud.BTree.Freeing
import HavokMud.BTree.TearDown
import HavokMud.BTree.Rebalance
import HavokMud.BTree.Operations
import HavokMud.BTree.Walks
import HavokMud.BTree.InOrder
import HavokMud.BTree.Forest
import HavokMud.BTree.Runs
import HavokMud.BTree.Duplicates
import HavokMud.BTree.DuplicateRuns
import HavokMud.BTree.Trees
import HavokMud.BTree.Keys
import HavokMud.BTree.PartialKeys
import HavokMud.BTree.Filling
import HavokMud.Commands.Arguments
import HavokMud.Commands.ArgumentRuns
import HavokMud.Commands.Separators
import HavokMud.Commands.Parser
import HavokMud.Commands.SharedLines
import HavokMud.Commands.Lookup
import HavokMud.BTree.KeyOrders
import HavokMud.Objects.Indexes
import HavokMud.Objects.Listing
import HavokMud.Objects.Pruning
import HavokMud.Objects.Keywords
import HavokMud.Objects.KeywordRuns
import HavokMud.Objects.KeywordSearch
import HavokMud.Objects.KeywordMatches
import HavokMud.Keywords.Matching
import HavokMud.Keywords.Splitting
import HavokMud.Keywords.RoundTrips
import HavokMud.Keywords.Ordinals
import HavokMud.Sequence.Buffers
import HavokMud.Colors.Codes
import HavokMud.Colors.Expansion
import HavokMud.Colors.Bounds
import HavokMud.Objects.Types
import HavokMud.LinkedList.Chains
import HavokMud.LinkedList.Ancestors
import HavokMud.LinkedList.Basic
import HavokMud.LinkedList.Lists
import HavokMud.LinkedList.Deques
import HavokMud.LinkedList.LockFlag
import HavokMud.LinkedList.Connections
import HavokMud.LinkedList.ConnectionRuns
import HavokMud.Placement.World
import HavokMud.Placement.Placing
import HavokMud.Placement.Nesting
import HavokMud.Placement.Forests
import HavokMud.Placement.Places
import HavokMud.Placement.Cycles
import HavokMud.Placement.Storing
import HavokMud.Placement.Extracting
import HavokMud.Memory.Pools
import HavokMud.Memory.Allocator
import HavokMud.Memory.Indexes
import HavokMud.Memory.Invariant
import HavokMud.Memory.Blocks
import HavokMud.Memory.Requests
import HavokMud.Memory.Coalesce
import HavokMud.Memory.Strings
import HavokMud.Memory.Text
import HavokMud.Memory.Runs
import HavokMud.Memory.Clients
import HavokMud.Memory.Contents
import HavokMud.Memory.FullWidth
import HavokMud.Memory.Interning
import HavokMud.Memory.StringRuns
import HavokMud.Memory.LinkCounts
import HavokMud.Memory.LinkSessions
import HavokMud.Memory.Reclaim
import HavokMud.Memory.Threads
import HavokMud.Memory.ThreadInvariant
import HavokMud.Memory.ThreadSteps
import HavokMud.Memory.ThreadSafety
import HavokMud.Mysql.Quote
import HavokMud.Mysql.Assembly
import HavokMud.Mysql.Substitution
import HavokMud.Mysql.Queries
import HavokMud.Mysql.Tokens
import HavokMud.Mysql.Grammar
import HavokMud.Mysql.QueryTable
import HavokMud.Mysql.Literals
import HavokMud.Mysql.Pipeline
import HavokMud.Mysql.Handshake
import HavokMud.Mysql.Calls
import HavokMud.Mysql.Settings
import HavokMud.Mysql.Schema
import HavokMud.Mysql.Statements
import HavokMud.Mysql.Progress
import HavokMud.Mysql.Saves
import HavokMud.Mysql.Completion
import HavokMud.Mysql.Ownership
import HavokMud.Mysql.Failures
import HavokMud.Json.Values
import HavokMud.Json.RoundTrip
import HavokMud.Json.Members
import HavokMud.Attributes.Trees
import HavokMud.Attributes.Indexes
import HavokMud.Attributes.RoundTrip
import HavokMud.Attributes.Sources
import HavokMud.Attributes.Transposed
import HavokMud.Attributes.TearDown
import HavokMud.Attributes.Locks
import HavokMud.Attributes.LockBalance
import HavokMud.Attributes.Deletion
import HavokMud.Attributes.Lookup
import HavokMud.Attributes.Typed
import HavokMud.Attributes.StringValues
import HavokMud.Mysql.Upserts
import HavokMud.Mysql.UpsertStrings
import HavokMud.Attributes.Aggregate
import HavokMud.Mysql.Characters
import HavokMud.Interaction.Programs
import HavokMud.Interaction.Simulation
import HavokMud.Interaction.Tally
import HavokMud.Interaction.Fairness
import HavokMud.Interaction.Guards
import HavokMud.Interaction.Locks
import HavokMud.Interaction.Bounds
import HavokMud.Interaction.Traces
import HavokMud.Interaction.Histories
import HavokMud.BTree.Locks
import HavokMud.BTree.Iteration
import HavokMud.BTree.MarkedWalks
import HavokMud.BTree.Ranges
import HavokMud.Digest.Context
import HavokMud.SixWords.Dictionary
import HavokMud.SixWords.Codes
import HavokMud.SixWords.Reading
import HavokMud.Login.Machine
import HavokMud.Login.Email
import HavokMud.Login.WebRequests
import HavokMud.Login.Names
import HavokMud.Login.SiteBans
import HavokMud.Login.System
import HavokMud.Login.Copies
import HavokMud.Login.Interleaving
import HavokMud.Login.Confirmation
import HavokMud.Login.Registration
import HavokMud.Login.Sessions
import HavokMud.Login.Authentication
import HavokMud.Login.Prompts
import HavokMud.Login.ConfirmationCodes
import HavokMud.Web.FormData
import HavokMud.Output.Kicks
import HavokMud.Cyclic.Windows
import HavokMud.Cyclic.Comparison
import HavokMud.Sequence.Pieces
import HavokMud.Sequence.Runs
import HavokMud.Sequence.Blocks
import HavokMud.Sequence.Bisection
import HavokMud.Sequence.Largest
import HavokMud.Matching.FirstFit
import HavokMud.Matching.Backtracking
import HavokMud.Queue.Objects
import HavokMud.Queue.Fifo
import HavokMud.Queue.Flush
import HavokMud.Queue.Removal
import HavokMud.Queue.Monitor
import HavokMud.Queue.Waiters
import HavokMud.Queue.Deadlines
import HavokMud.Queue.TimedWaits
import HavokMud.Protobuf.Threads
import HavokMud.Protobuf.Rendezvous
import HavokMud.Protobuf.Answers
import HavokMud.Protobuf.Loads
import HavokMud.Buffer.Objects
import HavokMud.Buffer.Sockets
import HavokMud.Buffer.Stream
import HavokMud.Input.Lines
import HavokMud.Input.Bounds
import HavokMud.Input.Arrivals
import HavokMud.Editor.Input
import HavokMud.Editor.Abort
import HavokMud.Dice.Rolls
import HavokMud.Weather.Calendar
import HavokMud.Weather.Daylight
import HavokMud.Pipeline.Threads
import HavokMud.Pipeline.Orders
import HavokMud.Pipeline.Delivery
import HavokMud.Pipeline.Failures
