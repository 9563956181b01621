import Rustgres.Encoding.Clean
import Rustgres.Encoding.Format
import Rustgres.Encoding.Parts
import Rustgres.Encoding.RangeText
import Rustgres.Encoding.Records
import Rustgres.Encoding.RoundTrip
import Rustgres.Encoding.Types
import Rustgres.Encoding.Values
import Rustgres.Exec.Common
import Rustgres.Exec.Dml
import Rustgres.Exec.ExactUndo
import Rustgres.Exec.IndexDdl
import Rustgres.Exec.Manager
import Rustgres.Exec.RowEffects
import Rustgres.Exec.SequenceLaw
import Rustgres.Exec.Sequences
import Rustgres.Lib.Bytes
import Rustgres.Lib.Codecs
import Rustgres.Lib.Dict
import Rustgres.Lib.InFlight
import Rustgres.Lib.Journal
import Rustgres.Lib.ListOps
import Rustgres.Lib.LockTable
import Rustgres.Lib.Programs
import Rustgres.Lib.Run
import Rustgres.Lib.Scoped
import Rustgres.Lib.UndoStack
import Rustgres.Plpgsql.Blocks
import Rustgres.Plpgsql.Body
import Rustgres.Plpgsql.Firing
import Rustgres.Repl.Decode
import Rustgres.Repl.ExactlyOnce
import Rustgres.Repl.SlotDurability
import Rustgres.Repl.Slots
import Rustgres.Repl.Stream
import Rustgres.Server.Actions
import Rustgres.Server.Backend
import Rustgres.Server.Frontend
import Rustgres.Server.Guc
import Rustgres.Server.History
import Rustgres.Server.Hygiene
import Rustgres.Server.Isolation
import Rustgres.Server.Moves
import Rustgres.Server.Recorded
import Rustgres.Server.Settings
import Rustgres.Server.SettingsRuns
import Rustgres.Server.SettingsSemantics
import Rustgres.Server.Sound
import Rustgres.Storage.Database
import Rustgres.Storage.Effects
import Rustgres.Storage.Heap
import Rustgres.Storage.Index
import Rustgres.Storage.Table
import Rustgres.Storage.Undo
import Rustgres.Storage.UndoHeap
import Rustgres.Storage.Visibility
import Rustgres.Wal.Durability
import Rustgres.Wal.FailedAppends
import Rustgres.Wal.Frame
import Rustgres.Wal.Reading
import Rustgres.Wal.Records
import Rustgres.Wal.Writer
import Rustgres.Lib.Terms
import Rustgres.Lib.Loops
import Rustgres.Views.Expr
import Rustgres.Views.AutoView
import Rustgres.Views.Table
import Rustgres.Views.Dml
import Rustgres.Views.Renaming
import Rustgres.Views.Meaning
import Rustgres.Views.CheckOption
import Rustgres.Lib.Forest
import Rustgres.Partition.Bounds
import Rustgres.Partition.Routing
import Rustgres.Partition.Ddl
import Rustgres.Partition.Dml
import Rustgres.Partition.Carried
import Rustgres.Partition.Schema
import Rustgres.Partition.Links
import Rustgres.Partition.Rows
import Rustgres.Partition.Updates
import Rustgres.Partition.Attach
import Rustgres.Partition.Runs
import Rustgres.Lib.Scanner
import Rustgres.Lib.Limbs
import Rustgres.Lib.LongDivision
import Rustgres.Lib.Decimal
import Rustgres.Lib.Scaled
import Rustgres.Lib.Rounding
import Rustgres.Numeric.BigUint
import Rustgres.Numeric.Digits
import Rustgres.Numeric.Basic
import Rustgres.Numeric.BigDec
import Rustgres.Numeric.Order
import Rustgres.Numeric.Hash
import Rustgres.Numeric.Round
import Rustgres.Numeric.Arith
import Rustgres.Numeric.Div
import Rustgres.Numeric.Text
import Rustgres.Numeric.Parse
import Rustgres.Numeric.Reading
import Rustgres.Numeric.RoundTrip
import Rustgres.Numeric.Grammar
import Rustgres.Json.Parser
import Rustgres.Json.Jsonb
import Rustgres.Json.Producers
import Rustgres.Server.Cursor
import Rustgres.Lib.Window
import Rustgres.Lib.Chains
import Rustgres.Toast.Decoders
import Rustgres.Toast.Lz4
import Rustgres.Toast.Lz4Blocks
import Rustgres.Toast.Pglz
import Rustgres.Toast.PglzHistory
import Rustgres.Toast.PglzSearch
import Rustgres.Toast.PglzPayload
import Rustgres.Toast.PglzRoundTrip
import Rustgres.Toast.PglzLimit
import Rustgres.Lib.Greedy
import Rustgres.Toast.Compression
import Rustgres.Toast.Plan
import Rustgres.Toast.PlanLaw
import Rustgres.Lib.Utf8
import Rustgres.Copy.Format
import Rustgres.Copy.TextLines
import Rustgres.Copy.TextRows
import Rustgres.Copy.CsvReading
import Rustgres.Copy.CsvRows
import Rustgres.Copy.RoundTrip
import Rustgres.Lib.Cuts
import Rustgres.Lib.Spans
import Rustgres.Ranges.Operators
import Rustgres.Ranges.Canonical
import Rustgres.Ranges.Sets
import Rustgres.Ranges.Agreement
import Rustgres.Ranges.Multi
import Rustgres.Values.KeyOrder
import Rustgres.Values.Interval
import Rustgres.Lib.Running
import Rustgres.Windows.Frames
import Rustgres.Windows.Groups
import Rustgres.Windows.Ordered
import Rustgres.Windows.Incremental
import Rustgres.Windows.Aggregates
import Rustgres.Windows.CarriedSums
import Rustgres.Windows.CarriedLaw
import Rustgres.Windows.Standard
import Rustgres.Windows.FrameKinds
import Rustgres.Windows.Offsets
import Rustgres.Windows.FrameLaw
import Rustgres.Lib.Rounds
import Rustgres.Cte.Recursive
import Rustgres.Cte.RecursiveLaw
import Rustgres.Windows.Expressions
import Rustgres.Windows.StampLaw
import Rustgres.Joins.Layout
import Rustgres.Joins.Loops
import Rustgres.Joins.LateralLaw
import Rustgres.Lib.Gregorian
import Rustgres.Lib.Machine
import Rustgres.Lib.Grid
import Rustgres.Datetime.Calendar
import Rustgres.Datetime.Arithmetic
import Rustgres.Datetime.Truncation
import Rustgres.Storage.RowIndex
import Rustgres.Lib.Worklist
import Rustgres.Server.Roles
import Rustgres.Lib.WordLimbs
import Rustgres.Numeric.WordDivision
import Rustgres.Lib.Orderings
import Rustgres.Json.Comparison
import Rustgres.Json.ComparisonLaw
import Rustgres.Json.Paths
import Rustgres.TextSearch.Comparison
import Rustgres.Values.Equality
import Rustgres.Values.KeyOrderLaw
import Rustgres.Joins.HashJoin
import Rustgres.Joins.HashJoinLaw
import Rustgres.Lib.Postings
import Rustgres.Exec.IndexEntries
import Rustgres.Server.IndexConsistency
import Rustgres.Lib.RangeScan
import Rustgres.Exec.AccessPath
import Rustgres.Exec.IndexNames
import Rustgres.Exec.AccessPathLaw
import Rustgres.Server.IndexScans
import Rustgres.Lib.Backtracking
import Rustgres.Regex.Syntax
import Rustgres.Regex.Program
import Rustgres.Regex.Semantics
import Rustgres.Regex.Compilation
import Rustgres.Regex.Running
import Rustgres.Regex.Parsing
import Rustgres.Regex.Search
import Rustgres.Values.Like
