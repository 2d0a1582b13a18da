import Bitemporal.Main
import Bitemporal.Proofs.Merge.Stable
import Bitemporal.Proofs.Order
import Bitemporal.Proofs.Trie.Path
import Bitemporal.Proofs.Trie.Interval
import Bitemporal.Proofs.Trie.Bytewise
import Bitemporal.Proofs.Trie.Reach
import Bitemporal.Proofs.Fact.Sort
import Bitemporal.Proofs.Ledger.Steps
import Bitemporal.Proofs.Ledger.Tiling
import Bitemporal.Proofs.Ledger.Breaks
import Bitemporal.Proofs.Scan.History
import Bitemporal.Proofs.Scan.Replay
import Bitemporal.Proofs.Merge.Rows
import Bitemporal.Proofs.Merge.Rising
import Bitemporal.Proofs.Query.Selector
import Bitemporal.Proofs.Plan.Walk
import Bitemporal.Proofs.Journal.Yields
import Bitemporal.Proofs.Segment.Holding
import Bitemporal.Proofs.Scan.Collect
import Bitemporal.Proofs.Scan.Memory
import Bitemporal.Proofs.Scan.Visibility
import Bitemporal.Proofs.Compaction.Erased
import Bitemporal.Proofs.Compaction.Merge
import Bitemporal.Proofs.Page.Bloom
import Bitemporal.Proofs.Page.Summary
import Bitemporal.Proofs.Plan.Choice
import Bitemporal.Proofs.Scan.Pruning
import Bitemporal.Proofs.Fact.Document
import Bitemporal.Proofs.Page.Columns
import Bitemporal.Proofs.Text.Bytes
import Bitemporal.Proofs.Trie.Table
import Bitemporal.Proofs.Page.Record
import Bitemporal.Proofs.Store.Disk
import Bitemporal.Proofs.Store.Making
import Bitemporal.Proofs.Store.Keeping
import Bitemporal.Proofs.Segment.Sealing
import Bitemporal.Proofs.Segment.Stored
import Bitemporal.Proofs.Segment.Reopened
import Bitemporal.Proofs.Segment.Overlong
import Bitemporal.Proofs.Scan.Stored
import Bitemporal.Proofs.Segment.Attempt
import Bitemporal.Proofs.Segment.Written
import Bitemporal.Proofs.Scan.AsOf
import Bitemporal.Proofs.Compaction.Regroup
import Bitemporal.Proofs.Scan.Repeated
import Bitemporal.Proofs.Compaction.Repeated
import Bitemporal.Proofs.Trie.Leaves
import Bitemporal.Proofs.Trie.Sound
import Bitemporal.Proofs.Trie.Postorder
import Bitemporal.Proofs.Plan.Build
import Bitemporal.Proofs.Plan.Cover
import Bitemporal.Proofs.Plan.Selected
import Bitemporal.Proofs.Scan.Depth
import Bitemporal.Proofs.Scan.Rising
import Bitemporal.Proofs.Compaction.Job
import Bitemporal.Proofs.Number.Binary64
import Bitemporal.Proofs.Query.Predicate
import Bitemporal.Proofs.Page.RoundTrip
import Bitemporal.Proofs.Scan.Workspace
import Bitemporal.Proofs.Scan.Shares
import Bitemporal.Proofs.Scan.Unambiguous
import Bitemporal.Proofs.Ledger.Columns
import Bitemporal.Proofs.Ledger.Recording
import Bitemporal.Proofs.Ledger.Resolved
import Bitemporal.Proofs.Scan.Staleness
import Bitemporal.Proofs.Segment.Slices
import Bitemporal.Proofs.Segment.Partition
import Bitemporal.Proofs.Digest.Crc32
import Bitemporal.Proofs.Page.Damage
import Bitemporal.Proofs.Query.Integers
import Bitemporal.Proofs.Scan.Windows
import Bitemporal.Merge.Queue
import Bitemporal.Proofs.Merge.Queue
import Bitemporal.Proofs.Merge.Precedence
import Bitemporal.Proofs.Scan.Restriction
import Bitemporal.Proofs.Segment.Refusal
import Bitemporal.Proofs.Page.Grammar
import Bitemporal.Proofs.Page.Positions
import Bitemporal.Proofs.Page.Outline
import Bitemporal.Proofs.Segment.Loaded
import Bitemporal.Proofs.Scan.Showings
import Bitemporal.Proofs.Scan.Streaming
import Bitemporal.Proofs.Text.Blank
import Bitemporal.Proofs.Json.Printer
import Bitemporal.Proofs.Query.Notation
import Bitemporal.Proofs.Time.Calendar
import Bitemporal.Proofs.Time.Notation
import Bitemporal.Proofs.Page.Probes
import Bitemporal.Proofs.Page.Width
import Bitemporal.Proofs.Scan.Filters
import Bitemporal.Proofs.Page.Passing
import Bitemporal.Proofs.Journal.Counts
import Bitemporal.Proofs.Plan.Accounts
import Bitemporal.Proofs.Scan.Accounts
import Bitemporal.Proofs.Text.Lines
import Bitemporal.Proofs.CommandLine.FactLine
import Bitemporal.Proofs.CommandLine.Write
