import EditHistory.Text.Basic
import EditHistory.Text.Blank
import EditHistory.Text.Charset
import EditHistory.Text.Decimal
import EditHistory.Text.Utf8
import EditHistory.Patch.Basic
import EditHistory.Patch.Apply
import EditHistory.Alignment.Block
import EditHistory.Alignment.Search
import EditHistory.Alignment.PrefixMaximum
import EditHistory.Alignment.Stationary
import EditHistory.Patch.Between
import EditHistory.Wire.Bits
import EditHistory.Wire.BitWriter
import EditHistory.Wire.BitReader
import EditHistory.Wire.Action
import EditHistory.Wire.Error
import EditHistory.Wire.Widths
import EditHistory.Wire.Body
import EditHistory.Transport.Base64
import EditHistory.Transport.Armor
import EditHistory.Transport.Huffman
import EditHistory.Transport.Inflate
import EditHistory.Transport.Deflate
import EditHistory.Transport.Compressor
import EditHistory.Transport.Envelope
import EditHistory.Transport.Payload
import EditHistory.Delta
import EditHistory.Archive.Revision
import EditHistory.Archive.Settings
import EditHistory.Archive.Task
import EditHistory.Archive.Recorder
import EditHistory.Archive.Replay
import EditHistory.Sharding.Queue
import EditHistory.Sharding.Network
import EditHistory.Report.Json
import EditHistory.Report.Calendar
import EditHistory.Report.Failure
import EditHistory.CommandLine.ByteSize
import EditHistory.CommandLine.Options
import EditHistory.CommandLine.Vocabulary
import EditHistory.CommandLine.Arguments
import EditHistory.CommandLine.FileSystem
import EditHistory.CommandLine.Outcome
import EditHistory.CommandLine.Transfer
import EditHistory.CommandLine.Inspect
import EditHistory.CommandLine.History
import EditHistory.CommandLine.Run
import EditHistory.Main
import EditHistory.Proofs.Result
import EditHistory.Proofs.Sum
import EditHistory.Proofs.Text.Segment
import EditHistory.Proofs.Alignment.Tiling
import EditHistory.Proofs.Alignment.Longest
import EditHistory.Proofs.Alignment.Scan
import EditHistory.Proofs.Alignment.Matches
import EditHistory.Proofs.Alignment.Partition
import EditHistory.Proofs.Alignment.Exhaustion
import EditHistory.Proofs.Alignment.Chains
import EditHistory.Proofs.Patch.Rebuild
import EditHistory.Proofs.Patch.Spacing
import EditHistory.Proofs.Patch.Walk
import EditHistory.Proofs.Patch.Between
import EditHistory.Proofs.Text.Symbols
import EditHistory.Proofs.Wire.Bits
import EditHistory.Proofs.Text.Charset
import EditHistory.Proofs.Text.Utf8
import EditHistory.Proofs.Text.Surrogates
import EditHistory.Proofs.Text.Sanitized
import EditHistory.Proofs.Text.Spelling
import EditHistory.Proofs.Text.Blank
import EditHistory.Proofs.Text.Decimal
import EditHistory.Proofs.Wire.Widths
import EditHistory.Proofs.Wire.Body
import EditHistory.Proofs.Wire.Reading
import EditHistory.Proofs.Wire.Canonical
import EditHistory.Proofs.Delta
import EditHistory.Proofs.Guarded.Basic
import EditHistory.Proofs.Guarded.Reader
import EditHistory.Proofs.Guarded.Body
import EditHistory.Proofs.Guarded.Apply
import EditHistory.Proofs.Guarded.Delta
import EditHistory.Proofs.Transport.Deflate
import EditHistory.Proofs.Transport.Base64
import EditHistory.Proofs.Transport.TextForm
import EditHistory.Proofs.Archive.Replay
import EditHistory.Proofs.Archive.Task
import EditHistory.Proofs.Patch.Trivial
import EditHistory.Proofs.Patch.Shape
import EditHistory.Proofs.Archive.History
import EditHistory.Proofs.Archive.Calls
import EditHistory.Proofs.Archive.Portions
import EditHistory.Proofs.Archive.Runs
import EditHistory.Proofs.Archive.Measured
import EditHistory.Proofs.Archive.Isolation
import EditHistory.Proofs.Archive.Order
import EditHistory.Proofs.Archive.Selection
import EditHistory.Proofs.Sharding.Separation
import EditHistory.Proofs.Sharding.Shares
import EditHistory.Proofs.Sharding.Steps
import EditHistory.Proofs.Sharding.Invariant
import EditHistory.Proofs.Sharding.Progress
import EditHistory.Proofs.Sharding.Delivery
import EditHistory.Proofs.Sharding.Deadlock
import EditHistory.Proofs.Report.Json
import EditHistory.Proofs.CommandLine.FileSystem
import EditHistory.Proofs.CommandLine.Lines
import EditHistory.Proofs.CommandLine.History
import EditHistory.Proofs.Sharding.FirstError
import EditHistory.Proofs.CommandLine.Run
import EditHistory.Proofs.CommandLine.Transfer
import EditHistory.Proofs.CommandLine.Inspect
import EditHistory.Proofs.Alignment.PrefixMaximum
import EditHistory.Proofs.Alignment.Heaviest
import EditHistory.Proofs.Patch.Moves
import EditHistory.Proofs.Wire.Truncation
import EditHistory.Proofs.Wire.Encodable
import EditHistory.Proofs.Patch.Meaning
import EditHistory.Proofs.Archive.Splitting
import EditHistory.Proofs.Archive.Checkpoints
import EditHistory.Proofs.Transport.Envelope
import EditHistory.Proofs.CommandLine.Unpacking
import EditHistory.Proofs.Archive.Balance
import EditHistory.Proofs.Alignment.Rearranged
import EditHistory.Proofs.Guarded.Edits
import EditHistory.Proofs.Patch.Rearranged
import EditHistory.Proofs.CommandLine.ByteSize
import EditHistory.Proofs.Guarded.ByteSize
import EditHistory.Proofs.Alignment.Predecessor
import EditHistory.Proofs.InPlace.Basic
import EditHistory.Proofs.InPlace.Writer
import EditHistory.Proofs.InPlace.Reader
import EditHistory.Proofs.InPlace.Items
