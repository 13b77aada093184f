import ScriptCodec.Binary.Crc32
import ScriptCodec.Binary.Cursor
import ScriptCodec.Cbor.Module
import ScriptCodec.Command.Run
import ScriptCodec.Listing.Parser
import ScriptCodec.Listing.Printer
import ScriptCodec.Main
import ScriptCodec.Object.Assembly
import ScriptCodec.Object.Disassembly
import ScriptCodec.Object.Report
import ScriptCodec.Project.Load
import ScriptCodec.Symbol.Lookup
import ScriptCodec.Proofs.Binary.Holds
import ScriptCodec.Proofs.Binary.TypedWrites
import ScriptCodec.Proofs.Binary.Growth
import ScriptCodec.Proofs.Number.Numerals
import ScriptCodec.Proofs.Number.Rounding
import ScriptCodec.Proofs.Text.Quoting
import ScriptCodec.Proofs.Number.FloatSpelling
import ScriptCodec.Proofs.Operand.Value
import ScriptCodec.Proofs.Object.Boundaries
import ScriptCodec.Proofs.Object.Emission
import ScriptCodec.Proofs.Object.File
import ScriptCodec.Proofs.Object.Pool
import ScriptCodec.Proofs.Object.Records
import ScriptCodec.Proofs.Object.Sizes
import ScriptCodec.Proofs.Operand.Decoding
import ScriptCodec.Proofs.Object.Decoding
import ScriptCodec.Proofs.Object.Mentions
import ScriptCodec.Proofs.Object.Sections
import ScriptCodec.Proofs.Object.ReadBack
import ScriptCodec.Proofs.Object.RoundTrip
import ScriptCodec.Proofs.Object.Agreement
import ScriptCodec.Proofs.Object.Targets
import ScriptCodec.Proofs.Object.LabelResolution
import ScriptCodec.Proofs.Operand.Decoded
import ScriptCodec.Proofs.Object.Decoded
import ScriptCodec.Proofs.Object.Reassembly
import ScriptCodec.Proofs.Object.Stability
import ScriptCodec.Proofs.Object.Naming
import ScriptCodec.Proofs.Object.Tiling
import ScriptCodec.Proofs.Object.ImportTable
import ScriptCodec.Proofs.Object.Relabelling
import ScriptCodec.Proofs.Object.Consistency
import ScriptCodec.Proofs.Listing.Tokens
import ScriptCodec.Proofs.Listing.Spelling
import ScriptCodec.Proofs.Listing.Lines
import ScriptCodec.Proofs.Listing.Literals
import ScriptCodec.Proofs.Listing.Reading
import ScriptCodec.Proofs.Listing.Placement
import ScriptCodec.Proofs.Listing.RoundTrip
import ScriptCodec.Proofs.Object.Extents
import ScriptCodec.Proofs.Object.Partition
import ScriptCodec.Proofs.Object.Truncation
import ScriptCodec.Proofs.Object.Schedule
import ScriptCodec.Proofs.Machine.Pass
import ScriptCodec.Proofs.Machine.Tables
import ScriptCodec.Proofs.Machine.Sections
import ScriptCodec.Proofs.Machine.Operands
import ScriptCodec.Proofs.Machine.Code
import ScriptCodec.Proofs.Machine.Safety
import ScriptCodec.Proofs.Cbor.Items
import ScriptCodec.Proofs.Cbor.RoundTrip
import ScriptCodec.Proofs.Symbol.Refinement
import ScriptCodec.Proofs.Object.Arity
import ScriptCodec.Proofs.Object.PoolReadBack
import ScriptCodec.Proofs.Object.Callees
import ScriptCodec.Proofs.Object.FixupTable
import ScriptCodec.Proofs.Object.Counts
import ScriptCodec.Proofs.Object.BranchTargets
import ScriptCodec.Proofs.Listing.Entries
import ScriptCodec.Proofs.Listing.Binding
import ScriptCodec.Proofs.Listing.Drafts
import ScriptCodec.Proofs.Object.DecodedSize
import ScriptCodec.Proofs.Listing.LabelMeaning
import ScriptCodec.Proofs.Listing.UnusedLabel
import ScriptCodec.Proofs.Listing.Legibility
import ScriptCodec.Proofs.Listing.Reprinting
import ScriptCodec.Proofs.Number.Nearest
import ScriptCodec.Proofs.Order.Ordered
import ScriptCodec.Proofs.Symbol.Caller
import ScriptCodec.Proofs.Project.Path
import ScriptCodec.Proofs.Project.ScriptName
