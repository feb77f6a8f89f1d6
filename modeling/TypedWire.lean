import TypedWire.Settings
import TypedWire.Proxy
import TypedWire.Session
import TypedWire.Proofs.OpenPacking
import TypedWire.Proofs.OpenRoundTrip
import TypedWire.Proofs.RemoteBlock
import TypedWire.Proofs.Repacking
import TypedWire.Proofs.RemoteFlat
import TypedWire.Proofs.UntrustedLink
import TypedWire.Proofs.Prefixes
import TypedWire.Proofs.Serving
import TypedWire.Proofs.BrokenLink
import TypedWire.Proofs.Payloads
import TypedWire.Proofs.Messages
import TypedWire.Proofs.Tokens
import TypedWire.Proofs.Cancellation
import TypedWire.Proofs.Conformance
import TypedWire.Proofs.Rearranging
import TypedWire.Proofs.Registrations
import TypedWire.Proofs.Replays
import TypedWire.Proofs.Canonical
import TypedWire.Proofs.RegistryRuns
import TypedWire.Proofs.Routing
import TypedWire.Proofs.Tiling
import TypedWire.Proofs.AxisCounts
import TypedWire.Proofs.BlockCopies
import TypedWire.Proofs.Layouts
import TypedWire.Proofs.Footprints
import TypedWire.Proofs.Decimals
import TypedWire.Proofs.MapEntries
import TypedWire.Proofs.Positions
import TypedWire.Proofs.RecordFields
import TypedWire.Proofs.ShapeGuards
import TypedWire.Proofs.ChunkCounts
import TypedWire.Proofs.FlatCalls
import TypedWire.Proofs.NumericPayloads
import TypedWire.Proofs.ServiceIndex
import TypedWire.Proofs.Conversions
import TypedWire.Proofs.RunRanges
import TypedWire.Proofs.LiveSettings
import TypedWire.Proofs.Operations
import TypedWire.Proofs.Splitting
