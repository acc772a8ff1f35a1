import UtreexoBridge.Verify.Alias
import UtreexoBridge.Forest.Prove
import UtreexoBridge.Forest.Confluence
import UtreexoBridge.Sync.EmptyRow
import UtreexoBridge.Arena.Agree
import UtreexoBridge.Wal.Spec
import UtreexoBridge.TxCache.Serving
import UtreexoBridge.Window
import UtreexoBridge.Wire.Native
import UtreexoBridge.Wire.Decode
import UtreexoBridge.Online.DeltaFile
import UtreexoBridge.Online.History
import UtreexoBridge.Online.AllOrNothing
import UtreexoBridge.Online.ReadForest
import UtreexoBridge.Online.Flush
import UtreexoBridge.Forest.Reserve
import UtreexoBridge.Forest.Inverse
import UtreexoBridge.Arena.Undo
import UtreexoBridge.Rpc.Headers
import UtreexoBridge.Rpc.Chunks
import UtreexoBridge.Wire.Uproof
import UtreexoBridge.Archive.Admission
import UtreexoBridge.Wire.Identity
import UtreexoBridge.Rpc.NetEffect
import UtreexoBridge.Rpc.Streaming
import UtreexoBridge.Online.DeltaLookup
import UtreexoBridge.Index.Repair
import UtreexoBridge.Script
import UtreexoBridge.ProofCache
import UtreexoBridge.Relay.Recovery
import UtreexoBridge.Online.SyncRun
import UtreexoBridge.Online.Loaders
import UtreexoBridge.Checkpoint.Spec
import UtreexoBridge.Numbering
import UtreexoBridge.OpenAddressing.Rename
import UtreexoBridge.Checkpoint.Preserve
import UtreexoBridge.Checkpoint.SaveLoad
import UtreexoBridge.Bytes.Folding
import UtreexoBridge.Checkpoint.Corrupted
import UtreexoBridge.Online.CrashRecovery
import UtreexoBridge.P2P.Delivery
import UtreexoBridge.P2P.Peaks
