import Machismo.IsaEmul.Linearize
import Machismo.IsaEmul.Patch
import Machismo.Resolver.Records
import Machismo.Resolver.Protection
import Machismo.Resolver.VariadicThunk
import Machismo.Resolver.CtorNames
import Machismo.Trampoline.StartsStream
import Machismo.EhFrame.NativeSections
import Machismo.Resolver.Bounds
import Machismo.Resolver.Expand
import Machismo.Resolver.Ordinals
import Machismo.Resolver.Strict
import Machismo.Resolver.WeakBind
import Machismo.Trampoline.OnlyCode
import Machismo.Trampoline.GuardData
import Machismo.Trampoline.Mangling
import Machismo.Loader.Fat
import Machismo.Loader.Segments
import Machismo.Loader.Stack
import Machismo.Loader.PthreadFixup
import Machismo.Loader.Rewrite
import Machismo.EhFrame.Frameless
import Machismo.EhFrame.Coverage
import Machismo.EhFrame.Lookup
import Machismo.Patcher.AllOrNothing
import Machismo.Patcher.Scan
import Machismo.Patcher.Extent
import Machismo.Patcher.Documented
import Machismo.Sword3.InputRing
import Machismo.Sword3.InputAtomic
import Machismo.Sword3.InputContext
import Machismo.Sword3.JoinRelative
import Machismo.Sword3.AtomicWriteOutcome
import Machismo.Sword3.FileManager
import Machismo.Sword3.OwnersRuns
import Machismo.Sword3.AudioRuns
import Machismo.Sword3.Movie
import Machismo.Sword3.MovieRuns
import Machismo.Data.Codec
import Machismo.Sword3.VideoBridge
import Machismo.Sword3.VideoRuns
import Machismo.RecoverSdl.RegisterFile
import Machismo.RecoverSdl.StringReferences
import Machismo.Sgr.RoundTrip
import Machismo.Sgr.Restored
import Machismo.Sgr.EncodeBounds
import Machismo.Heaptrack.Interleaving
import Machismo.Heaptrack.Buffer
import Machismo.Heaptrack.Tags
import Machismo.Heaptrack.Unmap
import Machismo.Heaptrack.PtrMap
import Machismo.Shim.DispatchTime
import Machismo.Shim.DispatchOnce
import Machismo.Shim.DispatchRefcount
import Machismo.Shim.Tlv
import Machismo.Shim.Mutex
import Machismo.Shim.AllocRuns
import Machismo.Shim.StringComponents
import Machismo.Shim.ClassTable
import Machismo.Shim.AudioBlobRuns
import Machismo.Heaptrack.ReplayRuns
import Machismo.RecoverSdl.BindAlike
import Machismo.RecoverSdl.HooksPass
import Machismo.EhFrame.Header
import Machismo.EhFrame.Augmentation
import Machismo.EhFrame.Leb128
import Machismo.Lua.EntityOpt
import Machismo.GdbJit.Lookup
import Machismo.Shim.ExceptionReason
import Machismo.Shim.MsgSend
import Machismo.Shim.Dispatch
import Machismo.Shim.InternTables
import Machismo.Sword3.TswRleRows
import Machismo.Sword3.MenuBagRuns
import Machismo.GdbJit.Registration
