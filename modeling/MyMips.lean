import MyMips.Pipeline
import MyMips.DisasmInjective
import MyMips.FprConfinement
import MyMips.GuestMemory
import MyMips.Transparency
import MyMips.RunOutcome
import MyMips.SyscallBounds
import MyMips.ElfImage
import MyMips.JitBuffer
import MyMips.Unaligned
import MyMips.Arithmetic
import MyMips.Accumulator
import MyMips.ControlTargets
import MyMips.Footprint
import MyMips.MalformedElf
import MyMips.ReadString
import MyMips.Continue
import MyMips.MemoryView
import MyMips.CodeListing
import MyMips.CountLeading
import MyMips.ParseAddr
import MyMips.BlockStore
import MyMips.Streams
import MyMips.PendingKey
import MyMips.Logger
import MyMips.NativeRefine
import MyMips.Session
import MyMips.TerminalSession
import MyMips.JitCapacity
import MyMips.Separation
import MyMips.Replay
import MyMips.Interactions
import MyMips.Runtime
import MyMips.Main
