import IosEmu.Buffer
import IosEmu.Common
import IosEmu.Endian
import IosEmu.GuestMemory
import IosEmu.Outcome
import IosEmu.Region
import IosEmu.SortedMap
import IosEmu.Utf8
import IosEmu.AddressSpace
import IosEmu.FlatMemory
import IosEmu.HostFs
import IosEmu.Sandbox
import IosEmu.Cpu
import IosEmu.Syscall
import IosEmu.FileStep
import IosEmu.SystemImage
import IosEmu.MachO
import IosEmu.FatFile
import IosEmu.Dyld
import IosEmu.Process
import IosEmu.ProcessStages
import IosEmu.Streams
import IosEmu.Binding
import IosEmu.LoadCommands
import IosEmu.Encode
import IosEmu.ParseEncode
import IosEmu.DyldInfo
import IosEmu.StubPage
import IosEmu.Machine
import IosEmu.ImportBinding
import IosEmu.SliceBase
import IosEmu.Objc
import IosEmu.Frameworks
import IosEmu.ShimDispatch
import IosEmu.Services
import IosEmu.WriteXorExecute
import IosEmu.MemoryPanics
import IosEmu.ServicePanics
import IosEmu.StreamPanics
import IosEmu.BuildPanics
import IosEmu.Segments
import IosEmu.SegmentBytes
import IosEmu.RecordBounds
import IosEmu.Reservation
import IosEmu.Refine
import IosEmu.Device
import IosEmu.DeviceLoad
import IosEmu.SyscallTrap
import IosEmu.Stores
import IosEmu.DeviceService
import IosEmu.FailedCall
import IosEmu.RunLoop
import IosEmu.PageBases
import IosEmu.BinaryEncode
import IosEmu.PlistPanics
import IosEmu.XmlPrint
import IosEmu.XmlDocument
import IosEmu.PlistNesting
import IosEmu.Install
import IosEmu.BumpHeap
import IosEmu.ObjcInvariant
import IosEmu.HeapContract
import IosEmu.RebaseCodes
import IosEmu.LazyEntries
import IosEmu.PointerAliases
import IosEmu.LazyBinder
import IosEmu.InitialStack
import IosEmu.AnonMappings
import IosEmu.Coherence
import IosEmu.Relocation
import IosEmu.BuildRegions
import IosEmu.Slide
import IosEmu.NumberTable
import IosEmu.Descriptors
import IosEmu.MemoryCopy
import IosEmu.LossyText
import IosEmu.FileReads
import IosEmu.CStrings
import IosEmu.FileWrites
import IosEmu.VectorWrites
import IosEmu.LexicalPath
import IosEmu.PathRouting
import IosEmu.PathIdentity
import IosEmu.BundleWrites
import IosEmu.Discovery
import IosEmu.Launch
import IosEmu.RetainCounts
import IosEmu.SuperSends
import IosEmu.ContainerIds
import IosEmu.XmlTotal
import IosEmu.PlistReferences
import IosEmu.PlistSizes
import IosEmu.CommandBytes
import IosEmu.CommandWalk
import IosEmu.Truncation
import IosEmu.OwnBytes
import IosEmu.JsonGrammar
import IosEmu.AppList
import IosEmu.XmlLayout
import IosEmu.XmlComments
import IosEmu.LebReads
import IosEmu.CodeIntegrity
import IosEmu.Registers
import IosEmu.NativeBackend
import IosEmu.NativeRun
import IosEmu.RefineOn
import IosEmu.DeviceSessions
import IosEmu.Isolation
import IosEmu.LazyOrder
import IosEmu.Footprint
import IosEmu.BundleReads
import IosEmu.AppLibrary
import IosEmu.AppLaunch
