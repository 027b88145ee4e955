import Hotarubi.Proofs.PhysmmProtection
import Hotarubi.Proofs.PhysmmBounds
import Hotarubi.Proofs.VirtmmAddress
import Hotarubi.Proofs.MmioWindow
import Hotarubi.Proofs.CacheReclaim
import Hotarubi.Proofs.KmallocSystem
import Hotarubi.Proofs.CoreRecords
import Hotarubi.Proofs.IdtVectors
import Hotarubi.Proofs.VcbprintfOutput
import Hotarubi.Proofs.MadtRecords
import Hotarubi.Proofs.ListSequences
import Hotarubi.Proofs.PrintkRing
import Hotarubi.Proofs.PhysmmFirstFit
import Hotarubi.Proofs.PhysmmFree
import Hotarubi.Proofs.VirtmmUnmap
import Hotarubi.Proofs.CacheGeometry
import Hotarubi.Proofs.CacheServing
import Hotarubi.Memory.Descriptors
import Hotarubi.Proofs.CacheTenancy
import Hotarubi.Proofs.CacheBalance
import Hotarubi.Proofs.DescriptorsPools
import Hotarubi.Proofs.DescriptorsConserved
import Hotarubi.Base.Numeral
import Hotarubi.Lib.Directive
import Hotarubi.Proofs.VcbprintfDirective
import Hotarubi.Proofs.VcbprintfInteger
import Hotarubi.Proofs.VcbprintfSigned
import Hotarubi.Proofs.VcbprintfPrecision
import Hotarubi.Proofs.MmioCheck
import Hotarubi.Proofs.MmioForest
import Hotarubi.Proofs.MmioRelease
import Hotarubi.Proofs.MmioSharing
import Hotarubi.Proofs.MmioRange
import Hotarubi.Proofs.MmioOrder
import Hotarubi.Proofs.VirtmmRollback
import Hotarubi.Proofs.KmallocRealloc
import Hotarubi.Processor.Apic
import Hotarubi.Proofs.IoapicEntries
import Hotarubi.Proofs.LapicCommands
import Hotarubi.Proofs.LapicNmi
import Hotarubi.Acpi.Tables
import Hotarubi.Proofs.AcpiLookup
import Hotarubi.Proofs.AcpiDiscovery
import Hotarubi.Proofs.MadtEntries
import Hotarubi.Proofs.VcbprintfZero
import Hotarubi.Proofs.VcbprintfBounded
import Hotarubi.Proofs.VcbprintfScanner
import Hotarubi.Proofs.VcbprintfFlags
import Hotarubi.Proofs.ListSplice
import Hotarubi.Proofs.SlistSequences
import Hotarubi.Proofs.GdtDescriptors
import Hotarubi.Proofs.HlistSequences
import Hotarubi.Proofs.ListMutable
import Hotarubi.Lib.Strings
import Hotarubi.Proofs.StringCompare
import Hotarubi.Proofs.Memmove
import Hotarubi.Proofs.StringSpans
import Hotarubi.Proofs.StringWriters
import Hotarubi.Lib.Cxxabi
import Hotarubi.Proofs.CxxabiFinalize
import Hotarubi.Proofs.PhysmmAddress
import Hotarubi.Proofs.PitDivider
import Hotarubi.Proofs.PhysmmProcessors
import Hotarubi.Proofs.InterruptVectors
import Hotarubi.Proofs.KmallocBlocks
import Hotarubi.Proofs.PhysmmReserved
import Hotarubi.Proofs.GuardInterleaving
import Hotarubi.Proofs.InterruptRouting
import Hotarubi.Proofs.StubPatching
import Hotarubi.Proofs.VirtmmRequests
import Hotarubi.Proofs.BootSwitch
import Hotarubi.Proofs.InterruptStacks
