import Helos.Theory.LinkedTree
import Helos.Util.Tree
import Helos.Util.TreeLayout
import Helos.Util.TreeOrder
import Helos.Theory.Run
import Helos.Util.TreeMap
import Helos.Memory.Physical
import Helos.Memory.PhysicalBits
import Helos.Theory.Ledger
import Helos.Memory.PhysicalLedger
import Helos.Smp.MutualExclusion
import Helos.Util.TreeEntries
import Helos.Memory.KernelMapping
import Helos.Smp.Switch
import Helos.Smp.SwitchSpec
import Helos.Smp.ThreadSpec
import Helos.Smp.Invariant
import Helos.Smp.Schedule
import Helos.Smp.NothingLost
import Helos.Smp.Stacks
import Helos.Memory.KernelRegions
import Helos.Memory.PageEntry
import Helos.Memory.PageTable
import Helos.Memory.PageMap
import Helos.Memory.PhysicalCompleteness
import Helos.Runtime.Utf8
import Helos.Runtime.Utf8Codec
import Helos.Filesystem.Vfs
import Helos.Filesystem.PathResolution
import Helos.Filesystem.MountTable
import Helos.Filesystem.OpenClose
import Helos.Filesystem.Ustar
import Helos.Filesystem.UstarTypes
import Helos.Smp.Bypass
import Helos.Memory.PageAllocated
import Helos.Memory.PageTree
import Helos.Memory.FreeAllocated
import Helos.Memory.Tlb
import Helos.Memory.FrameStock
import Helos.Memory.MapAllocated
import Helos.Memory.AllocateUndo
import Helos.Memory.AllocateReturns
import Helos.Theory.Refinement
import Helos.Theory.Ring
import Helos.Util.Queue
import Helos.Driver.Input
import Helos.Driver.PressedState
import Helos.Driver.Ps2
import Helos.Driver.KeyStream
import Helos.Driver.Ramdisk
import Helos.Driver.RamdiskSpec
import Helos.Driver.Slices
import Helos.Theory.Fields
import Helos.Execformat.Reloc
import Helos.Execformat.RelocSpec
import Helos.Smp.Conditions
import Helos.Smp.Wakeups
import Helos.Smp.StaleBlocks
import Helos.Graphics.Blit
import Helos.Graphics.Invalidation
import Helos.Graphics.Screen
import Helos.Graphics.Presents
import Helos.Graphics.Console
import Helos.Driver.EventStream
import Helos.Util.TreeIteration
import Helos.Util.TreeHeap
import Helos.Cppruntime.Strings
import Helos.Theory.Owners
import Helos.Cppruntime.StringOwnership
import Helos.Memory.HeapBreak
import Helos.Filesystem.UstarRead
import Helos.Theory.StringFields
import Helos.Filesystem.UstarPaths
import Helos.Theory.Scan
import Helos.Filesystem.UstarTraversal
import Helos.Filesystem.UstarReaddir
import Helos.Driver.MouseStream
import Helos.Graphics.Painting
import Helos.Graphics.Glyphs
import Helos.Graphics.Clipping
import Helos.Filesystem.Framebuffer
import Helos.Graphics.MouseOverlay
import Helos.Execformat.Load
import Helos.Execformat.RelocBounds
import Helos.Util.VectorList
import Helos.Runtime.MemoryMoves
import Helos.Memory.AllocateEnds
import Helos.Memory.TablesLinked
import Helos.Memory.FreeExact
import Helos.Memory.TableBooks
import Helos.Memory.PagingInit
import Helos.Runtime.ConsoleBuffer
import Helos.Driver.RamdiskZero
import Helos.Util.TreeSize
import Helos.Memory.BitmapRanges
import Helos.Theory.Lifo
import Helos.Util.Stack
import Helos.Runtime.Utf8Segments
import Helos.Smp.WakeupAccounts
import Helos.Smp.Channel
import Helos.Graphics.Xcursor
import Helos.Filesystem.Fat
import Helos.Driver.Serial
import Helos.Theory.Assembly
import Helos.Smp.IntSwitch
import Helos.Smp.ContextSwitch
import Helos.Smp.Preemption
import Helos.Interrupt.Gates
import Helos.Interrupt.Exceptions
import Helos.Filesystem.UstarArchive
import Helos.Filesystem.Initrd
import Helos.Graphics.MouseScroll
import Helos.Graphics.Paper
import Helos.Memory.InsidePages
import Helos.Memory.MissingTables
