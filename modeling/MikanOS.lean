import MikanOS.Library.Transition
import MikanOS.Library.Forest
import MikanOS.Library.PriorityQueue
import MikanOS.Library.FlatMemory
import MikanOS.Library.Stateful
import MikanOS.Library.RoundRobin
import MikanOS.Library.CString
import MikanOS.Library.Stride
import MikanOS.Library.X86
import MikanOS.Library.Preorder
import MikanOS.Error
import MikanOS.Memory.History
import MikanOS.Memory.Stat
import MikanOS.Memory.BootMap
import MikanOS.Memory.BootBounds
import MikanOS.Task.Dispatch
import MikanOS.Task.Handover
import MikanOS.Task.Fairness
import MikanOS.Task.ContextSwitch
import MikanOS.Task.MessageLoop
import MikanOS.Task.CallApp
import MikanOS.Library.X86Descriptors
import MikanOS.Task.Descriptors
import MikanOS.Task.ContextFrames
import MikanOS.Task.Processor
import MikanOS.Timer.TimerManager
import MikanOS.Timer.Delivery
import MikanOS.Timer.WaitMilliseconds
import MikanOS.Fat.RoundTrip
import MikanOS.Fat.EndOfFile
import MikanOS.Fat.Directory
import MikanOS.Fat.FullVolume
import MikanOS.Fat.Separation
import MikanOS.Fat.CreateFile
import MikanOS.Fat.Slices
import MikanOS.Fat.ChainAllocation
import MikanOS.Fat.Following
import MikanOS.Fat.Undisturbed
import MikanOS.Fat.Lookup
import MikanOS.Fat.PathElements
import MikanOS.Fat.Shelves
import MikanOS.Fat.PathResolution
import MikanOS.Fat.RepeatedSlashes
import MikanOS.Fat.Insertion
import MikanOS.Fat.DirectoryTree
import MikanOS.Fat.CreatedFile
import MikanOS.Fat.KeptDirectory
import MikanOS.Graphics.PixelWriter
import MikanOS.Graphics.WindowCalls
import MikanOS.Graphics.FrameBuffer
import MikanOS.Library.RowCopy
import MikanOS.Graphics.FrameMove
import MikanOS.Library.History
import MikanOS.Graphics.WindowBuffers
import MikanOS.Graphics.Layer
import MikanOS.Graphics.LayerStack
import MikanOS.Graphics.LayerEvents
import MikanOS.Graphics.StackOrder
import MikanOS.Graphics.Redraw
import MikanOS.Graphics.Mouse
import MikanOS.Graphics.MouseMessages
import MikanOS.Graphics.MouseCoordinates
import MikanOS.Graphics.Console
import MikanOS.Graphics.WindowCycle
import MikanOS.Terminal.PipeStream
import MikanOS.Terminal.LoadElf
import MikanOS.Boot.LoadKernel
import MikanOS.Terminal.PipeLifetime
import MikanOS.Terminal.AppLoads
import MikanOS.Terminal.ExecuteFile
import MikanOS.Terminal.LineBuffer
import MikanOS.Terminal.ExecuteLine
import MikanOS.Terminal.ReadDelim
import MikanOS.Terminal.InputKey
import MikanOS.Terminal.LineAccess
import MikanOS.Terminal.Splitting
import MikanOS.Terminal.ArgVector
import MikanOS.Terminal.Background
import MikanOS.Terminal.PrintToFD
import MikanOS.Terminal.Cursor
import MikanOS.Terminal.Printing
import MikanOS.Terminal.Utf8
import MikanOS.Paging.Machine
import MikanOS.Paging.PageMap
import MikanOS.Paging.Ownership
import MikanOS.Paging.AddressSpace
import MikanOS.Paging.CopyPageMaps
import MikanOS.Paging.LoadApp
import MikanOS.Paging.CopyOnWrite
import MikanOS.Paging.Instances
import MikanOS.Paging.KernelStores
import MikanOS.Paging.CleanPageMaps
import MikanOS.Paging.ExecuteFile
import MikanOS.Paging.Regions
import MikanOS.Paging.HeapGrowth
import MikanOS.Paging.Takes
import MikanOS.Paging.MappedFiles
import MikanOS.Paging.MissingPages
import MikanOS.Paging.IdentityMap
import MikanOS.Paging.PageFault
import MikanOS.Library.PathTree
import MikanOS.Paging.TableTree
import MikanOS.Paging.PageRange
import MikanOS.Paging.PageMapping
import MikanOS.Library.SparseMemory
import MikanOS.Paging.ApplicationHalf
import MikanOS.Terminal.CopySegments
import MikanOS.Terminal.ListedNames
import MikanOS.Usb.PortPhase
import MikanOS.Usb.Ring
import MikanOS.Usb.ArrayMap
import MikanOS.Usb.ArrayMapHistory
import MikanOS.Usb.ControlTransfer
import MikanOS.Usb.EventRing
import MikanOS.Usb.MemoryPool
import MikanOS.Usb.ControlMatching
import MikanOS.Usb.DescriptorWalk
import MikanOS.Usb.DescriptorBounds
import MikanOS.Usb.DeviceManager
import MikanOS.Usb.Keyboard
import MikanOS.Pci.Capabilities
import MikanOS.Pci.ScanBus
import MikanOS.Apps.TextViewer
import MikanOS.Apps.Rpn
