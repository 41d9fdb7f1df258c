import AlvOS.Lib.ByteMemory
import AlvOS.Lib.Transition
import AlvOS.Lib.BlockList
import AlvOS.Lib.Word
import AlvOS.Lib.Fuel
import AlvOS.Lib.Computation
import AlvOS.CString
import AlvOS.Console
import AlvOS.Interrupts.Wait
import AlvOS.Interrupts.Stubs
import AlvOS.Keyboard.Count
import AlvOS.Keyboard.Modifiers
import AlvOS.Kmalloc.Requests
import AlvOS.Kmalloc.OutOfMemory
import AlvOS.Kmalloc.Invalid
import AlvOS.Kmalloc.Stats
import AlvOS.Kmalloc.Validate
import AlvOS.Kmalloc.Canonical
import AlvOS.Kmalloc.Report
import AlvOS.MemoryMap
import AlvOS.Multiboot.Decode
import AlvOS.Multiboot.Reads
import AlvOS.Shell.Commands
import AlvOS.Shell.Parse
import AlvOS.Shell.Session
import AlvOS.Shell.Keys
import AlvOS.Shell.Transcript
import AlvOS.Terminal.Boxes
import AlvOS.Terminal.Numbers
import AlvOS.ReservedFrames
import AlvOS.KernelStack
import AlvOS.MemoryTests.Memtest
import AlvOS.Shell.HeapCommands
import AlvOS.Interrupts.Descriptors
import AlvOS.Interrupts.Report
import AlvOS.Interrupts.Delivery
