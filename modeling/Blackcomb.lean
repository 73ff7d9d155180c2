import Blackcomb.Lib.Run
import Blackcomb.Lib.Simulation
import Blackcomb.Lib.Ring
import Blackcomb.Lib.Memory
import Blackcomb.Lib.Chain
import Blackcomb.Lib.Bitmap
import Blackcomb.Lib.Budget
import Blackcomb.Lib.Relates
import Blackcomb.Lib.Exclusive
import Blackcomb.Lib.Radix
import Blackcomb.Lib.X86
import Blackcomb.Lib.X86Tables
import Blackcomb.Lib.Paging
import Blackcomb.Lib.Walk
import Blackcomb.Fault
import Blackcomb.Libc.String
import Blackcomb.Libc.Printf
import Blackcomb.Libc.Ntoa
import Blackcomb.Kernel.State
import Blackcomb.Kernel.Sched
import Blackcomb.Kernel.Tty
import Blackcomb.Kernel.System
import Blackcomb.Kernel.Interrupt
import Blackcomb.Kernel.Tables
import Blackcomb.Kernel.Boot
import Blackcomb.Mm.Kmalloc
import Blackcomb.Mm.Pmm
import Blackcomb.Mm.Multiboot
import Blackcomb.Mm.Vmm
import Blackcomb.Fs.Exec
import Blackcomb.Drivers.Ata
import Blackcomb.Fs.Ext2
import Blackcomb.Fs.Accesses
import Blackcomb.Kernel.Machine
import Blackcomb.Kernel.Entry
import Blackcomb.Kernel.Descriptor
import Blackcomb.Laws.Mm.Blocks
import Blackcomb.Laws.Mm.Kmalloc
import Blackcomb.Laws.Mm.Clients
import Blackcomb.Laws.Mm.Shape
import Blackcomb.Laws.Mm.Pmm
import Blackcomb.Laws.Mm.OneBit
import Blackcomb.Laws.Mm.Multiboot
import Blackcomb.Laws.Mm.Recorded
import Blackcomb.Laws.Mm.Tables
import Blackcomb.Laws.Mm.Mapping
import Blackcomb.Laws.Mm.Areas
import Blackcomb.Laws.Mm.Spaces
import Blackcomb.Laws.Mm.Mmap
import Blackcomb.Laws.Mm.MmNew
import Blackcomb.Laws.Mm.Fork
import Blackcomb.Laws.Mm.Teardown
import Blackcomb.Laws.Mm.Boot
import Blackcomb.Laws.Mm.Ownership
import Blackcomb.Laws.Mm.Walk
import Blackcomb.Mm.Copy
import Blackcomb.Laws.Mm.Copy
import Blackcomb.Laws.Mm.Drawing
import Blackcomb.Laws.Mm.Prune
import Blackcomb.Laws.Mm.Isolation
import Blackcomb.Laws.Mm.Agreement
import Blackcomb.Laws.Mm.Carried
import Blackcomb.Laws.Mm.Processor
import Blackcomb.Laws.Mm.Outside
import Blackcomb.Laws.Mm.Stores
import Blackcomb.Laws.Mm.Accounts
import Blackcomb.Laws.Mm.Reclaim
import Blackcomb.Laws.Mm.Permissions
import Blackcomb.Laws.Mm.Exhaustion
import Blackcomb.Laws.Mm.Books
import Blackcomb.Laws.Fs.Segments
import Blackcomb.Laws.Fs.Spaces
import Blackcomb.Laws.Fs.Stores
import Blackcomb.Laws.Fs.Exec
import Blackcomb.Laws.Fs.Image
import Blackcomb.Laws.Kernel.Frame
import Blackcomb.Laws.Kernel.Steps
import Blackcomb.Laws.Kernel.RunRing
import Blackcomb.Laws.Kernel.Mms
import Blackcomb.Laws.Kernel.Stacks
import Blackcomb.Laws.Kernel.Status
import Blackcomb.Laws.Kernel.Fairness
import Blackcomb.Laws.Kernel.Tree
import Blackcomb.Laws.Kernel.Wakeup
import Blackcomb.Laws.Kernel.Queue
import Blackcomb.Laws.Kernel.Pids
import Blackcomb.Laws.Kernel.Stdin
import Blackcomb.Laws.Kernel.TtyBuffer
import Blackcomb.Laws.Kernel.Vgaterm
import Blackcomb.Laws.Kernel.Files
import Blackcomb.Laws.Kernel.KernelHalf
import Blackcomb.Laws.Kernel.Memories
import Blackcomb.Laws.Kernel.Window
import Blackcomb.Laws.Kernel.Counts
import Blackcomb.Laws.Fs.Overrun
import Blackcomb.Laws.Fs.Inside
import Blackcomb.Laws.Fs.Getdents
import Blackcomb.Laws.Fs.BlockMap
import Blackcomb.Laws.Mm.Payloads
import Blackcomb.Laws.Drivers.Ata
import Blackcomb.Laws.Fs.Inode
import Blackcomb.Laws.Fs.ReadFile
import Blackcomb.Laws.Fs.Addresses
import Blackcomb.Laws.Fs.Holes
import Blackcomb.Laws.Fs.Mount
import Blackcomb.Laws.Fs.Lookup
import Blackcomb.Laws.Fs.Namei
import Blackcomb.Laws.Fs.Accesses
import Blackcomb.Laws.Fs.Rounds
import Blackcomb.Laws.Fs.Listing
import Blackcomb.Laws.Fs.Directory
import Blackcomb.Laws.Kernel.Context
import Blackcomb.Laws.Kernel.Entry
import Blackcomb.Laws.Kernel.ForkFrame
import Blackcomb.Laws.Libc.String
import Blackcomb.Laws.Kernel.Descriptor
import Blackcomb.Laws.Libc.Printf
import Blackcomb.Laws.Libc.Ntoa
import Blackcomb.Laws.Kernel.Interrupt
import Blackcomb.Laws.Kernel.Tables
import Blackcomb.Laws.Kernel.Boot
import Blackcomb.Laws.Kernel.Handover
import Blackcomb.Drivers.AtaPorts
import Blackcomb.Laws.Drivers.AtaPorts
