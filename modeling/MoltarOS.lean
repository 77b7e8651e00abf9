import MoltarOS.Drivers.Kbd
import MoltarOS.Drivers.Rtc
import MoltarOS.Drivers.RtcFormat
import MoltarOS.Drivers.Status
import MoltarOS.Drivers.Vga
import MoltarOS.Drivers.VgaColor
import MoltarOS.Drivers.VgaHistory
import MoltarOS.Drivers.VgaPrint
import MoltarOS.Drivers.VgaReserved
import MoltarOS.Drivers.VgaRows
import MoltarOS.Drivers.VgaSafety
import MoltarOS.Drivers.VgaScroll
import MoltarOS.Drivers.VgaSecrecy
import MoltarOS.Drivers.VgaStrips
import MoltarOS.Drivers.VgaTerminal
import MoltarOS.Ds.Array
import MoltarOS.Ds.Bounds
import MoltarOS.Ds.Checked
import MoltarOS.Kernel.Free
import MoltarOS.Kernel.Mem
import MoltarOS.Kernel.Multiboot
import MoltarOS.Lib.Asm
import MoltarOS.Lib.BitArray
import MoltarOS.Lib.Lineage
import MoltarOS.Lib.LinkedList
import MoltarOS.Lib.Loop
import MoltarOS.Lib.Machine
import MoltarOS.Lib.Memory
import MoltarOS.Lib.Numeral
import MoltarOS.Lib.Relocation
import MoltarOS.Lib.RoundRobin
import MoltarOS.Lib.Segments
import MoltarOS.Lib.Table
import MoltarOS.Lib.Trace
import MoltarOS.Lib.Word
import MoltarOS.Lib.Words
import MoltarOS.Libc.Printf
import MoltarOS.Libc.PrintfDigits
import MoltarOS.Libc.PrintfFormat
import MoltarOS.Libc.PrintfText
import MoltarOS.Libc.String
import MoltarOS.Mm.Alloc
import MoltarOS.Mm.AllocFrames
import MoltarOS.Mm.AllocSearch
import MoltarOS.Mm.AllocWrap
import MoltarOS.Mm.Heap
import MoltarOS.Mm.HeapArith
import MoltarOS.Mm.HeapBlock
import MoltarOS.Mm.HeapFit
import MoltarOS.Mm.HeapMem
import MoltarOS.Mm.HeapMemRuns
import MoltarOS.Mm.HeapReads
import MoltarOS.Mm.HeapRoundTrip
import MoltarOS.Mm.HeapRuns
import MoltarOS.Mm.HeapSafety
import MoltarOS.Mm.HeapSecrecy
import MoltarOS.Mm.HeapTrace
import MoltarOS.Mm.HeapWide
import MoltarOS.Mm.Superblocks
import MoltarOS.Sched.Context
import MoltarOS.Sched.Ids
import MoltarOS.Sched.Invariant
import MoltarOS.Sched.Logging
import MoltarOS.Sched.Machine
import MoltarOS.Sched.Queue
import MoltarOS.Sched.RoundRobin
import MoltarOS.Sched.Stack
import MoltarOS.Sched.TaskMem
import MoltarOS.Sched.TaskRefine
import MoltarOS.Sched.Typing
import MoltarOS.Sched.Yield
import MoltarOS.X86.Descriptor
import MoltarOS.X86.Gates
import MoltarOS.X86.Gdt
import MoltarOS.X86.Idt
import MoltarOS.X86.Pic
import MoltarOS.X86.Stubs
