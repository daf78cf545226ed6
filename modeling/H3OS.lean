import H3OS.Types
import H3OS.Lib.Memory
import H3OS.Lib.Blocks
import H3OS.Lib.Chain
import H3OS.Lib.Cstr
import H3OS.Lib.Exclusive
import H3OS.Lib.Forest
import H3OS.Lib.Line
import H3OS.Lib.Loop
import H3OS.Lib.Numeral
import H3OS.Lib.Pack
import H3OS.Lib.Picture
import H3OS.Lib.Ring
import H3OS.Lib.Stack
import H3OS.Lib.Tiling
import H3OS.Lib.Trace
import H3OS.Lib.Words
import H3OS.Boot.Multiboot
import H3OS.Pmm.Model
import H3OS.Pmm.Bits
import H3OS.Pmm.Theorems
import H3OS.Pmm.Counting
import H3OS.Pmm.Addressable
import H3OS.Pmm.FirstFit
import H3OS.Pmm.RamSize
import H3OS.Vmm.Model
import H3OS.Vmm.Tables
import H3OS.Vmm.Theorems
import H3OS.Vmm.Rights
import H3OS.Vmm.Machine
import H3OS.Vmm.OnPages
import H3OS.Heap.Model
import H3OS.Heap.List
import H3OS.Heap.Invariant
import H3OS.Heap.Sound
import H3OS.Heap.Steps
import H3OS.Heap.Theorems
import H3OS.Heap.Backed
import H3OS.Heap.Machine
import H3OS.Heap.Limits
import H3OS.Heap.Alignment
import H3OS.Heap.Realloc
import H3OS.Heap.Frame
import H3OS.Sched.Model
import H3OS.Sched.Theorems
import H3OS.Sched.RoundRobin
import H3OS.Sync.Model
import H3OS.Sync.Exclusion
import H3OS.Interrupts.Model
import H3OS.Interrupts.Stub
import H3OS.Interrupts.Runs
import H3OS.Interrupts.Lines
import H3OS.Pe.Model
import H3OS.Pe.Builder
import H3OS.Pe.Reloc
import H3OS.Pe.Exact
import H3OS.Pe.Layout
import H3OS.Pe.RoundTrip
import H3OS.Pe.Release
import H3OS.Pe.Headers
import H3OS.Vfs.Model
import H3OS.Vfs.Tree
import H3OS.Vfs.Paths
import H3OS.Vfs.Calls
import H3OS.Vfs.Chdir
import H3OS.Vfs.Buffers
import H3OS.Vfs.Unlink
import H3OS.Vfs.Rename
import H3OS.Vfs.Created
import H3OS.Vfs.Copy
import H3OS.Vfs.Raw
import H3OS.Vfs.Ownership
import H3OS.Vfs.Machine
import H3OS.Vfs.WriteRead
import H3OS.Vfs.OnHeap
import H3OS.Vfs.Resolve
import H3OS.Vfs.Slots
import H3OS.Keyboard.Model
import H3OS.Keyboard.Decode
import H3OS.Keyboard.Fifo
import H3OS.Mouse.Model
import H3OS.Mouse.Packets
import H3OS.Framebuffer.Line
import H3OS.Framebuffer.Surface
import H3OS.Framebuffer.Paint
import H3OS.Framebuffer.Layers
import H3OS.Framebuffer.Shapes
import H3OS.Framebuffer.Text
import H3OS.Framebuffer.Display
import H3OS.Wm.Model
import H3OS.Wm.Table
import H3OS.Wm.Focus
import H3OS.Wm.Geometry
import H3OS.Wm.Paint
import H3OS.Terminal.Screen
import H3OS.Terminal.Packages
import H3OS.Terminal.Words
import H3OS.Terminal.Files
import H3OS.Terminal.Buffers
import H3OS.Terminal.PackageDb
import H3OS.Terminal.Scrollback
import H3OS.Desktop.Model
import H3OS.Desktop.Clicks
import H3OS.Desktop.Frame
import H3OS.Kernel.Bytes
import H3OS.Kernel.Idle
import H3OS.Kernel.Numbers
import H3OS.Kernel.Log
