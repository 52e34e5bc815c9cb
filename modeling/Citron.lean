import Citron.Lib.Resumption
import Citron.Lib.Return
import Citron.Lib.BinaryHeap
import Citron.Process.State
import Citron.Process.Ops
import Citron.Process.Plan
import Citron.Process.PlanRun
import Citron.Process.Sched
import Citron.Process.Invariant
import Citron.Process.Acts
import Citron.Process.Step
import Citron.Process.Ownership
import Citron.Process.Semaphore
import Citron.Process.Waiters
import Citron.Process.States
import Citron.Process.Frame
import Citron.Process.Free
import Citron.Process.Sleep
import Citron.Process.Return
import Citron.Process.Balance
import Citron.Lib.Delta
import Citron.Process.Delta
import Citron.Process.Signal
import Citron.Process.Broadcast
import Citron.Lib.Word
import Citron.Lib.Memory
import Citron.Lib.Release
import Citron.Lib.Radix
import Citron.Paging.Entry
import Citron.Paging.Table
import Citron.Paging.Refine
import Citron.Paging.Update
import Citron.Fs.FileSystem
import Citron.Fs.Fat
import Citron.Fs.Chain
import Citron.Fs.Read
import Citron.Fs.Chunks
import Citron.Fs.Tree
import Citron.Fs.Scan
import Citron.Fs.Names
import Citron.Fs.Ends
import Citron.Fs.Boot
import Citron.Fs.Logical
import Citron.Paging.Sv39
import Citron.Syscall
import Citron.Paging.Range
import Citron.Loader.Load
import Citron.Paging.Shield
import Citron.Paging.Leaf
import Citron.Paging.Init
import Citron.Lib.SaveArea
import Citron.Trap.Asm
import Citron.Trap.Return
import Citron.Loader.Setup
import Citron.Loader.Image
import Citron.Loader.Pinned
import Citron.Loader.Resources
import Citron.Loader.Leaves
import Citron.Loader.Release
import Citron.Loader.Isolation
import Citron.Lib.Trace
import Citron.Lib.Answers
import Citron.Lib.Overlay
import Citron.Graphics.Layers
import Citron.Graphics.Display
import Citron.Graphics.Redraw
import Citron.Graphics.Screen
import Citron.Graphics.Stale
import Citron.Graphics.Windows
import Citron.Graphics.Desk
import Citron.SpinLock
import Citron.Lib.Ring
import Citron.Virtio.Queue
import Citron.Virtio.Blk
import Citron.Virtio.Input
import Citron.Virtio.InputOwner
import Citron.Virtio.Mouse
import Citron.Virtio.GpuWait
import Citron.Virtio.Gpu
import Citron.Virtio.BlkRun
import Citron.Virtio.BlkMutex
import Citron.Virtio.BlkMatch
import Citron.Graphics.Stack
import Citron.Graphics.Press
import Citron.Graphics.Drag
import Citron.Process.Reap
import Citron.Fs.Listing
import Citron.Loader.Bounds
import Citron.Paging.Exact
import Citron.Paging.Clone
import Citron.Loader.Unmap
import Citron.Graphics.Pixels
import Citron.Lib.Counter
import Citron.Paging.Fields
import Citron.Fs.Rounds
import Citron.Fs.Sessions
import Citron.Syscall.Files
import Citron.Lib.Ticker
import Citron.Lib.Stacks
import Citron.Trap.Timer
import Citron.Process.RealTime
import Citron.Trap.Kernel
import Citron.Virtio.Slots
import Citron.Trap.Plic
import Citron.Graphics.Kproc
import Citron.Graphics.Sync
import Citron.Syscall.Drawing
