import Xv6.Lib.Bytes
import Xv6.Lib.Window
import Xv6.Lib.CString
import Xv6.Lib.Prog
import Xv6.Lib.Writes
import Xv6.Lib.Runs
import Xv6.Lib.Adds
import Xv6.Lib.Own
import Xv6.Lib.Ring
import Xv6.Params
import Xv6.Log.Disk
import Xv6.Log.Crash
import Xv6.Log.Protocol
import Xv6.Log.Admission
import Xv6.Log.Spill
import Xv6.Bio.Cache
import Xv6.Bio.Lru
import Xv6.Fs.State
import Xv6.Fs.Code
import Xv6.Fs.Layout
import Xv6.Fs.Volume
import Xv6.Fs.Alloc
import Xv6.Fs.Bmap
import Xv6.Fs.Content
import Xv6.Fs.Inode
import Xv6.Mkfs.Image
import Xv6.Mkfs.Append
import Xv6.Mkfs.Made
import Xv6.Mkfs.Disk
import Xv6.Mkfs.ReadBack
import Xv6.Mkfs.Overflow
import Xv6.Fs.File
import Xv6.Fs.Sys
import Xv6.Fs.Proc
import Xv6.Fs.System
import Xv6.Fs.Fsck
import Xv6.Fs.FileBytes
import Xv6.Fs.PipeCalls
import Xv6.Lib.Monitor
import Xv6.Pipe.Sections
import Xv6.Pipe.Stream
import Xv6.Pipe.Wakeup
import Xv6.Log.Group
import Xv6.Log.Durable
import Xv6.Proc.Table
import Xv6.Proc.Sched
import Xv6.Proc.Life
import Xv6.Proc.Steps
import Xv6.Proc.Reap
import Xv6.Proc.Kill
import Xv6.Proc.Notify
import Xv6.Proc.Pids
import Xv6.Proc.Waits
import Xv6.Proc.SleepLock
import Xv6.Proc.Interrupts
import Xv6.Proc.Fair
import Xv6.Console.Input
import Xv6.Console.Discipline
import Xv6.Lib.Footprint
import Xv6.Lib.Amortize
import Xv6.Lib.Slots
import Xv6.Lib.Copy
import Xv6.Trap.Args
import Xv6.Trap.Calls
import Xv6.Trap.Dispatch
import Xv6.Trap.Blocked
import Xv6.Trap.Bounds
import Xv6.Trap.History
import Xv6.Trap.Ticks
import Xv6.User.Login
import Xv6.User.Shell
import Xv6.User.Parse
import Xv6.User.Grammar
import Xv6.User.Runcmd
import Xv6.User.Memmove
import Xv6.User.Match
import Xv6.User.Grep
import Xv6.Lib.Tiles
import Xv6.Lib.RingList
import Xv6.User.Heap
import Xv6.User.Malloc
import Xv6.User.HeapRuns
import Xv6.Boot.Mp
import Xv6.Boot.Bootmain
import Xv6.Vm.Memory
import Xv6.Vm.Frames
import Xv6.Vm.Isolate
import Xv6.Vm.Walk
import Xv6.Vm.Loops
import Xv6.Vm.Space
import Xv6.Vm.AddressMap
import Xv6.Vm.AllOrNothing
import Xv6.Vm.Exec
import Xv6.Vm.Machine
import Xv6.Proc.Views
import Xv6.Vm.Task
import Xv6.Vm.Files
import Xv6.Vm.Roles
import Xv6.Vm.Calls
import Xv6.Vm.Boot
import Xv6.Vm.Pages
import Xv6.Vm.AddressSpace
import Xv6.Vm.Grow
import Xv6.Vm.Fork
import Xv6.Vm.Isolation
import Xv6.Vm.ExecSafe
import Xv6.Vm.Argv
import Xv6.Fs.Frame
import Xv6.Fs.OpenModes
import Xv6.Fs.ChunkLog
import Xv6.Fs.FileWrite
import Xv6.Fs.Directory
import Xv6.Fs.Paths
import Xv6.Ide.Driver
import Xv6.Ide.Refine
