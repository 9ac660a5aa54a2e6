import Xv6.Lib.Bytes
import Xv6.Lib.Device
import Xv6.Lib.Trace
import Xv6.Lib.Tiles
import Xv6.Lib.Prog
import Xv6.Lib.Radix
import Xv6.Param
import Xv6.Bio
import Xv6.Log.Redo
import Xv6.Log.Crash
import Xv6.Log.Group
import Xv6.Log.GroupInv
import Xv6.Log.Reserve
import Xv6.Riscv
import Xv6.Mem.Kalloc
import Xv6.Mem.Vm
import Xv6.Mem.Table
import Xv6.Mem.Walk
import Xv6.Mem.Entry
import Xv6.Mem.Map
import Xv6.Mem.Refine
import Xv6.Mem.Own
import Xv6.Mem.Uvm
import Xv6.Mem.Free
import Xv6.Mem.Build
import Xv6.Proc.Pagetable
import Xv6.Mem.Grow
import Xv6.Mem.Copy
import Xv6.Mem.Bytewise
import Xv6.Mem.Deliver
import Xv6.Mem.Fork
import Xv6.Proc.Defs
import Xv6.Mem.Account
import Xv6.Proc.Space
import Xv6.Proc.Inv
import Xv6.Proc.Life
import Xv6.Proc.File
import Xv6.Proc.Pipe
import Xv6.Proc.Exit
import Xv6.Proc.Fork
import Xv6.Proc.Access
import Xv6.Proc.Image
import Xv6.Proc.Segments
import Xv6.Proc.Stack
import Xv6.Proc.Exec
import Xv6.Proc.Boot
import Xv6.Proc.Run
import Xv6.Proc.Owner
import Xv6.Proc.Loaded
import Xv6.Proc.Resize
import Xv6.Proc.Pgaccess
import Xv6.Proc.Isolation
import Xv6.Proc.Ident
import Xv6.Proc.Shared
import Xv6.Sched.Machine
import Xv6.Sched.Locks
import Xv6.Sched.OneCpu
import Xv6.Sched.Wakeup
import Xv6.Sched.Reap
import Xv6.Lib.Owns
import Xv6.Lib.Splice
import Xv6.Lib.Text
import Xv6.Printf
import Xv6.Mem.Print
import Xv6.Fs.Layout
import Xv6.Fs.Defs
import Xv6.Fs.Names
import Xv6.Fs.View
import Xv6.Fs.Blocks
import Xv6.Fs.Space
import Xv6.Fs.Disk
import Xv6.Fs.Bmap
import Xv6.Fs.Content
import Xv6.Fs.Image
import Xv6.Fs.Refine
import Xv6.Fs.Cache
import Xv6.Lib.Dll
import Xv6.Bio.Lru
import Xv6.Lib.Ring
import Xv6.Console
import Xv6.Ipc.Pipe
import Xv6.Ipc.Fifo
import Xv6.Ipc.Read
import Xv6.Ipc.Wake
import Xv6.Virtio.Driver
import Xv6.Virtio.Inv
import Xv6.Virtio.Protocol
import Xv6.Lib.Scan
import Xv6.Sh.Parse
import Xv6.Sh.Tokens
import Xv6.Sh.Grammar
import Xv6.Sh.Terminate
import Xv6.Mkfs.Defs
import Xv6.Mkfs.Sectors
import Xv6.Mkfs.Append
import Xv6.Mkfs.Build
import Xv6.Mkfs.Files
import Xv6.Mkfs.Main
import Xv6.Mkfs.Range
import Xv6.Fs.Lookup
import Xv6.Fs.Inside
import Xv6.Fs.Update
import Xv6.Fs.Entries
import Xv6.Fs.Dir
import Xv6.Fs.Unlink
import Xv6.Fs.Path
import Xv6.File.Defs
import Xv6.File.Read
import Xv6.Fs.Init
import Xv6.Mkfs.Agree
import Xv6.Itable.Defs
import Xv6.Itable.Entry
import Xv6.Itable.Table
import Xv6.Itable.Reuse
import Xv6.User.Malloc
import Xv6.User.Heap
import Xv6.User.Alloc
import Xv6.User.Grep
import Xv6.User.Lines
import Xv6.Clock
import Xv6.Memmove
import Xv6.User.Sbrk
import Xv6.User.Printf
