import Xv6.Lib.Runs
import Xv6.Lib.Bytes
import Xv6.Lib.Partial
import Xv6.Param
import Xv6.Log.Basic
import Xv6.Log.Admission
import Xv6.Bio.Cache
import Xv6.Bio.Coherence
import Xv6.Log.System
import Xv6.Log.Crash
import Xv6.Graphics.Text
import Xv6.Graphics.Hdc
import Xv6.Graphics.Spec
import Xv6.Graphics.Queued
import Xv6.Graphics.Handles
import Xv6.Graphics.Pointers
import Xv6.Fs.Calls
import Xv6.Fs.Disk
import Xv6.Lib.Ownership
import Xv6.Fs.Ownership
import Xv6.Lib.Ring
import Xv6.Pipe.Basic
import Xv6.Pipe.Stream
import Xv6.Pipe.Wakeup
import Xv6.Proc.Table
import Xv6.Proc.Wait
import Xv6.Proc.Kill
import Xv6.Graphics.Commands
import Xv6.Lib.Bresenham
import Xv6.Graphics.Sessions
import Xv6.Graphics.Screen
import Xv6.Graphics.Pens
import Xv6.Graphics.Strings
import Xv6.Graphics.Runs
import Xv6.Graphics.QueuedPens
import Xv6.Graphics.Overflow
import Xv6.Painter.Main
import Xv6.Lib.Lease
import Xv6.Painter.Contexts
import Xv6.Fs.Flat
import Xv6.Proc.Pids
import Xv6.Proc.Cpus
import Xv6.Proc.Sleep
import Xv6.Console.Input
import Xv6.Console.Display
import Xv6.Lib.Ledger
import Xv6.Vm.Pages
import Xv6.Vm.Exec
import Xv6.Kernel.Calls
import Xv6.Kernel.Files
import Xv6.Kernel.Conservation
import Xv6.Kernel.Boot
import Xv6.Fs.Syscalls
import Xv6.Fs.Balance
import Xv6.Graphics.Line
import Xv6.Graphics.Fill
import Xv6.Fs.Bytes
import Xv6.Fs.Sectors
import Xv6.Mkfs.Basic
import Xv6.Mkfs.Append
import Xv6.Mkfs.Contents
import Xv6.Mkfs.Image
import Xv6.Mkfs.Kernel
import Xv6.Shell.Grammar
import Xv6.Shell.Parse
import Xv6.Shell.Lexer
import Xv6.Shell.Correct
import Xv6.Lib.Extents
import Xv6.Malloc.Basic
import Xv6.Malloc.Free
import Xv6.Malloc.Alloc
import Xv6.Malloc.Heap
import Xv6.Uvm.Basic
import Xv6.Uvm.Erasure
import Xv6.Uvm.Space
import Xv6.Uvm.Pages
import Xv6.Uvm.Alloc
import Xv6.Uvm.Supply
import Xv6.Uvm.Fork
import Xv6.Uvm.Copyout
import Xv6.Uvm.Grow
import Xv6.Uvm.Exec
import Xv6.Uvm.Image
import Xv6.Uvm.Loadable
import Xv6.Uvm.Call
import Xv6.Uvm.System
import Xv6.Fs.Filewrite
import Xv6.Fs.Full
import Xv6.Fs.LogWrites
import Xv6.Grep.Match
import Xv6.Console.Keyboard
import Xv6.Console.Cursor
import Xv6.Console.Rejected
import Xv6.Graphics.Failed
import Xv6.Graphics.Stale
import Xv6.Painter.Isolation
import Xv6.Painter.Tokens
import Xv6.Uvm.Stack
import Xv6.Graphics.Numerals
import Xv6.Kernel.Memmove
import Xv6.Kernel.Mp
import Xv6.Uvm.Dealloc
import Xv6.Bio.List
import Xv6.Grep.Lines
import Xv6.Shell.Words
import Xv6.Ide.Driver
import Xv6.Ide.Errors
import Xv6.Ide.Schedule
import Xv6.Malloc.Request
import Xv6.Shell.Runcmd
import Xv6.Fs.Directory
import Xv6.Fs.Linking
import Xv6.Fs.Names
import Xv6.Lib.Modular
import Xv6.Fs.During
import Xv6.Fs.Processes
import Xv6.Spinlock.Basic
import Xv6.Spinlock.Exclusion
import Xv6.Proc.Rounds
import Xv6.Uvm.Isolation
import Xv6.Sleeplock.Basic
import Xv6.Sleeplock.Locks
import Xv6.Sleeplock.Wakeup
import Xv6.Kernel.Bootmain
import Xv6.Console.Keys
import Xv6.Uvm.Arguments
import Xv6.Ulib.Printf
