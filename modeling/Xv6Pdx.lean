import Xv6Pdx.Pipe.Wakeup
import Xv6Pdx.Log.Crash
import Xv6Pdx.Fs.Balance
import Xv6Pdx.Proc.Arrays
import Xv6Pdx.Proc.Born
import Xv6Pdx.Bio.Coherence
import Xv6Pdx.Mem.Exclusive
import Xv6Pdx.Mkfs.Agree
import Xv6Pdx.Proc.SetPriority
import Xv6Pdx.Proc.Wait
import Xv6Pdx.Console.Discipline
import Xv6Pdx.Ide.Queue
import Xv6Pdx.Sh.Strings
import Xv6Pdx.Fs.Attr
import Xv6Pdx.Fs.Path
import Xv6Pdx.Fs.Directory
import Xv6Pdx.Vm.Copyout
import Xv6Pdx.Vm.Fork
import Xv6Pdx.Mp.Scan
import Xv6Pdx.Grep.Read
import Xv6Pdx.Proc.Promote
import Xv6Pdx.Syscall.Getprocs
import Xv6Pdx.Proc.Period
import Xv6Pdx.Umalloc.Kernel
import Xv6Pdx.Proc.Queue
import Xv6Pdx.Print.Dump
