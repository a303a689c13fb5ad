import Xv6.Raid.Modes
import Xv6.DiskSched.Serve
import Xv6.DiskSched.Flush
import Xv6.Vm.Resident
import Xv6.Vm.Rollback
import Xv6.Vm.Atomic
import Xv6.Vm.ForkFails
import Xv6.Vm.Progress
import Xv6.Vm.UserStr
import Xv6.Sched.RoundRobin
import Xv6.Sched.Dispatch
import Xv6.Sched.Boost
import Xv6.File.Refs
import Xv6.Log.Crash
import Xv6.Log.Admit
import Xv6.Bcache.Coherence
import Xv6.Proc.Family
import Xv6.Fs.Consistent
import Xv6.Virtio.Chains
import Xv6.Fs.Path
import Xv6.DiskSched.Compare
import Xv6.Fs.Exact
import Xv6.Fs.Reserve
import Xv6.Umalloc.Usable
import Xv6.Lib.Slots
import Xv6.Fs.DirOps
import Xv6.Fs.Reclaim
import Xv6.Fs.OpenFiles
import Xv6.Sh.Command
import Xv6.Grep.Lines
import Xv6.Console.Lines
