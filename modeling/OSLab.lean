import OSLab.Common.SemaphoreRuns
import OSLab.Common.RbRuns
import OSLab.Fs.Commit.Durability
import OSLab.Fs.Commit.Crash
import OSLab.Kernel.Isolation
import OSLab.Kernel.UnalertableWait
import OSLab.Kernel.HeapRuns
import OSLab.Kernel.SchedProperties
import OSLab.Kernel.Containers
import OSLab.Common.IpcRuns
import OSLab.Kernel.ConsoleStream
import OSLab.Kernel.VmRuns
import OSLab.Kernel.ReadOnly
import OSLab.Fs.File.InodeRefs
import OSLab.Fs.File.PipeLife
import OSLab.Fs.Pipe.LockOrder
import OSLab.Fs.Inode.ListRuns
import OSLab.Fs.File.SharedOffset
import OSLab.Driver.Sd
import OSLab.Kernel.PidRuns
import OSLab.Kernel.ExecStack
import OSLab.Fs.Pipe.RingRuns
import OSLab.Fs.File.DeviceWrite
import OSLab.Fs.Inode.AllocRange
import OSLab.Fs.Cache.Recency
import OSLab.Common.IpcRemoval
import OSLab.Fs.File.Errors
import OSLab.Common.IpcSelect
import OSLab.Common.Memmove
import OSLab.Common.Format
import OSLab.Kernel.ConsoleKill
import OSLab.Kernel.DeviceRead
import OSLab.Kernel.PageCounters
