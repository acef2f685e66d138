import NovaOS.Drivers.GpuCreate
import NovaOS.Drivers.GpuFence
import NovaOS.Drivers.GpuIsolation
import NovaOS.Drivers.Hpet
import NovaOS.Drivers.NvGspQueue
import NovaOS.Drivers.NvPages
import NovaOS.Drivers.NvSequencer
import NovaOS.Drivers.NvWpr
import NovaOS.Drivers.NvmeRead
import NovaOS.Drivers.NvmeSubmit
import NovaOS.Drivers.Registry
import NovaOS.Fs.Crc
import NovaOS.Fs.Fat32Dir
import NovaOS.Fs.Fat32Read
import NovaOS.Ldso.CloseOnce
import NovaOS.Ldso.MainBase
import NovaOS.Ldso.Relocate
import NovaOS.Ldso.Segments
import NovaOS.Libc.Exit
import NovaOS.Mem.Memmove
import NovaOS.Mem.VmmKernel
import NovaOS.Sched.Exit
import NovaOS.Sched.InitStack
import NovaOS.Sched.SpawnKernel
import NovaOS.Sync.Mutex
import NovaOS.Sync.WaitQueue
import NovaOS.Syscall.FileThreads
import NovaOS.Syscall.Read
