import RiscvOsLab.Driver.Exclusive
import RiscvOsLab.Fs.Array
import RiscvOsLab.Fs.Cache
import RiscvOsLab.Fs.Paths
import RiscvOsLab.Kernel.Inodes
import RiscvOsLab.Kernel.Refinement
import RiscvOsLab.Mkfs.Capacity
import RiscvOsLab.Proc.Ownership
import RiscvOsLab.Proc.Reaping
import RiscvOsLab.Proc.Switch
import RiscvOsLab.Kernel.Lifetimes
import RiscvOsLab.Kernel.Allocator
import RiscvOsLab.Kernel.Exhaustion
import RiscvOsLab.Kernel.Transfer
import RiscvOsLab.Kernel.FailedOpen
import RiscvOsLab.Kernel.Loans
import RiscvOsLab.Fs.Buffers
import RiscvOsLab.Mkfs.Append
import RiscvOsLab.Driver.Printf
import RiscvOsLab.Fs.Lru
import RiscvOsLab.Fs.Bitmap
import RiscvOsLab.Driver.Request
import RiscvOsLab.Trap.Vectors
import RiscvOsLab.Kernel.Space
import RiscvOsLab.Kernel.Scheduler
import RiscvOsLab.Kernel.Isolation
import RiscvOsLab.Kernel.Registers
import RiscvOsLab.Kernel.Ledger
import RiscvOsLab.Trap.Start
import RiscvOsLab.Fs.Cut
import RiscvOsLab.Fs.CutTree
import RiscvOsLab.Kernel.PowerCut
import RiscvOsLab.Kernel.Survival
