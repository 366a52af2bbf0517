import Mathlib.Algebra.Group.Nat.Defs
import Mathlib.Data.List.Basic

/-!
# The vendor ABI structures and the register words

The structures of `rknpu_ioctl.h` that the submit path reads, and the field
masks of `rocket_registers.h` that it writes through. Integers keep their C
width: a `u32` is a `BitVec 32`, and an `int` that holds the same 32 bits is
read through `BitVec.toInt`.
-/

namespace Rkopnu

/-- `u32`. -/
abbrev U32 := BitVec 32

/-- `u64`. -/
abbrev U64 := BitVec 64

/-- Error codes, without their minus sign. `other` is a code chosen by the kernel. -/
inductive Errno
  | inval
  | nomem
  | timedout
  | canceled
  | srch
  | other (code : Nat)
  deriving DecidableEq, Repr

/-- `struct rknpu_task`: the three fields the driver reads. -/
structure RknpuTask where
  intMask : U32
  regcfgAmount : U32
  regcmdAddr : U64
  deriving DecidableEq, Repr

/-- `sizeof(struct rknpu_task)`: eight `u32` and one `u64`, packed. -/
def sizeofRknpuTask : Nat := 8 * 4 + 8

/-- `struct rknpu_subcore_task`. -/
structure RknpuSubcoreTask where
  taskStart : U32
  taskNumber : U32
  deriving DecidableEq, Repr

/-- `struct rknpu_submit`: the fields `rkopnu_ioctl_submit` reads. Slot `i` of
`subcore_task` is the memory at `&subcore_task[i]`; the array has slots 0 to 4. -/
structure RknpuSubmit where
  flags : U32
  taskStart : U32
  taskNumber : U32
  taskCounter : U32
  taskObjAddr : U64
  iommuDomainId : U32
  taskBaseAddr : U64
  coreMask : U32
  subcoreTask : Nat → RknpuSubcoreTask

/-- `RKNPU_JOB_PINGPONG`. -/
def rknpuJobPingpong : U32 := 1#32 <<< 2

/-- The registers `rocket_job_hw_submit` and the IRQ path write. -/
inductive Reg
  | baseAddress
  | registerAmounts
  | interruptMask
  | interruptClear
  | taskCon
  | taskDmaBaseAddr
  | operationEnable
  | cnaSPointer
  | coreSPointer
  deriving DecidableEq, Repr

/-- One `writel`. -/
structure RegWrite where
  reg : Reg
  value : U32
  deriving DecidableEq, Repr

/-- The generated field packers: `((val) << SHIFT) & MASK`. -/
def packField (mask : U32) (shift : Nat) (val : U32) : U32 := (val <<< shift) &&& mask

/-- Read a field back out of a register word. -/
def readField (mask : U32) (shift : Nat) (word : U32) : U32 := (word &&& mask) >>> shift

/-- `CNA_S_POINTER_POINTER_PP_EN` and its `CORE_` twin. -/
def sPointerPointerPpEn : U32 → U32 := packField 0x00000002#32 1

/-- `CNA_S_POINTER_EXECUTER_PP_EN` and its `CORE_` twin. -/
def sPointerExecuterPpEn : U32 → U32 := packField 0x00000004#32 2

/-- `CNA_S_POINTER_POINTER_PP_MODE` and its `CORE_` twin. -/
def sPointerPointerPpMode : U32 → U32 := packField 0x00000008#32 3

/-- The `PC_TASK_CON_TASK_NUMBER` field of a `TASK_CON` word. -/
def taskConTaskNumber : U32 → U32 := readField 0x00000fff#32 0

/-- `PC_INTERRUPT_RAW_STATUS_DMA_READ_ERROR | PC_INTERRUPT_RAW_STATUS_DMA_WRITE_ERROR`. -/
def dmaErrorBits : U32 := 0x00001000#32 ||| 0x00002000#32

end Rkopnu
