import Rkopnu.Uapi

/-!
# Core routing, task selection and the register program

The pure part of the submit path: `rkopnu_ioctl_submit` fills a job and routes
it to a core, and `rocket_job_hw_submit` selects a task range on that core and
turns its first and last task into register writes. The comparisons and sums
are the `u32` operations the C expressions evaluate to.
-/

namespace Rkopnu

/-- `rknpu_wait_core_index`. -/
def rknpuWaitCoreIndex (coreMask : U32) : Nat :=
  if coreMask = 0x2#32 then 1
  else if coreMask = 0x4#32 then 2
  else 0

/-- `hweight32`. -/
def hweight32 (w : U32) : Nat := ((List.range 32).filter fun i => w.getLsbD i).length

/-- The fields of `struct rocket_job` that `rkopnu_ioctl_submit` fills once.
`core` is the index of the core whose entity the job was given to. -/
structure RocketJob where
  core : Nat
  taskCount : Nat
  rkSubcore : Nat → RknpuSubcoreTask
  rkUseCoreNum : Nat
  rkTaskBaseAddr : U64
  rkTaskStart : U32
  rkTaskNumber : U32
  rkPpEn : U32

/-- The core of a submit: the masked core when it is bound, core 0 otherwise. -/
def submitCore (numCores : Nat) (args : RknpuSubmit) : Nat :=
  let ci := rknpuWaitCoreIndex args.coreMask
  if numCores ≤ ci then 0 else ci

/-- The job `rkopnu_ioctl_submit` makes of its arguments. -/
def submitJob (numCores : Nat) (args : RknpuSubmit) : RocketJob where
  core := submitCore numCores args
  taskCount := 1
  rkSubcore := args.subcoreTask
  rkUseCoreNum := hweight32 (args.coreMask &&& 0x7#32)
  rkTaskBaseAddr := args.taskBaseAddr
  rkTaskStart := args.taskStart
  rkTaskNumber := args.taskNumber
  rkPpEn := if args.flags &&& rknpuJobPingpong ≠ 0#32 then 1#32 else 0#32

/-- The slot index `rocket_job_hw_submit` reads on core `ci`. -/
def subcoreSlot (useCoreNum ci : Nat) : Nat := if useCoreNum = 3 then ci + 2 else ci

/-- The guard of `rocket_job_hw_submit`: the slot is empty or escapes the
declared range, by the C comparisons. -/
def slotRejected (start number : U32) (slot : RknpuSubcoreTask) : Prop :=
  slot.taskNumber = 0#32 ∨ slot.taskStart < start ∨
    start + number < slot.taskStart + slot.taskNumber

instance (start number : U32) (slot : RknpuSubcoreTask) :
    Decidable (slotRejected start number slot) :=
  inferInstanceAs (Decidable (_ ∨ _ ∨ _))

/-- The pair `(ts, tn)` that `rocket_job_hw_submit` ends up with on core `ci`. -/
def taskRange (job : RocketJob) (ci : Nat) : U32 × U32 :=
  let slot := job.rkSubcore (subcoreSlot job.rkUseCoreNum ci)
  if slotRejected job.rkTaskStart job.rkTaskNumber slot
  then (job.rkTaskStart, job.rkTaskNumber)
  else (slot.taskStart, slot.taskNumber)

/-- The index of `first = &rk_tasks[ts]`; `ts` is an `int`. -/
def firstTask (job : RocketJob) (ci : Nat) : Int := (taskRange job ci).1.toInt

/-- The index of `last = &rk_tasks[ts + tn - 1]`; the sum is an `int`. -/
def lastTask (job : RocketJob) (ci : Nat) : Int :=
  ((taskRange job ci).1 + (taskRange job ci).2 - 1#32).toInt

/-- The `writel` sequence of `rocket_job_hw_submit`, in program order. -/
def hwSubmitWrites (job : RocketJob) (ci : Nat) (first last : RknpuTask) : List RegWrite :=
  let extraBit := 0x10000000#32 * BitVec.ofNat 32 ci
  let sPointer := sPointerPointerPpEn 1#32 ||| sPointerExecuterPpEn 1#32 |||
    sPointerPointerPpMode 1#32 ||| extraBit
  [⟨.baseAddress, 0x1#32⟩,
   ⟨.cnaSPointer, sPointer⟩,
   ⟨.coreSPointer, sPointer⟩,
   ⟨.baseAddress, first.regcmdAddr.setWidth 32⟩,
   ⟨.registerAmounts, (first.regcfgAmount + 4#32 + 2#32 - 1#32) / 2#32 - 1#32⟩,
   ⟨.interruptMask, last.intMask⟩,
   ⟨.interruptClear, first.intMask⟩,
   ⟨.taskCon, ((0x6#32 ||| job.rkPpEn) <<< 12) ||| (taskRange job ci).2⟩,
   ⟨.taskDmaBaseAddr, job.rkTaskBaseAddr.setWidth 32⟩,
   ⟨.operationEnable, 0x1#32⟩,
   ⟨.operationEnable, 0x0#32⟩]

/-- One pass through `rocket_job_hw_submit` that reached the hardware: the task
indices it read and the words it wrote. -/
structure Program where
  job : Nat
  core : Nat
  first : Int
  last : Int
  writes : List RegWrite
  deriving DecidableEq, Repr

/-- The program of job `j` on core `ci`, with `mem` the task array as mapped. -/
def hwProgram (job : RocketJob) (j ci : Nat) (mem : Int → RknpuTask) : Program where
  job := j
  core := ci
  first := firstTask job ci
  last := lastTask job ci
  writes := hwSubmitWrites job ci (mem (firstTask job ci)) (mem (lastTask job ci))

/-- The value a register is left with. -/
def Program.word (p : Program) (r : Reg) : U32 :=
  ((p.writes.reverse.find? fun w => w.reg = r).map RegWrite.value).getD 0#32

@[simp] theorem hwProgram_taskCon (job : RocketJob) (j ci : Nat) (mem : Int → RknpuTask) :
    (hwProgram job j ci mem).word .taskCon =
      ((0x6#32 ||| job.rkPpEn) <<< 12) ||| (taskRange job ci).2 := by
  simp [hwProgram, Program.word, hwSubmitWrites]

theorem rknpuWaitCoreIndex_le (coreMask : U32) : rknpuWaitCoreIndex coreMask ≤ 2 := by
  unfold rknpuWaitCoreIndex
  split <;> [decide; split <;> decide]

theorem submitCore_le (numCores : Nat) (args : RknpuSubmit) : submitCore numCores args ≤ 2 := by
  unfold submitCore
  dsimp only
  split
  · exact Nat.zero_le 2
  · exact rknpuWaitCoreIndex_le args.coreMask

/-- A submit routed by `rkopnu_ioctl_submit` reads one of the five slots. -/
theorem subcoreSlot_lt (numCores : Nat) (args : RknpuSubmit) :
    subcoreSlot (submitJob numCores args).rkUseCoreNum (submitJob numCores args).core < 5 := by
  have hcore : (submitJob numCores args).core ≤ 2 := submitCore_le numCores args
  unfold subcoreSlot
  split <;> omega

section TaskRange

/-- The `TASK_NUMBER` field has twelve bits; the bits above it do not reach into it. -/
theorem taskConTaskNumber_toNat (high tn : U32) :
    (taskConTaskNumber ((high <<< 12) ||| tn)).toNat = tn.toNat % 4096 := by
  have hword : taskConTaskNumber ((high <<< 12) ||| tn) =
      ((high <<< 12) ||| tn) &&& 0xfff#32 := by
    simp [taskConTaskNumber, readField]
  rw [hword, BitVec.toNat_and, BitVec.toNat_or]
  have hmask : (0xfff#32).toNat = 2 ^ 12 - 1 := rfl
  rw [hmask, Nat.and_two_pow_sub_one_eq_mod, Nat.or_mod_two_pow]
  have hhigh : (high <<< 12).toNat % 2 ^ 12 = 0 := by
    rw [BitVec.toNat_shiftLeft, Nat.shiftLeft_eq]
    omega
  rw [hhigh, Nat.zero_or]

end TaskRange

end Rkopnu
