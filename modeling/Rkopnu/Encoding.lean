import Rkopnu.HwSubmit

/-!
# What a register program says

The range of tasks that `rocket_job_hw_submit` takes on a core, compared with the range
the job declares, and the words it writes, read back field by field with the masks of
`rocket_registers.h`. The range is kept in two `int`s and the words are put together
without masks, so both are faithful up to a bound on the values.
-/

namespace Rkopnu

section Fields

/-- The `PC_TASK_CON_TASK_PP_EN` field of a `TASK_CON` word. -/
def taskConTaskPpEn : U32 → U32 := readField 0x00001000#32 12

/-- The `PC_TASK_CON_TASK_COUNT_CLEAR` field of a `TASK_CON` word. -/
def taskConTaskCountClear : U32 → U32 := readField 0x00002000#32 13

/-- The `PC_REGISTER_AMOUNTS_PC_DATA_AMOUNT` field of a `REGISTER_AMOUNTS` word. -/
def registerAmountsPcDataAmount : U32 → U32 := readField 0x0000ffff#32 0

/-- The `PC_REGISTER_AMOUNTS_RESERVED_0` field of a `REGISTER_AMOUNTS` word. -/
def registerAmountsReserved : U32 → U32 := readField 0xffff0000#32 16

end Fields

namespace RocketJob
variable (job : RocketJob) (ci : Nat)

/-- The slot of `subcore_task` that `rocket_job_hw_submit` reads on core `ci`. -/
def slot : RknpuSubcoreTask := job.rkSubcore (subcoreSlot job.rkUseCoreNum ci)

/-- The range taken on core `ci` is not empty and lies in the declared range, over the
integers, with `ts` and `tn` read as the `int`s they are kept in. -/
structure RangeSound : Prop where
  slot_lt : subcoreSlot job.rkUseCoreNum ci < 5
  nonempty : 1 ≤ (taskRange job ci).2.toInt
  start_le : (job.rkTaskStart.toNat : Int) ≤ (taskRange job ci).1.toInt
  stop_le : (taskRange job ci).1.toInt + (taskRange job ci).2.toInt ≤
    job.rkTaskStart.toNat + job.rkTaskNumber.toNat

/-- The slot, when it passes the guard, and otherwise the declared range fits two `int`s. -/
def RangeFits : Prop :=
  if slotRejected job.rkTaskStart job.rkTaskNumber (job.slot ci) then
    job.rkTaskStart.toNat < 2 ^ 31 ∧ job.rkTaskNumber.toNat < 2 ^ 31
  else (job.slot ci).taskStart.toNat < 2 ^ 31 ∧ (job.slot ci).taskNumber.toNat < 2 ^ 31

/-- The core has a slot in `subcore_task`. -/
def HasSlot : Prop := if job.rkUseCoreNum = 3 then ci < 3 else ci < 5

instance : Decidable (job.RangeFits ci) := inferInstanceAs (Decidable (ite _ _ _))

instance : Decidable (job.HasSlot ci) := inferInstanceAs (Decidable (ite _ _ _))

end RocketJob

section Range
variable {job : RocketJob} {ci : Nat}

theorem subcoreSlot_lt_iff : subcoreSlot job.rkUseCoreNum ci < 5 ↔ job.HasSlot ci := by
  unfold subcoreSlot RocketJob.HasSlot
  split
  · omega
  · rfl

theorem taskRange_of_rejected
    (h : slotRejected job.rkTaskStart job.rkTaskNumber (job.slot ci)) :
    taskRange job ci = (job.rkTaskStart, job.rkTaskNumber) :=
  if_pos h

theorem taskRange_of_accepted
    (h : ¬ slotRejected job.rkTaskStart job.rkTaskNumber (job.slot ci)) :
    taskRange job ci = ((job.slot ci).taskStart, (job.slot ci).taskNumber) :=
  if_neg h

/-- A word is a number from 0 on as an `int` exactly when it is below 2^31. -/
theorem toInt_nonneg_iff (w : U32) : 0 ≤ w.toInt ↔ w.toNat < 2 ^ 31 := by
  have := w.isLt
  rw [BitVec.toInt_eq_toNat_cond]
  split <;> omega

theorem toInt_of_small {w : U32} (h : w.toNat < 2 ^ 31) : w.toInt = w.toNat :=
  BitVec.toInt_eq_toNat_of_lt (by omega)

/-- A slot that passes the guard is not empty, starts in the declared range and, as its
sum does not wrap, ends there. -/
theorem bounds_of_accepted {start number : U32} {slot : RknpuSubcoreTask}
    (h : ¬ slotRejected start number slot)
    (hfits : slot.taskStart.toNat < 2 ^ 31 ∧ slot.taskNumber.toNat < 2 ^ 31) :
    1 ≤ slot.taskNumber.toNat ∧ start.toNat ≤ slot.taskStart.toNat ∧
      slot.taskStart.toNat + slot.taskNumber.toNat ≤ start.toNat + number.toNat := by
  obtain ⟨hnumber, hstart, hstop⟩ : slot.taskNumber ≠ 0#32 ∧ ¬ slot.taskStart < start ∧
      ¬ start + number < slot.taskStart + slot.taskNumber := by
    simpa [slotRejected] using h
  have hpos : slot.taskNumber.toNat ≠ 0 := fun hz => hnumber (BitVec.eq_of_toNat_eq hz)
  rw [BitVec.lt_def] at hstart hstop
  rw [BitVec.toNat_add, BitVec.toNat_add, Nat.mod_eq_of_lt (a := _ + slot.taskNumber.toNat)
    (by omega)] at hstop
  have hwrap := Nat.mod_le (start.toNat + number.toNat) (2 ^ 32)
  omega

/-- For every job and every core, the range that `rocket_job_hw_submit` takes is sound
exactly when the core has a slot and the range fits the `int`s. -/
theorem range_sound_iff (job : RocketJob) (ci : Nat) (h : 1 ≤ job.rkTaskNumber.toNat) :
    job.RangeSound ci ↔ job.HasSlot ci ∧ job.RangeFits ci := by
  unfold RocketJob.RangeFits
  constructor
  · rintro ⟨hslot, hnonempty, hstart, -⟩
    refine ⟨subcoreSlot_lt_iff.mp hslot, ?_⟩
    have hts := (toInt_nonneg_iff _).mp (show 0 ≤ (taskRange job ci).1.toInt by omega)
    have htn := (toInt_nonneg_iff _).mp (show 0 ≤ (taskRange job ci).2.toInt by omega)
    split
    · next hreject => simpa [taskRange_of_rejected hreject] using And.intro hts htn
    · next haccept => simpa [taskRange_of_accepted haccept] using And.intro hts htn
  · rintro ⟨hslot, hfits⟩
    have hlt := subcoreSlot_lt_iff.mpr hslot
    split at hfits
    · next hreject =>
      refine ⟨hlt, ?_, ?_, ?_⟩ <;>
        simp only [taskRange_of_rejected hreject, toInt_of_small hfits.1,
          toInt_of_small hfits.2] <;> omega
    · next haccept =>
      have hbounds := bounds_of_accepted haccept hfits
      refine ⟨hlt, ?_, ?_, ?_⟩ <;>
        simp only [taskRange_of_accepted haccept, toInt_of_small hfits.1,
          toInt_of_small hfits.2] <;> omega

/-- Two tasks declared from 0 on, and every slot the range `(start, 2)`. -/
def twoTaskSubmit (start : U32) : RknpuSubmit where
  flags := rknpuJobPingpong
  taskStart := 0#32
  taskNumber := 2#32
  taskCounter := 0#32
  taskObjAddr := 0x1000#64
  iommuDomainId := 0#32
  taskBaseAddr := 0x1000#64
  coreMask := 0x1#32
  subcoreTask := fun _ => ⟨start, 2#32⟩

theorem range_sound_iff_two_tasks : (submitJob 3 (twoTaskSubmit 0#32)).RangeSound 0 :=
  (range_sound_iff (submitJob 3 (twoTaskSubmit 0#32)) 0 (by decide)).mpr (by decide)

/-- A slot that starts one task below zero passes the guard: its sum wraps to 1. -/
theorem negative_start_unsound :
    ¬ ∀ (job : RocketJob) (ci : Nat), 1 ≤ job.rkTaskNumber.toNat → job.RangeSound ci := by
  intro h
  have hstart := (h (submitJob 3 (twoTaskSubmit 0xffffffff#32)) 0 (by decide)).start_le
  exact absurd hstart (by decide)

end Range

section Words
variable {numCores : Nat} {args : RknpuSubmit} {j ci : Nat} {mem : Int → RknpuTask}

/-- The words of a program say what the job says: `tn` tasks, its ping-pong bit and the
clear bit, the amount of register commands in the first task, and the two addresses. -/
structure Decodes (job : RocketJob) (ci : Nat) (first : RknpuTask) (p : Program) : Prop where
  taskNumber : taskConTaskNumber (p.word .taskCon) = (taskRange job ci).2
  taskPpEn : taskConTaskPpEn (p.word .taskCon) = job.rkPpEn
  taskCountClear : taskConTaskCountClear (p.word .taskCon) = 1#32
  pcDataAmount : (registerAmountsPcDataAmount (p.word .registerAmounts)).toNat =
    (first.regcfgAmount.toNat + 4 + 1) / 2 - 1
  reserved : registerAmountsReserved (p.word .registerAmounts) = 0#32
  baseAddress : (p.word .baseAddress).toNat = first.regcmdAddr.toNat
  taskDmaBaseAddr : (p.word .taskDmaBaseAddr).toNat = job.rkTaskBaseAddr.toNat

/-- The values a program is put together from fit the fields they go to. -/
structure FieldsFit (job : RocketJob) (ci : Nat) (first : RknpuTask) : Prop where
  number : if slotRejected job.rkTaskStart job.rkTaskNumber (job.slot ci)
    then job.rkTaskNumber.toNat < 2 ^ 12 else (job.slot ci).taskNumber.toNat < 2 ^ 12
  amount : first.regcfgAmount.toNat ≤ 131068
  address : first.regcmdAddr.toNat < 2 ^ 32
  taskBase : job.rkTaskBaseAddr.toNat < 2 ^ 32

@[simp] theorem hwProgram_registerAmounts (job : RocketJob) :
    (hwProgram job j ci mem).word .registerAmounts =
      ((mem (firstTask job ci)).regcfgAmount + 4#32 + 2#32 - 1#32) / 2#32 - 1#32 := by
  simp [hwProgram, Program.word, hwSubmitWrites]

@[simp] theorem hwProgram_baseAddress (job : RocketJob) :
    (hwProgram job j ci mem).word .baseAddress =
      (mem (firstTask job ci)).regcmdAddr.setWidth 32 := by
  simp [hwProgram, Program.word, hwSubmitWrites]

@[simp] theorem hwProgram_taskDmaBaseAddr (job : RocketJob) :
    (hwProgram job j ci mem).word .taskDmaBaseAddr = job.rkTaskBaseAddr.setWidth 32 := by
  simp [hwProgram, Program.word, hwSubmitWrites]

/-- A field of one bit holds that bit. -/
theorem readField_twoPow (k : Nat) (w : U32) :
    readField (BitVec.twoPow 32 k) k w = if w.getLsbD k ∧ k < 32 then 1#32 else 0#32 := by
  apply BitVec.eq_of_getLsbD_eq
  intro i hi
  simp only [readField, BitVec.getLsbD_ushiftRight, BitVec.and_twoPow]
  split <;> split <;> simp_all

/-- A bit of `TASK_CON` above a task number of twelve bits is the bit put there. -/
theorem taskCon_bit {high tn : U32} (htn : tn.toNat < 2 ^ 12) {k : Nat} (hk : 12 ≤ k) :
    ((high <<< 12) ||| tn).getLsbD k = (high <<< 12).getLsbD k := by
  have hlow : tn.getLsbD k = false :=
    Nat.testBit_lt_two_pow (Nat.lt_of_lt_of_le htn (Nat.pow_le_pow_right (by decide) hk))
  rw [BitVec.getLsbD_or, hlow, Bool.or_false]

theorem rkPpEn_bit (numCores : Nat) (args : RknpuSubmit) :
    (submitJob numCores args).rkPpEn = 0#32 ∨ (submitJob numCores args).rkPpEn = 1#32 := by
  unfold submitJob
  dsimp only
  split
  · exact Or.inr rfl
  · exact Or.inl rfl

theorem taskPpEn_of_fits {pp tn : U32} (hpp : pp = 0#32 ∨ pp = 1#32)
    (htn : tn.toNat < 2 ^ 12) : taskConTaskPpEn (((0x6#32 ||| pp) <<< 12) ||| tn) = pp := by
  have hmask : taskConTaskPpEn = readField (BitVec.twoPow 32 12) 12 := rfl
  rw [hmask, readField_twoPow, taskCon_bit htn (Nat.le_refl 12)]
  rcases hpp with rfl | rfl <;> decide

theorem taskCountClear_of_fits {pp tn : U32} (hpp : pp = 0#32 ∨ pp = 1#32)
    (htn : tn.toNat < 2 ^ 12) :
    taskConTaskCountClear (((0x6#32 ||| pp) <<< 12) ||| tn) = 1#32 := by
  have hmask : taskConTaskCountClear = readField (BitVec.twoPow 32 13) 13 := rfl
  rw [hmask, readField_twoPow, taskCon_bit htn (by decide)]
  rcases hpp with rfl | rfl <;> decide

/-- The `TASK_NUMBER` field holds the number exactly when the number has twelve bits. -/
theorem taskNumber_eq_iff (high tn : U32) :
    taskConTaskNumber ((high <<< 12) ||| tn) = tn ↔ tn.toNat < 2 ^ 12 := by
  rw [← BitVec.toNat_inj, taskConTaskNumber_toNat]
  omega

/-- The number of a range is the slot's or the declared one, as the guard says. -/
theorem taskRange_number_lt_iff (job : RocketJob) (ci bound : Nat) :
    (taskRange job ci).2.toNat < bound ↔
      if slotRejected job.rkTaskStart job.rkTaskNumber (job.slot ci)
      then job.rkTaskNumber.toNat < bound else (job.slot ci).taskNumber.toNat < bound := by
  split
  · next hreject => rw [taskRange_of_rejected hreject]
  · next haccept => rw [taskRange_of_accepted haccept]

/-- The sum in `REGISTER_AMOUNTS`, while it does not wrap. -/
theorem registerAmounts_toNat (amount : U32) (h : amount.toNat + 5 < 2 ^ 32) :
    ((amount + 4#32 + 2#32 - 1#32) / 2#32 - 1#32).toNat = (amount.toNat + 4 + 1) / 2 - 1 := by
  have hsum : (amount + 4#32 + 2#32 - 1#32).toNat = amount.toNat + 5 := by
    simp only [BitVec.toNat_sub, BitVec.toNat_add, BitVec.toNat_ofNat]
    omega
  have htwo : (2#32).toNat = 2 := rfl
  have hone : (1#32).toNat = 1 := rfl
  rw [BitVec.toNat_sub, BitVec.toNat_udiv, hsum, htwo, hone]
  omega

theorem registerAmountsPcDataAmount_toNat (w : U32) :
    (registerAmountsPcDataAmount w).toNat = w.toNat % 2 ^ 16 := by
  have hword : registerAmountsPcDataAmount w = w &&& 0xffff#32 := by
    simp [registerAmountsPcDataAmount, readField]
  have hmask : (0xffff#32).toNat = 2 ^ 16 - 1 := rfl
  rw [hword, BitVec.toNat_and, hmask, Nat.and_two_pow_sub_one_eq_mod]

theorem registerAmountsReserved_of_small {w : U32} (h : w.toNat < 2 ^ 16) :
    registerAmountsReserved w = 0#32 := by
  apply BitVec.eq_of_getLsbD_eq
  intro i _
  have hhigh : w.getLsbD (16 + i) = false :=
    Nat.testBit_lt_two_pow (Nat.lt_of_lt_of_le h (Nat.pow_le_pow_right (by decide) (by omega)))
  simp [registerAmountsReserved, readField, hhigh]

/-- The amount of register commands is in its field, and the reserved bits are zero,
exactly when the amount is at most 131068. -/
theorem pcDataAmount_eq_iff (amount : U32) :
    ((registerAmountsPcDataAmount ((amount + 4#32 + 2#32 - 1#32) / 2#32 - 1#32)).toNat =
        (amount.toNat + 4 + 1) / 2 - 1 ∧
      registerAmountsReserved ((amount + 4#32 + 2#32 - 1#32) / 2#32 - 1#32) = 0#32) ↔
    amount.toNat ≤ 131068 := by
  rw [registerAmountsPcDataAmount_toNat]
  constructor
  · rintro ⟨hfield, -⟩
    have hsmall := Nat.mod_lt ((amount + 4#32 + 2#32 - 1#32) / 2#32 - 1#32).toNat
      (show 0 < 2 ^ 16 by decide)
    omega
  · intro hamount
    have hword := registerAmounts_toNat amount (by omega)
    constructor
    · rw [hword, Nat.mod_eq_of_lt (by omega)]
    · exact registerAmountsReserved_of_small (by omega)

theorem setWidth_toNat_eq_iff (address : U64) :
    (address.setWidth 32).toNat = address.toNat ↔ address.toNat < 2 ^ 32 := by
  rw [BitVec.toNat_setWidth]
  omega

/-- 4096 tasks declared, and no slot filled. -/
def longSubmit : RknpuSubmit :=
  { twoTaskSubmit 0#32 with
    flags := 0#32
    taskNumber := 0x1000#32
    subcoreTask := fun _ => ⟨0#32, 0#32⟩ }

end Words

end Rkopnu
