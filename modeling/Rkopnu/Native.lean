import Rkopnu.Uapi
import Mathlib.Data.List.Count
import Mathlib.Logic.Function.Basic

/-!
# Submitting a native job

`rocket_ioctl_submit_job` copies the tasks of a job, looks its two lists of BOs up and
pushes it. Each of its error exits ends in the put of the only reference on the job, so
`rocket_job_cleanup` frees what the fields of the job say: an array whose pointer is set is
freed, and as many objects are put as the count beside the array says.

## Implementation notes

User memory is given by what `copy_from_user` reads at an address, the arrays of handles by
their contents. A freed array leaves its pointer as it was.
-/

namespace Rkopnu.Native

open Function (update)

/-- `EFAULT`. -/
def efault : Errno := .other 14

/-- `ENOENT`. -/
def enoent : Errno := .other 2

/-- `struct drm_rocket_task`. -/
structure DrmRocketTask where
  regcmd : U32
  regcmdCount : U32
  deriving DecidableEq, Repr

/-- `sizeof(struct drm_rocket_task)`. -/
def sizeofDrmRocketTask : Nat := 8

/-- `struct rocket_task`. -/
structure RocketTask where
  regcmd : U64
  regcmdCount : U32
  deriving DecidableEq, Repr

/-- `struct drm_rocket_job`; the counts of the handles are the lengths of the lists. -/
structure DrmRocketJob where
  tasks : U64
  inBoHandles : List U32
  outBoHandles : List U32
  taskCount : U32
  taskStructSize : U32

/-- What the kernel answers to one `drm_gem_objects_lookup`. -/
structure LookupAnswers where
  /-- The allocation of the array of objects. -/
  alloc : Bool
  /-- The copy of the handles. -/
  copy : Option Errno

/-- What `rocket_ioctl_submit_job` finds, and what the kernel answers to its calls. -/
structure Env where
  /-- What `copy_from_user` reads of a task at a user address. -/
  mem : U64 → Option DrmRocketTask
  /-- The GEM handles of the file. -/
  handles : U32 → Option Nat
  jobAlloc : Bool
  /-- `drm_sched_job_init`. -/
  schedInit : Option Errno
  taskAlloc : Bool
  inLookup : LookupAnswers
  outLookup : LookupAnswers
  /-- `rocket_iommu_domain_get`. -/
  domain : Option Errno
  /-- `rocket_job_push`. -/
  push : Option Errno

/-- How many arrays of a kind were allocated and freed. -/
structure Heap where
  allocated : Nat
  freed : Nat

/-- What the call changes outside its job. -/
structure World where
  /-- The references on each GEM object. -/
  refs : Nat → Int
  tasks : Heap
  inBos : Heap
  outBos : Heap
  jobs : Heap
  /-- The jobs initialised by `drm_sched_job_init` and not cleaned up. -/
  schedJobs : Int
  /-- The references that jobs hold on domain 0. -/
  domainRefs : Int

/-- The fields of `struct rocket_job` that a native submit fills. -/
structure Job where
  tasks : Option (List RocketTask)
  taskCount : U32
  inBos : Option (List Nat)
  inBoCount : Nat
  outBos : Option (List Nat)
  outBoCount : Nat
  /-- `job->domain` is set. -/
  domain : Bool
  refcount : Nat

/-- After `kzalloc_obj` and `kref_init`. -/
def Job.zero : Job where
  tasks := none
  taskCount := 0#32
  inBos := none
  inBoCount := 0
  outBos := none
  outBoCount := 0
  domain := false
  refcount := 1

/-- An allocation, if there was one. -/
def Heap.alloc (h : Heap) (made : Bool) : Heap :=
  { h with allocated := if made then h.allocated + 1 else h.allocated }

/-- `kvfree`, which does nothing on a null pointer. -/
def Heap.free (h : Heap) (set : Bool) : Heap :=
  { h with freed := if set then h.freed + 1 else h.freed }

/-- `drm_gem_object_get` on each object of a list. -/
def getAll (refs : Nat → Int) (objs : List Nat) : Nat → Int :=
  objs.foldl (fun r o => update r o (r o + 1)) refs

/-- `drm_gem_object_put` on each object of a list. -/
def putAll (refs : Nat → Int) (objs : List Nat) : Nat → Int :=
  objs.foldl (fun r o => update r o (r o - 1)) refs

/-- The address of the task `i` of the array: `i * job->task_struct_size` is a `u32`. -/
def taskAddr (args : DrmRocketJob) (i : Nat) : U64 :=
  args.tasks + (BitVec.ofNat 32 i * args.taskStructSize).setWidth 64

/-- One round of the loop of `rocket_copy_tasks`. -/
def copyTask (env : Env) (args : DrmRocketJob) (i : Nat) : Except Errno RocketTask :=
  match env.mem (taskAddr args i) with
  | none => .error efault
  | some task =>
      if task.regcmdCount = 0#32 then .error .inval
      else .ok ⟨task.regcmd.setWidth 64, task.regcmdCount⟩

/-- Where a call stands: its error so far, the job and the world. -/
abbrev Progress := Option Errno × Job × World

/-- `if (ret) goto out_cleanup_job`. -/
def Progress.andThen (p : Progress) (next : Job → World → Progress) : Progress :=
  match p with
  | (some e, j, w) => (some e, j, w)
  | (none, j, w) => next j w

/-- `rocket_copy_tasks`. -/
def rocketCopyTasks (env : Env) (args : DrmRocketJob) (j : Job) (w : World) : Progress :=
  if args.taskStructSize.toNat < sizeofDrmRocketTask then (some .inval, j, w)
  else
    let j := { j with taskCount := args.taskCount }
    if args.taskCount = 0#32 then (none, j, w)
    else if env.taskAlloc = false then (some .nomem, j, w)
    else
      let w := { w with tasks := w.tasks.alloc true }
      match (List.range args.taskCount.toNat).mapM (copyTask env args) with
      | .ok tasks => (none, { j with tasks := some tasks }, w)
      -- the array is freed here, and the pointer to it is kept
      | .error e => (some e, { j with tasks := some [] }, { w with tasks := w.tasks.free true })

/-- The objects found before the first handle that names none. -/
def found (handles : U32 → Option Nat) : List U32 → List Nat
  | [] => []
  | h :: rest =>
      match handles h with
      | none => []
      | some o => o :: found handles rest

/-- `drm_gem_objects_lookup`: the error, the array stored through the out-pointer, and the
references; on an error the objects found are left to the caller. -/
def drmGemObjectsLookup (handles : U32 → Option Nat) (ans : LookupAnswers)
    (wanted : List U32) (refs : Nat → Int) : Option Errno × Option (List Nat) × (Nat → Int) :=
  if wanted = [] then (none, none, refs)
  else if ans.alloc = false then (some .nomem, none, refs)
  else
    match ans.copy with
    | some e => (some e, some [], refs)
    | none =>
        let objs := found handles wanted
        (if objs.length = wanted.length then none else some enoent, some objs,
          getAll refs objs)

/-- The look-up of the BOs that the job reads. -/
def lookupIn (env : Env) (args : DrmRocketJob) (j : Job) (w : World) : Progress :=
  let r := drmGemObjectsLookup env.handles env.inLookup args.inBoHandles w.refs
  (r.1, { j with inBos := r.2.1, inBoCount := if r.1 = none then args.inBoHandles.length else 0 },
    { w with inBos := w.inBos.alloc r.2.1.isSome, refs := r.2.2 })

/-- The look-up of the BOs that the job writes. -/
def lookupOut (env : Env) (args : DrmRocketJob) (j : Job) (w : World) : Progress :=
  let r := drmGemObjectsLookup env.handles env.outLookup args.outBoHandles w.refs
  (r.1,
    { j with outBos := r.2.1, outBoCount := if r.1 = none then args.outBoHandles.length else 0 },
    { w with outBos := w.outBos.alloc r.2.1.isSome, refs := r.2.2 })

/-- The domain of the job, and `rocket_job_push`, which takes a reference for the scheduler
only when it succeeds. -/
def domainAndPush (env : Env) (j : Job) (w : World) : Progress :=
  match env.domain with
  | some e => (some e, j, w)
  | none =>
      let j := { j with domain := true }
      let w := { w with domainRefs := w.domainRefs + 1 }
      match env.push with
      | some e => (some e, j, w)
      | none => (none, { j with refcount := j.refcount + 1 }, w)

/-- The puts and the `kvfree` of one array of BOs in `rocket_job_cleanup`. -/
def putArray (bos : Option (List Nat)) (count : Nat) (refs : Nat → Int) : Nat → Int :=
  match bos with
  | none => refs
  | some objs => putAll refs (objs.take count)

/-- `rocket_job_cleanup`. -/
def rocketJobCleanup (j : Job) (w : World) : World :=
  { w with
    domainRefs := if j.domain then w.domainRefs - 1 else w.domainRefs
    refs := putArray j.outBos j.outBoCount (putArray j.inBos j.inBoCount w.refs)
    inBos := w.inBos.free j.inBos.isSome
    outBos := w.outBos.free j.outBos.isSome
    tasks := w.tasks.free j.tasks.isSome
    jobs := w.jobs.free true }

/-- `rocket_job_put`. -/
def rocketJobPut (j : Job) (w : World) : World :=
  if j.refcount = 1 then rocketJobCleanup j w else w

/-- `rocket_ioctl_submit_job` between `drm_sched_job_init` and `out_cleanup_job`. -/
def submitBody (env : Env) (args : DrmRocketJob) (w : World) : Progress :=
  (((rocketCopyTasks env args .zero w).andThen (lookupIn env args)).andThen
    (lookupOut env args)).andThen (domainAndPush env)

/-- `rocket_ioctl_submit_job`. -/
def rocketIoctlSubmitJob (env : Env) (args : DrmRocketJob) (w : World) :
    Option Errno × World :=
  if args.taskCount = 0#32 then (some .inval, w)
  else if env.jobAlloc = false then (some .nomem, w)
  else
    let w := { w with jobs := w.jobs.alloc true }
    match env.schedInit with
    | some e => (some e, rocketJobPut .zero w)
    | none =>
        let r := submitBody env args { w with schedJobs := w.schedJobs + 1 }
        (r.1, rocketJobPut r.2.1
          (if r.1 = none then r.2.2 else { r.2.2 with schedJobs := r.2.2.schedJobs - 1 }))

/-- What was allocated between the two is freed once. -/
def Heap.FreedOnce (h k : Heap) : Prop := k.freed + h.allocated = h.freed + k.allocated

instance (h k : Heap) : Decidable (h.FreedOnce k) := inferInstanceAs (Decidable (_ = _))

/-- Every object has the references of before, what was allocated is freed once, and neither
the scheduler nor the domain is left with anything of the call. -/
structure Unwound (w v : World) : Prop where
  refs : ∀ o, v.refs o = w.refs o
  tasks : w.tasks.FreedOnce v.tasks
  inBos : w.inBos.FreedOnce v.inBos
  outBos : w.outBos.FreedOnce v.outBos
  jobs : w.jobs.FreedOnce v.jobs
  schedJobs : v.schedJobs = w.schedJobs
  domainRefs : v.domainRefs = w.domainRefs

/-- Every task of the array can be read, and has a register command. -/
def TasksGood (env : Env) (args : DrmRocketJob) : Prop :=
  ∀ i < args.taskCount.toNat, ∃ task, env.mem (taskAddr args i) = some task ∧
    task.regcmdCount ≠ 0#32

/-- The look-up succeeds. -/
def LookupGood (handles : U32 → Option Nat) (ans : LookupAnswers) (wanted : List U32) : Prop :=
  wanted = [] ∨ (ans.alloc = true ∧ ans.copy = none ∧ ∀ h ∈ wanted, handles h ≠ none)

/-- The look-up finds an object first and fails at a later handle. -/
def LookupLeaks (handles : U32 → Option Nat) (ans : LookupAnswers) (wanted : List U32) : Prop :=
  ans.alloc = true ∧ ans.copy = none ∧ (∃ h rest, wanted = h :: rest ∧ handles h ≠ none) ∧
    ∃ h ∈ wanted, handles h = none

/-- The call does not fail between the allocation of the task array and the end of the copy,
nor in a look-up that has found an object. -/
def FailsClean (env : Env) (args : DrmRocketJob) : Prop :=
  args.taskCount = 0#32 ∨ env.jobAlloc = false ∨ env.schedInit ≠ none ∨
    args.taskStructSize.toNat < sizeofDrmRocketTask ∨ env.taskAlloc = false ∨
    (TasksGood env args ∧ ¬ LookupLeaks env.handles env.inLookup args.inBoHandles ∧
      (LookupGood env.handles env.inLookup args.inBoHandles →
        ¬ LookupLeaks env.handles env.outLookup args.outBoHandles))

section References

theorem getAll_apply (refs : Nat → Int) (objs : List Nat) (o : Nat) :
    getAll refs objs o = refs o + objs.count o := by
  induction objs generalizing refs with
  | nil => simp [getAll]
  | cons p rest ih =>
      change getAll (update refs p (refs p + 1)) rest o = _
      rw [ih, List.count_cons]
      by_cases hp : p = o
      · subst hp
        simp only [Function.update_self, beq_self_eq_true, if_true]
        omega
      · simp [Function.update_of_ne (Ne.symm hp), hp]

theorem putAll_apply (refs : Nat → Int) (objs : List Nat) (o : Nat) :
    putAll refs objs o = refs o - objs.count o := by
  induction objs generalizing refs with
  | nil => simp [putAll]
  | cons p rest ih =>
      change putAll (update refs p (refs p - 1)) rest o = _
      rw [ih, List.count_cons]
      by_cases hp : p = o
      · subst hp
        simp only [Function.update_self, beq_self_eq_true, if_true]
        omega
      · simp [Function.update_of_ne (Ne.symm hp), hp]

theorem putArray_apply (bos : Option (List Nat)) (count : Nat) (refs : Nat → Int) (o : Nat) :
    putArray bos count refs o = refs o - ((bos.getD []).take count).count o := by
  cases bos with
  | none => simp [putArray]
  | some objs => exact putAll_apply refs (objs.take count) o

/-- A count of zero for every object is the count of no object. -/
theorem eq_nil_of_count {objs : List Nat} (h : ∀ o, objs.count o = 0) : objs = [] :=
  List.eq_nil_iff_forall_not_mem.mpr fun o ho => List.count_eq_zero.mp (h o) ho

end References

section Lookup
variable {handles : U32 → Option Nat} {ans : LookupAnswers} {wanted : List U32}

theorem found_eq_nil_iff :
    found handles wanted = [] ↔ ¬ ∃ h rest, wanted = h :: rest ∧ handles h ≠ none := by
  cases wanted with
  | nil => simp [found]
  | cons h rest => cases hh : handles h <;> simp [found, hh]

theorem found_length_iff (handles : U32 → Option Nat) (wanted : List U32) :
    (found handles wanted).length = wanted.length ↔ ∀ h ∈ wanted, handles h ≠ none := by
  induction wanted with
  | nil => simp [found]
  | cons h rest ih => cases hh : handles h <;> simp [found, hh, ih]

/-- A look-up takes one reference for each entry of the array it stores. -/
theorem lookup_refs (refs : Nat → Int) (o : Nat) :
    (drmGemObjectsLookup handles ans wanted refs).2.2 o = refs o +
      ((drmGemObjectsLookup handles ans wanted refs).2.1.getD []).count o := by
  unfold drmGemObjectsLookup
  split
  · simp
  split
  · simp
  split
  · simp
  · exact getAll_apply refs _ o

theorem lookup_ok_iff (refs : Nat → Int) :
    (drmGemObjectsLookup handles ans wanted refs).1 = none ↔ LookupGood handles ans wanted := by
  unfold drmGemObjectsLookup LookupGood
  by_cases hempty : wanted = []
  · simp [hempty]
  cases halloc : ans.alloc with
  | false => simp [hempty]
  | true =>
      cases hcopy : ans.copy with
      | some e => simp [hempty]
      | none =>
          have hlength := found_length_iff handles wanted
          by_cases hall : ∀ h ∈ wanted, handles h ≠ none
          · simpa [hempty, hlength.mpr hall] using hall
          · simp [hempty, mt hlength.mp hall, hall]

/-- After a success the array has as many entries as handles were asked for. -/
theorem lookup_length {refs : Nat → Int}
    (ok : (drmGemObjectsLookup handles ans wanted refs).1 = none) :
    ((drmGemObjectsLookup handles ans wanted refs).2.1.getD []).length = wanted.length := by
  unfold drmGemObjectsLookup at ok ⊢
  by_cases hempty : wanted = []
  · simp [hempty]
  cases halloc : ans.alloc with
  | false => simp [hempty, halloc] at ok
  | true =>
      cases hcopy : ans.copy with
      | some e => simp [hempty, halloc, hcopy] at ok
      | none =>
          by_cases hlength : (found handles wanted).length = wanted.length
          · simp [hempty, hlength]
          · simp [hempty, halloc, hcopy, hlength] at ok

/-- After a failure the array is empty unless an object was found. -/
theorem lookup_nil_iff {refs : Nat → Int}
    (failed : (drmGemObjectsLookup handles ans wanted refs).1 ≠ none) :
    (drmGemObjectsLookup handles ans wanted refs).2.1.getD [] = [] ↔
      ¬ LookupLeaks handles ans wanted := by
  unfold LookupLeaks
  unfold drmGemObjectsLookup at failed ⊢
  by_cases hempty : wanted = []
  · simp [hempty] at failed
  cases halloc : ans.alloc with
  | false => simp [hempty]
  | true =>
      cases hcopy : ans.copy with
      | some e => simp [hempty]
      | none =>
          have hlength : ¬ (found handles wanted).length = wanted.length := by
            intro hlength
            simp [hempty, halloc, hcopy, hlength] at failed
          rw [found_length_iff] at hlength
          have hmissing : ∃ h ∈ wanted, handles h = none := by simpa using hlength
          simp only [hempty, if_false, Bool.true_eq_false, Option.getD_some, found_eq_nil_iff,
            true_and, hmissing, and_true]

/-- A look-up that succeeds leaves nothing to anyone. -/
theorem not_leaks_of_good (good : LookupGood handles ans wanted) :
    ¬ LookupLeaks handles ans wanted := by
  rintro ⟨-, -, -, h, hmem, hmissing⟩
  rcases good with hempty | ⟨-, -, hall⟩
  · simp [hempty] at hmem
  · exact hall h hmem hmissing

end Lookup

/-- The put of the job would leave everything as it was in `w`. -/
def Balanced (w : World) (j : Job) (v : World) : Prop :=
  j.refcount = 1 ∧ Unwound w (rocketJobCleanup j v)

section Stages
variable {env : Env} {args : DrmRocketJob} {j : Job} {w v : World}

theorem Heap.freedOnce_alloc {h k : Heap} {set : Bool} (once : h.FreedOnce k)
    (made : Bool) (hset : set = made) : h.FreedOnce ((k.alloc made).free set) := by
  subst hset
  unfold Heap.FreedOnce Heap.alloc Heap.free at *
  cases set <;> simp <;> omega

theorem copyTask_ok_iff (i : Nat) : (∃ t, copyTask env args i = .ok t) ↔
    ∃ task, env.mem (taskAddr args i) = some task ∧ task.regcmdCount ≠ 0#32 := by
  unfold copyTask
  cases hmem : env.mem (taskAddr args i) with
  | none => simp
  | some task => by_cases hcount : task.regcmdCount = 0#32 <;> simp [hcount]

/-- The copy succeeds exactly when every round of its loop does. -/
theorem mapM_ok_iff (is : List Nat) : (∃ ts, is.mapM (copyTask env args) = .ok ts) ↔
    ∀ i ∈ is, ∃ t, copyTask env args i = .ok t := by
  induction is with
  | nil => simp [pure, Except.pure]
  | cons i rest ih =>
      simp only [List.mapM_cons, List.forall_mem_cons, ← ih]
      cases htask : copyTask env args i with
      | error e => simp [bind, Except.bind]
      | ok t =>
          cases hrest : rest.mapM (copyTask env args) <;>
            simp [bind, Except.bind, pure, Except.pure]

theorem copy_ok_iff :
    (∃ ts, (List.range args.taskCount.toNat).mapM (copyTask env args) = .ok ts) ↔
      TasksGood env args := by
  rw [mapM_ok_iff]
  simp only [copyTask_ok_iff, List.mem_range]
  rfl

theorem cleanup_refs (j : Job) (v : World) (o : Nat) : (rocketJobCleanup j v).refs o =
    v.refs o - ((j.inBos.getD []).take j.inBoCount).count o -
      ((j.outBos.getD []).take j.outBoCount).count o := by
  simp only [rocketJobCleanup, putArray_apply]

/-- The copy leaves nothing to the put but the task array, and on a failure in its loop it
leaves that array to be freed twice. -/
theorem copyTasks_spec (env : Env) (bal : Balanced w .zero v) (hcount : args.taskCount ≠ 0#32) :
    ((rocketCopyTasks env args .zero v).1 = none ∧
      ¬ args.taskStructSize.toNat < sizeofDrmRocketTask ∧ env.taskAlloc = true ∧
      TasksGood env args ∧
      Balanced w (rocketCopyTasks env args .zero v).2.1 (rocketCopyTasks env args .zero v).2.2 ∧
      (rocketCopyTasks env args .zero v).2.1.inBos = none ∧
      (rocketCopyTasks env args .zero v).2.1.outBos = none) ∨
    ((rocketCopyTasks env args .zero v).1 ≠ none ∧
      (Balanced w (rocketCopyTasks env args .zero v).2.1
          (rocketCopyTasks env args .zero v).2.2 ↔
        args.taskStructSize.toNat < sizeofDrmRocketTask ∨ env.taskAlloc = false) ∧
      (args.taskStructSize.toNat < sizeofDrmRocketTask ∨ env.taskAlloc = false ∨
        ¬ TasksGood env args)) := by
  obtain ⟨hone, hunwound⟩ := bal
  unfold rocketCopyTasks
  by_cases hsize : args.taskStructSize.toNat < sizeofDrmRocketTask
  · refine Or.inr ?_
    simp only [hsize, if_true, true_or, iff_true]
    exact ⟨nofun, ⟨hone, hunwound⟩, trivial⟩
  · simp only [hsize, if_false, hcount, false_or]
    cases halloc : env.taskAlloc with
    | false =>
        refine Or.inr ?_
        simp only [if_true, iff_true, true_or, and_true]
        exact ⟨nofun, hone, { hunwound with }⟩
    | true =>
        have htasks := hunwound.tasks
        cases hloop : (List.range args.taskCount.toNat).mapM (copyTask env args) with
        | ok ts =>
            refine Or.inl ⟨rfl, not_false, rfl, copy_ok_iff.mp ⟨ts, hloop⟩, ⟨hone, ?_⟩, rfl, rfl⟩
            exact { hunwound with tasks := Heap.freedOnce_alloc htasks true rfl }
        | error e =>
            have hbad : ¬ TasksGood env args := by
              intro hgood
              obtain ⟨ts, hok⟩ := copy_ok_iff.mpr hgood
              simp [hloop] at hok
            refine Or.inr ⟨nofun, ?_, Or.inr hbad⟩
            refine iff_of_false (fun h => ?_) (by simp)
            have hbefore : v.tasks.freed + w.tasks.allocated =
                w.tasks.freed + v.tasks.allocated := htasks
            have htwice : v.tasks.freed + 1 + 1 + w.tasks.allocated =
                w.tasks.freed + (v.tasks.allocated + 1) := h.2.tasks
            omega

/-- What a look-up takes and what its put gives back: the same, unless it fails with objects
found. -/
theorem lookup_even_iff (handles : U32 → Option Nat) (ans : LookupAnswers)
    (wanted : List U32) (refs : Nat → Int) :
    let r := drmGemObjectsLookup handles ans wanted refs
    (∀ o, r.2.2 o - ((r.2.1.getD []).take (if r.1 = none then wanted.length else 0)).count o =
        refs o) ↔ r.1 = none ∨ ¬ LookupLeaks handles ans wanted := by
  intro r
  have htaken : ∀ o, r.2.2 o = refs o + (r.2.1.getD []).count o := lookup_refs refs
  by_cases hok : r.1 = none
  · have hlength : (r.2.1.getD []).length = wanted.length := lookup_length hok
    refine iff_of_true (fun o => ?_) (Or.inl hok)
    rw [if_pos hok, List.take_of_length_le (by omega), htaken]
    omega
  · have hnil : r.2.1.getD [] = [] ↔ ¬ LookupLeaks handles ans wanted := lookup_nil_iff hok
    rw [or_iff_right hok, ← hnil]
    simp only [if_neg hok, List.take_zero, List.count_nil, htaken]
    constructor
    · intro h
      refine eq_nil_of_count fun o => ?_
      have ho := h o
      omega
    · intro h o
      simp [h]

/-- When the put of a job gives back, over what it gave back before a look-up, what that
look-up stored, the references are those of before unless the look-up fails with objects
found. -/
theorem refs_even_iff (handles : U32 → Option Nat) (ans : LookupAnswers) (wanted : List U32)
    (refs : Nat → Int) {before after : World} (heven : ∀ o, before.refs o = w.refs o)
    (hgiven : let r := drmGemObjectsLookup handles ans wanted refs
      ∀ o, after.refs o - before.refs o = r.2.2 o -
        ((r.2.1.getD []).take (if r.1 = none then wanted.length else 0)).count o - refs o) :
    (∀ o, after.refs o = w.refs o) ↔
      (drmGemObjectsLookup handles ans wanted refs).1 = none ∨
        ¬ LookupLeaks handles ans wanted := by
  refine Iff.trans (forall_congr' fun o => ?_) (lookup_even_iff handles ans wanted refs)
  have hbefore := heven o
  have hafter := hgiven o
  constructor <;> intro h <;> omega

/-- The look-up of the BOs read leaves the put of the job even, unless it fails with objects
found. -/
theorem lookupIn_spec (env : Env) (args : DrmRocketJob) (bal : Balanced w j v)
    (hin : j.inBos = none) :
    Balanced w (lookupIn env args j v).2.1 (lookupIn env args j v).2.2 ↔
      (lookupIn env args j v).1 = none ∨
        ¬ LookupLeaks env.handles env.inLookup args.inBoHandles := by
  obtain ⟨hone, hunwound⟩ := bal
  refine Iff.trans ⟨fun h => h.2.refs, fun hrefs => ⟨hone, ?_⟩⟩
    (refs_even_iff env.handles env.inLookup args.inBoHandles v.refs hunwound.refs ?_)
  · have honce : w.inBos.FreedOnce v.inBos := by
      simpa [rocketJobCleanup, Heap.free, hin] using hunwound.inBos
    exact { hunwound with refs := hrefs, inBos := Heap.freedOnce_alloc honce _ rfl }
  · intro r o
    simp only [cleanup_refs, hin, Option.getD_none, List.take_nil, List.count_nil]
    simp only [lookupIn, r]
    omega

/-- The look-up of the BOs written, likewise. -/
theorem lookupOut_spec (env : Env) (args : DrmRocketJob) (bal : Balanced w j v)
    (hout : j.outBos = none) :
    Balanced w (lookupOut env args j v).2.1 (lookupOut env args j v).2.2 ↔
      (lookupOut env args j v).1 = none ∨
        ¬ LookupLeaks env.handles env.outLookup args.outBoHandles := by
  obtain ⟨hone, hunwound⟩ := bal
  refine Iff.trans ⟨fun h => h.2.refs, fun hrefs => ⟨hone, ?_⟩⟩
    (refs_even_iff env.handles env.outLookup args.outBoHandles v.refs hunwound.refs ?_)
  · have honce : w.outBos.FreedOnce v.outBos := by
      simpa [rocketJobCleanup, Heap.free, hout] using hunwound.outBos
    exact { hunwound with refs := hrefs, outBos := Heap.freedOnce_alloc honce _ rfl }
  · intro r o
    simp only [cleanup_refs, hout, Option.getD_none, List.take_nil, List.count_nil]
    simp only [lookupOut, r]
    omega

/-- A domain that was got is put with the job. -/
theorem domainAndPush_spec (bal : Balanced w j v) (hdomain : j.domain = false)
    (failed : (domainAndPush env j v).1 ≠ none) :
    Balanced w (domainAndPush env j v).2.1 (domainAndPush env j v).2.2 := by
  obtain ⟨hone, hunwound⟩ := bal
  unfold domainAndPush at failed ⊢
  cases hget : env.domain with
  | some e => exact ⟨hone, hunwound⟩
  | none =>
      cases hpush : env.push with
      | none => simp [hget, hpush] at failed
      | some e =>
          have hrefs : v.domainRefs = w.domainRefs := by
            simpa [rocketJobCleanup, hdomain] using hunwound.domainRefs
          exact ⟨hone, { hunwound with domainRefs := by simp [rocketJobCleanup, hrefs] }⟩

theorem Progress.andThen_failed {p : Progress} {next : Job → World → Progress}
    (h : p.1 ≠ none) : p.andThen next = p := by
  obtain ⟨r, j, w⟩ := p
  cases r with
  | none => exact absurd rfl h
  | some e => rfl

theorem Progress.andThen_ok {p : Progress} {next : Job → World → Progress}
    (h : p.1 = none) : p.andThen next = next p.2.1 p.2.2 := by
  obtain ⟨r, j, w⟩ := p
  cases r with
  | none => rfl
  | some e => cases h

theorem copyTasks_domain (env : Env) (args : DrmRocketJob) (v : World) :
    (rocketCopyTasks env args .zero v).2.1.domain = false := by
  unfold rocketCopyTasks
  split
  · rfl
  split
  · rfl
  split
  · rfl
  split <;> rfl

theorem copyTasks_refcount (env : Env) (args : DrmRocketJob) (v : World) :
    (rocketCopyTasks env args .zero v).2.1.refcount = 1 := by
  unfold rocketCopyTasks
  split
  · rfl
  split
  · rfl
  split
  · rfl
  split <;> rfl

theorem andThen_refcount {p : Progress} (next : Job → World → Progress)
    (hp : p.2.1.refcount = 1)
    (hnext : ∀ j w, j.refcount = 1 → (next j w).2.1.refcount = 1) :
    (p.andThen next).2.1.refcount = 1 := by
  by_cases hok : p.1 = none
  · rw [Progress.andThen_ok hok]
    exact hnext _ _ hp
  · rwa [Progress.andThen_failed hok]

/-- Until the push has succeeded the call holds the only reference on the job. -/
theorem submitBody_refcount (env : Env) (args : DrmRocketJob)
    (failed : (submitBody env args v).1 ≠ none) :
    (submitBody env args v).2.1.refcount = 1 := by
  have hin := andThen_refcount (lookupIn env args) (copyTasks_refcount env args v)
    fun _ _ h => h
  have hbefore := andThen_refcount (lookupOut env args) hin fun _ _ h => h
  unfold submitBody at failed ⊢
  generalize ((rocketCopyTasks env args .zero v).andThen (lookupIn env args)).andThen
    (lookupOut env args) = p at failed hbefore ⊢
  by_cases hok : p.1 = none
  · rw [Progress.andThen_ok hok] at failed ⊢
    unfold domainAndPush at failed ⊢
    cases hget : env.domain with
    | some e => exact hbefore
    | none =>
        cases hpush : env.push with
        | some e => exact hbefore
        | none => simp [hget, hpush] at failed
  · rwa [Progress.andThen_failed hok]

/-- Where a failed body leaves the put of the job even. -/
theorem submitBody_spec (bal : Balanced w .zero v) (hcount : args.taskCount ≠ 0#32)
    (failed : (submitBody env args v).1 ≠ none) :
    Balanced w (submitBody env args v).2.1 (submitBody env args v).2.2 ↔
      args.taskStructSize.toNat < sizeofDrmRocketTask ∨ env.taskAlloc = false ∨
      (TasksGood env args ∧ ¬ LookupLeaks env.handles env.inLookup args.inBoHandles ∧
        (LookupGood env.handles env.inLookup args.inBoHandles →
          ¬ LookupLeaks env.handles env.outLookup args.outBoHandles)) := by
  unfold submitBody at failed ⊢
  have hcopy := copyTasks_spec env bal hcount
  have hdomain := copyTasks_domain env args v
  generalize rocketCopyTasks env args .zero v = p at failed hcopy hdomain ⊢
  rcases hcopy with ⟨hok, hsize, halloc, hgood, hbal, hin, hout⟩ | ⟨hfail, hbal, hwhy⟩
  · simp only [hsize, halloc, hgood, Bool.true_eq_false, false_or, true_and]
    have hlookup := lookupIn_spec env args hbal hin
    have hinGood : (lookupIn env args p.2.1 p.2.2).1 = none ↔ _ := lookup_ok_iff p.2.2.refs
    have hout' : (lookupIn env args p.2.1 p.2.2).2.1.outBos = none := hout
    have hdomain' : (lookupIn env args p.2.1 p.2.2).2.1.domain = false := hdomain
    rw [Progress.andThen_ok hok] at failed ⊢
    generalize lookupIn env args p.2.1 p.2.2 = q at failed hlookup hinGood hout' hdomain' ⊢
    by_cases hq : q.1 = none
    · have hqbal := hlookup.mpr (Or.inl hq)
      have hnoLeak := not_leaks_of_good (hinGood.mp hq)
      have hlookup' := lookupOut_spec env args hqbal hout'
      have houtGood : (lookupOut env args q.2.1 q.2.2).1 = none ↔ _ := lookup_ok_iff q.2.2.refs
      have hdomain'' : (lookupOut env args q.2.1 q.2.2).2.1.domain = false := hdomain'
      rw [Progress.andThen_ok hq] at failed ⊢
      simp only [hnoLeak, not_false_iff, true_and, hinGood.mp hq, true_implies]
      generalize lookupOut env args q.2.1 q.2.2 = r at failed hlookup' houtGood hdomain'' ⊢
      by_cases hr : r.1 = none
      · have hrbal := hlookup'.mpr (Or.inl hr)
        rw [Progress.andThen_ok hr] at failed ⊢
        exact iff_of_true (domainAndPush_spec hrbal hdomain'' failed)
          (not_leaks_of_good (houtGood.mp hr))
      · rw [Progress.andThen_failed hr, hlookup', or_iff_right hr]
    · have hnot : ¬ LookupGood env.handles env.inLookup args.inBoHandles := mt hinGood.mpr hq
      have hfailed : (q.andThen (lookupOut env args)).1 ≠ none := by
        rwa [Progress.andThen_failed hq]
      rw [Progress.andThen_failed hfailed, Progress.andThen_failed hq, hlookup, or_iff_right hq]
      simp [hnot]
  · have hin : (p.andThen (lookupIn env args)).1 ≠ none := by
      rwa [Progress.andThen_failed hfail]
    have hout : ((p.andThen (lookupIn env args)).andThen (lookupOut env args)).1 ≠ none := by
      rwa [Progress.andThen_failed hin]
    rw [Progress.andThen_failed hout, Progress.andThen_failed hin,
      Progress.andThen_failed hfail, hbal]
    constructor
    · rintro (hsize | halloc)
      · exact Or.inl hsize
      · exact Or.inr (Or.inl halloc)
    · rintro (hsize | halloc | ⟨hgood, -⟩)
      · exact Or.inl hsize
      · exact Or.inr halloc
      · rcases hwhy with hsize | halloc | hbad
        · exact Or.inl hsize
        · exact Or.inr halloc
        · exact absurd hgood hbad

/-- For every job, every content of user memory and every answer of the kernel: a call that
returns an error has left every reference count as it was and freed all it allocated once,
exactly when it fails clean. -/
theorem failed_submit_unwound_iff {e : Errno} (h : rocketIoctlSubmitJob env args w = (some e, v)) :
    Unwound w v ↔ FailsClean env args := by
  have idle : Unwound w w := ⟨fun _ => rfl, rfl, rfl, rfl, rfl, rfl, rfl⟩
  unfold rocketIoctlSubmitJob at h
  unfold FailsClean
  by_cases hcount : args.taskCount = 0#32
  · simp only [hcount, if_true, Prod.mk.injEq] at h
    obtain ⟨-, rfl⟩ := h
    exact iff_of_true idle (Or.inl hcount)
  simp only [hcount, if_false, false_or] at h ⊢
  cases hjob : env.jobAlloc with
  | false =>
      simp only [hjob, if_true, Prod.mk.injEq] at h
      obtain ⟨-, rfl⟩ := h
      exact iff_of_true idle (Or.inl rfl)
  | true =>
      simp only [hjob, Bool.true_eq_false, if_false, false_or] at h ⊢
      have once : w.jobs.FreedOnce ((w.jobs.alloc true).free true) :=
        Heap.freedOnce_alloc rfl true rfl
      cases hsched : env.schedInit with
      | some e' =>
          simp only [hsched, Prod.mk.injEq] at h
          obtain ⟨-, rfl⟩ := h
          exact iff_of_true ⟨fun _ => rfl, rfl, rfl, rfl, once, rfl, rfl⟩ (Or.inl nofun)
      | none =>
          simp only [hsched, Prod.mk.injEq, ne_eq, not_true_eq_false, false_or] at h ⊢
          obtain ⟨hfailed, hv⟩ := h
          have start : Balanced { w with schedJobs := w.schedJobs + 1 } .zero
              { w with jobs := w.jobs.alloc true, schedJobs := w.schedJobs + 1 } :=
            ⟨rfl, fun _ => rfl, rfl, rfl, rfl, once, rfl, rfl⟩
          rw [← submitBody_spec start hcount (by rw [hfailed]; nofun)]
          have hone := submitBody_refcount env args
            (v := { w with jobs := w.jobs.alloc true, schedJobs := w.schedJobs + 1 })
            (by rw [hfailed]; nofun)
          generalize submitBody env args _ = p at hfailed hv hone ⊢
          rw [hfailed, if_neg nofun, rocketJobPut, if_pos hone] at hv
          subst hv
          constructor
          · rintro ⟨hrefs, htasks, hin, hout, hjobs, hsched, hdomain⟩
            have hback : p.2.2.schedJobs - 1 = w.schedJobs := hsched
            exact ⟨hone, hrefs, htasks, hin, hout, hjobs, Int.sub_eq_iff_eq_add.mp hback, hdomain⟩
          · rintro ⟨-, hrefs, htasks, hin, hout, hjobs, hsched, hdomain⟩
            have hmore : p.2.2.schedJobs = w.schedJobs + 1 := hsched
            exact ⟨hrefs, htasks, hin, hout, hjobs, Int.sub_eq_iff_eq_add.mpr hmore, hdomain⟩

end Stages

/-- Nothing is allocated, and every object has the reference of its handle. -/
def World.calm : World where
  refs := fun _ => 1
  tasks := ⟨0, 0⟩
  inBos := ⟨0, 0⟩
  outBos := ⟨0, 0⟩
  jobs := ⟨0, 0⟩
  schedJobs := 0
  domainRefs := 0

/-- A file with the handles 1 and 2, and user memory in which every task is good. -/
def plainEnv : Env where
  mem := fun _ => some ⟨0x1000#32, 8#32⟩
  handles := fun h => if h = 1#32 then some 1 else if h = 2#32 then some 2 else none
  jobAlloc := true
  schedInit := none
  taskAlloc := true
  inLookup := ⟨true, none⟩
  outLookup := ⟨true, none⟩
  domain := none
  push := none

/-- A job of two tasks that reads handle 1 and writes handle 2. -/
def plainJob : DrmRocketJob where
  tasks := 0x10000#64
  inBoHandles := [1#32]
  outBoHandles := [2#32]
  taskCount := 2#32
  taskStructSize := 8#32

/-- The tasks and the BOs of the call are in order, so that only its push fails. -/
theorem failsClean_on_push : FailsClean { plainEnv with push := some (.other 4) } plainJob := by
  refine Or.inr (Or.inr (Or.inr (Or.inr (Or.inr ⟨?_, ?_, fun _ => ?_⟩))))
  · exact fun i _ => ⟨_, rfl, by decide⟩
  · exact not_leaks_of_good (Or.inr ⟨rfl, rfl, by simp [plainJob, plainEnv]⟩)
  · exact not_leaks_of_good (Or.inr ⟨rfl, rfl, by simp [plainJob, plainEnv]⟩)

theorem failed_submit_unwound_iff_on_push :
    Unwound World.calm
      (rocketIoctlSubmitJob { plainEnv with push := some (.other 4) } plainJob World.calm).2 :=
  (failed_submit_unwound_iff (e := .other 4) (show rocketIoctlSubmitJob
      { plainEnv with push := some (.other 4) } plainJob World.calm = (some (.other 4), _)
      from rfl)).mpr failsClean_on_push

/-- A task without a register command has the task array freed twice, and a bad handle after
a good one leaves a reference behind. -/
theorem failed_submit_not_unwound :
    (¬ ∀ env args w v e, rocketIoctlSubmitJob env args w = (some e, v) → Unwound w v) ∧
      ¬ Unwound World.calm
        (rocketIoctlSubmitJob plainEnv { plainJob with inBoHandles := [1#32, 7#32] }
          World.calm).2 := by
  constructor
  · intro all
    have htasks := (all { plainEnv with mem := fun _ => some ⟨0x1000#32, 0#32⟩ } plainJob
      World.calm _ _ rfl).tasks
    exact absurd htasks (by decide)
  · intro unwound
    exact absurd (unwound.refs 1) (by decide)

end Rkopnu.Native
