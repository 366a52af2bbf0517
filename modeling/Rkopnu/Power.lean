import Mathlib.Data.List.Count
import Mathlib.Data.List.Nodup
import Mathlib.Logic.Function.Basic

/-!
# The shared power unit of the cores

`rocket_device.c`: one reference count for all jobs, and one runtime-PM usage
count per core device. The devices are visited in core-index order, so the
loops over `num_cores` are folds over the list of devices in the core table.
Each function here runs with `pm_lock` held from its first line to its last.

## Implementation notes

A runtime-PM put on a count of zero leaves it at zero, which is what natural
subtraction does. `pm_runtime_put_autosuspend` and `pm_runtime_put_noidle`
differ in when the device may idle, not in what they do to the count.
-/

namespace Rkopnu

/-- `pm_refcount`, the usage counts the driver holds, and whether the
`WARN_ON(rdev->pm_refcount == 0)` of a put has ever fired. -/
structure PowerUnit where
  refcount : Nat
  usage : Nat → Nat
  warned : Bool

namespace Power

/-- A successful `pm_runtime_resume_and_get`. -/
def resumeAndGet (usage : Nat → Nat) (dev : Nat) : Nat → Nat :=
  Function.update usage dev (usage dev + 1)

/-- `pm_runtime_put_autosuspend` and `pm_runtime_put_noidle`. -/
def put (usage : Nat → Nat) (dev : Nat) : Nat → Nat :=
  Function.update usage dev (usage dev - 1)

/-- The put loops: one put for every listed device. -/
def putAll (usage : Nat → Nat) (devs : List Nat) : Nat → Nat := devs.foldl put usage

/-- The loop of `rocket_device_pm_resume_unit`. `taken` lists the devices
resumed so far, last first, which is the order of the unwinding loop. -/
def resumeLoop (resume : Nat → Bool) (taken : List Nat) (usage : Nat → Nat) :
    List Nat → Bool × (Nat → Nat)
  | [] => (true, usage)
  | dev :: rest =>
      if resume dev then resumeLoop resume (dev :: taken) (resumeAndGet usage dev) rest
      else (false, putAll usage taken)

/-- `rocket_device_pm_resume_unit`; `resume` answers each resume attempt. -/
def rocketDevicePmResumeUnit (devs : List Nat) (resume : Nat → Bool) (usage : Nat → Nat) :
    Bool × (Nat → Nat) :=
  resumeLoop resume [] usage devs

/-- `rocket_device_pm_release_unit`: last core first. -/
def rocketDevicePmReleaseUnit (devs : List Nat) (usage : Nat → Nat) : Nat → Nat :=
  putAll usage devs.reverse

end Power

open Power

/-- `rocket_device_pm_get`, with whether it returned 0. -/
def rocketDevicePmGet (devs : List Nat) (resume : Nat → Bool) (u : PowerUnit) :
    Bool × PowerUnit :=
  if u.refcount = 0 then
    match rocketDevicePmResumeUnit devs resume u.usage with
    | (true, usage) => (true, { u with refcount := u.refcount + 1, usage := usage })
    | (false, usage) => (false, { u with usage := usage })
  else (true, { u with refcount := u.refcount + 1 })

/-- `rocket_device_pm_put`. -/
def rocketDevicePmPut (devs : List Nat) (u : PowerUnit) : PowerUnit :=
  if u.refcount = 0 then { u with warned := true }
  else { u with
    refcount := u.refcount - 1
    usage := if u.refcount - 1 = 0 then rocketDevicePmReleaseUnit devs u.usage else u.usage }

/-- `rocket_device_pm_put_noidle`: the same count, put in core-index order. -/
def rocketDevicePmPutNoidle (devs : List Nat) (u : PowerUnit) : PowerUnit :=
  if u.refcount = 0 then { u with warned := true }
  else { u with
    refcount := u.refcount - 1
    usage := if u.refcount - 1 = 0 then putAll u.usage devs else u.usage }

namespace Power

/-- A put loop lowers each count by the number of times its device is listed. -/
theorem putAll_apply (usage : Nat → Nat) (devs : List Nat) (d : Nat) :
    putAll usage devs d = usage d - devs.count d := by
  induction devs generalizing usage with
  | nil => simp [putAll]
  | cons dev rest ih =>
      change putAll (put usage dev) rest d = _
      rw [ih, List.count_cons]
      by_cases hd : dev = d
      · subst hd
        simp only [put, Function.update_self, beq_self_eq_true, if_true]
        omega
      · simp [put, Function.update_of_ne (Ne.symm hd), hd]

@[simp] theorem releaseUnit_apply (devs : List Nat) (usage : Nat → Nat) (d : Nat) :
    rocketDevicePmReleaseUnit devs usage d = usage d - devs.count d := by
  rw [rocketDevicePmReleaseUnit, putAll_apply, List.count_reverse]

theorem resumeAndGet_apply (usage : Nat → Nat) (dev d : Nat) :
    resumeAndGet usage dev d = usage d + [dev].count d := by
  by_cases hd : d = dev
  · subst hd
    simp [resumeAndGet]
  · simp [resumeAndGet, Function.update_of_ne hd, Ne.symm hd]

/-- The resume loop raises every listed device once, or, when one attempt
fails, takes back exactly what it and its earlier rounds had raised. -/
theorem resumeLoop_apply (resume : Nat → Bool) (taken todo : List Nat) (usage : Nat → Nat)
    (d : Nat) (htaken : taken.count d ≤ usage d) :
    (resumeLoop resume taken usage todo).2 d =
      if (resumeLoop resume taken usage todo).1 then usage d + todo.count d
      else usage d - taken.count d := by
  induction todo generalizing taken usage with
  | nil => simp [resumeLoop]
  | cons dev rest ih =>
      by_cases hr : resume dev = true
      · have hraise : resumeAndGet usage dev d = usage d + [dev].count d :=
          resumeAndGet_apply usage dev d
        have hcount : (dev :: taken).count d = taken.count d + [dev].count d := by
          rw [List.count_cons, List.count_singleton]
        have hstep := ih (dev :: taken) (resumeAndGet usage dev) (by omega)
        simp only [resumeLoop, hr, if_true, hstep, hraise, hcount]
        have hrest : (dev :: rest).count d = rest.count d + [dev].count d := by
          rw [List.count_cons, List.count_singleton]
        split <;> omega
      · simp [resumeLoop, hr, putAll_apply]

/-- The whole unit is resumed, or no count has changed. -/
theorem resumeUnit_apply (devs : List Nat) (resume : Nat → Bool) (usage : Nat → Nat)
    (d : Nat) :
    (rocketDevicePmResumeUnit devs resume usage).2 d =
      if (rocketDevicePmResumeUnit devs resume usage).1 then usage d + devs.count d
      else usage d := by
  have h := resumeLoop_apply resume [] devs usage d (by simp)
  rw [List.count_nil, Nat.sub_zero] at h
  exact h

end Power

section Effects
variable (devs : List Nat) (resume : Nat → Bool) (u : PowerUnit)

/-- A get that fails changes nothing. -/
theorem pmGet_failed (h : (rocketDevicePmGet devs resume u).1 = false) :
    (rocketDevicePmGet devs resume u).2 = u := by
  unfold rocketDevicePmGet at h ⊢
  by_cases hu : u.refcount = 0
  · rw [if_pos hu] at h ⊢
    cases hunit : rocketDevicePmResumeUnit devs resume u.usage with
    | mk ok usage =>
        cases ok with
        | true => simp [hunit] at h
        | false =>
            have hsame : usage = u.usage := by
              funext d
              have := resumeUnit_apply devs resume u.usage d
              simpa [hunit] using this
            simp [hsame]
  · simp [hu] at h

/-- A get that succeeds adds one reference, and raises the counts exactly
when it is the first one. -/
theorem pmGet_succeeded (h : (rocketDevicePmGet devs resume u).1 = true) :
    (rocketDevicePmGet devs resume u).2.refcount = u.refcount + 1 ∧
      (rocketDevicePmGet devs resume u).2.warned = u.warned ∧
      ∀ d, (rocketDevicePmGet devs resume u).2.usage d =
        if u.refcount = 0 then u.usage d + devs.count d else u.usage d := by
  unfold rocketDevicePmGet at h ⊢
  by_cases hu : u.refcount = 0
  · rw [if_pos hu] at h ⊢
    cases hunit : rocketDevicePmResumeUnit devs resume u.usage with
    | mk ok usage =>
        cases ok with
        | false => simp [hunit] at h
        | true =>
            refine ⟨rfl, rfl, fun d => ?_⟩
            have := resumeUnit_apply devs resume u.usage d
            simpa [hunit, hu] using this
  · simp [hu]

theorem resumeLoop_ok_iff (todo taken : List Nat) (usage : Nat → Nat) :
    (resumeLoop resume taken usage todo).1 = true ↔ ∀ d ∈ todo, resume d = true := by
  induction todo generalizing taken usage with
  | nil => simp [resumeLoop]
  | cons dev rest ih =>
      simp only [resumeLoop, List.forall_mem_cons]
      cases hr : resume dev with
      | true => simp [ih]
      | false => simp

/-- A get succeeds when the unit is in use already or every core resumes. -/
theorem pmGet_ok_iff : (rocketDevicePmGet devs resume u).1 = true ↔
    u.refcount ≠ 0 ∨ ∀ d ∈ devs, resume d = true := by
  unfold rocketDevicePmGet
  split
  · next hzero =>
    have hunit : (rocketDevicePmResumeUnit devs resume u.usage).1 = true ↔
        ∀ d ∈ devs, resume d = true :=
      resumeLoop_ok_iff resume devs [] u.usage
    rw [← hunit]
    cases rocketDevicePmResumeUnit devs resume u.usage with
    | mk ok usage => cases ok <;> simp [hzero]
  · next hused => simp [hused]

/-- A get succeeds when every core resumes. -/
theorem pmGet_resumable (h : ∀ d, resume d = true) :
    (rocketDevicePmGet devs resume u).1 = true :=
  (pmGet_ok_iff devs resume u).mpr (Or.inr fun d _ => h d)

/-- The two puts have the same effect on the counts. -/
theorem pmPutNoidle_eq : rocketDevicePmPutNoidle devs u = rocketDevicePmPut devs u := by
  have husage : putAll u.usage devs = rocketDevicePmReleaseUnit devs u.usage := by
    funext d
    rw [releaseUnit_apply, putAll_apply]
  simp only [rocketDevicePmPutNoidle, rocketDevicePmPut, husage]

/-- A matched put drops one reference, and lowers the counts exactly when it
was the last one. -/
theorem pmPut_matched (h : 0 < u.refcount) :
    (rocketDevicePmPut devs u).refcount = u.refcount - 1 ∧
      (rocketDevicePmPut devs u).warned = u.warned ∧
      ∀ d, (rocketDevicePmPut devs u).usage d =
        if u.refcount = 1 then u.usage d - devs.count d else u.usage d := by
  have hne : u.refcount ≠ 0 := by omega
  refine ⟨by simp [rocketDevicePmPut, hne], by simp [rocketDevicePmPut, hne], fun d => ?_⟩
  simp only [rocketDevicePmPut, hne, if_false]
  by_cases hone : u.refcount = 1
  · simp [hone]
  · have : ¬ u.refcount - 1 = 0 := by omega
    simp [hone, this]

end Effects

/-- The unit stands for `k` users: that many references, no warning so far, and on
every device the never-gate reference plus one exactly when there is a user. -/
structure PowerUnit.Serves (u : PowerUnit) (devs : List Nat) (k : Nat) : Prop where
  refcount : u.refcount = k
  quiet : u.warned = false
  usage : ∀ d ∈ devs, u.usage d = 1 + if 0 < k then 1 else 0

section Serving
variable {devs : List Nat} {resume : Nat → Bool} {u : PowerUnit} {k : Nat}

theorem PowerUnit.Serves.get (h : u.Serves devs k) (hdevs : devs.Nodup)
    (ok : (rocketDevicePmGet devs resume u).1 = true) :
    (rocketDevicePmGet devs resume u).2.Serves devs (k + 1) := by
  obtain ⟨hcount, hwarn, husage⟩ := pmGet_succeeded devs resume u ok
  refine ⟨by rw [hcount, h.refcount], by rw [hwarn, h.quiet], fun d hd => ?_⟩
  rw [husage d, h.usage d hd, List.count_eq_one_of_mem hdevs hd, h.refcount]
  by_cases hk : k = 0
  · simp [hk]
  · simp [hk, Nat.pos_of_ne_zero hk]

theorem PowerUnit.Serves.put (h : u.Serves devs (k + 1)) (hdevs : devs.Nodup) :
    (rocketDevicePmPut devs u).Serves devs k := by
  obtain ⟨hcount, hwarn, husage⟩ := pmPut_matched devs u (by rw [h.refcount]; omega)
  refine ⟨by rw [hcount, h.refcount]; rfl, by rw [hwarn, h.quiet], fun d hd => ?_⟩
  rw [husage d, h.usage d hd, List.count_eq_one_of_mem hdevs hd, h.refcount]
  by_cases hk : k = 0
  · simp [hk]
  · simp [hk, Nat.pos_of_ne_zero hk]

end Serving

end Rkopnu
