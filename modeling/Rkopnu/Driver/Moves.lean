import Rkopnu.Driver.Step

/-!
# Where a step leads a call and a job

The control flow of `rkopnu_ioctl_submit`, `rocket_job_run`, `rocket_job_handle_irq` and
`rocket_job_timedout` and the way of a job through the scheduler, read off the steps once: a
step either moves a call from one label of the ioctl to the next or leaves it where it stands,
and likewise for the threads of a core, for a file and for the place of a job. For what a job,
a core or a pool slot records, which steps change it.
-/

namespace Rkopnu.Driver

open Function (update)

/-- The call whose code the step runs. -/
def Action.callOf (s : State) : Action → Option Nat
  | .submit _ _ => some s.jobs
  | .vmap j _ | .alloc j _ | .jobInit j _ | .domainGet j _ | .domainFail j _ | .push j _
  | .waitDone j | .waitExpire j | .cleanup j _ | .putJob j _ | .vunmap j _ | .gemPut j _ => some j
  | _ => none

/-- The step takes call `j` from one point of `rkopnu_ioctl_submit` to another. -/
inductive CallPc.Moves (s : State) : Action → Nat → CallPc → CallPc → Prop
  | enter {f args} (h : submitEarly args = none) :
      Moves s (.submit f args) s.jobs .idle .vmap
  | refuse {f args r} (h : submitEarly args = some r) :
      Moves s (.submit f args) s.jobs .idle (.returned r)
  | vmap {j} : Moves s (.vmap j none) j .vmap .alloc
  | vmapFail {j e} : Moves s (.vmap j (some e)) j .vmap (.gemPut (some e))
  | alloc {j} : Moves s (.alloc j true) j .alloc .jobInit
  | allocFail {j} : Moves s (.alloc j false) j .alloc (.vunmap (some .nomem))
  | jobInit {j} : Moves s (.jobInit j none) j .jobInit .domain
  | jobInitFail {j e} : Moves s (.jobInit j (some e)) j .jobInit (.putJob (some e))
  | domainGet {j d} : Moves s (.domainGet j d) j .domain .push
  | domainFail {j e} : Moves s (.domainFail j e) j .domain (.cleanup e)
  | push {j} : Moves s (.push j none) j .push .wait
  | pushFail {j e} : Moves s (.push j (some e)) j .push (.cleanup e)
  | waitDone {j} : Moves s (.waitDone j) j .wait (.putJob none)
  | waitExpire {j} : Moves s (.waitExpire j) j .wait (.putJob (some .timedout))
  | cleanup {j e} : Moves s (.cleanup j e) j (.cleanup e) (.putJob (some e))
  | putJob {j r} : Moves s (.putJob j r) j (.putJob r) (.vunmap r)
  | vunmap {j r} : Moves s (.vunmap j r) j (.vunmap r) (.gemPut r)
  | gemPut {j r} : Moves s (.gemPut j r) j (.gemPut r) (.returned r)

/-- The job that the step takes to another place. -/
def Action.placed : Action → Option Nat
  | .push j none | .pop _ j _ | .freeJob _ j | .fire _ j | .tdrStop _ j | .tdrReap _ _ j
  | .tdrGuilty _ j | .tdrFreeGuilty _ j | .killJob j => some j
  | _ => none

/-- The step takes job `j` from one place to another. -/
inductive Place.Moves : Action → Nat → Place → Place → Prop
  | push {j} : Moves (.push j none) j .outside .queued
  | pop {c j e} : Moves (.pop c j e) j .queued .pending
  | freeJob {c j} : Moves (.freeJob c j) j .pending .released
  | fire {c j} : Moves (.fire c j) j .pending .timedOut
  | stop {c j} : Moves (.tdrStop c j) j .timedOut .pending
  | reap {c b j} : Moves (.tdrReap c b j) j .pending .released
  | guilty {c j} : Moves (.tdrGuilty c j) j .pending .timedOut
  | freeGuilty {c j} : Moves (.tdrFreeGuilty c j) j .timedOut .released
  | kill {j} : Moves (.killJob j) j .queued .released

/-- The core in whose `run_job` worker the step runs. -/
def Action.runOf : Action → Option Nat
  | .pop c _ _ | .runCheck c _ | .runCreate c _ _ | .runPmGet c _ _ | .runAttachFail c _ _
  | .runSkip c _ | .runProgram c _ _ | .runWrite c _ _ _ _ | .runPmPut c _ _ | .runFail c _ _
  | .runComplete c _ _ | .runArm c _ => some c
  | _ => none

/-- The step takes the worker of core `c` from one point of `rocket_job_run` to another. -/
inductive RunPc.Moves (s : State) : Action → Nat → RunPc → RunPc → Prop
  | pop {c j e} : Moves s (.pop c j e) c .idle (.check j)
  | check {c j} : Moves s (.runCheck c j) c (.check j) (.create j)
  | null {c j} : Moves s (.runCheck c j) c (.check j) (.ret j .null)
  | create {c j} : Moves s (.runCreate c j true) c (.create j) (.pmGet j)
  | createFail {c j} : Moves s (.runCreate c j false) c (.create j) (.ret j (.err .nomem))
  | pmGet {c j resume} (ok : (rocketDevicePmGet s.devs resume s.pm).1 = true) :
      Moves s (.runPmGet c j resume) c (.pmGet j) (.lock j)
  | pmGetFail {c j resume} (failed : (rocketDevicePmGet s.devs resume s.pm).1 = false) :
      Moves s (.runPmGet c j resume) c (.pmGet j) (.ret j .fence)
  | attachFail {c j e} : Moves s (.runAttachFail c j e) c (.lock j) (.pmPut j e)
  | skip {c j} (pending : s.resetPending c = true) :
      Moves s (.runSkip c j) c (.lock j) (.ret j .fence)
  | program {c j mem p} (hp : p = hwProgram (s.job j) j c mem) :
      Moves s (.runProgram c j mem) c (.lock j) (.writing j p p.writes)
  | write {c j p w rest} (more : rest ≠ []) :
      Moves s (.runWrite c j p w rest) c (.writing j p (w :: rest)) (.writing j p rest)
  | lastWrite {c j p w} : Moves s (.runWrite c j p w []) c (.writing j p [w]) (.ret j .fence)
  | pmPut {c j e} : Moves s (.runPmPut c j e) c (.pmPut j e) (.fail j e)
  | fail {c j e} : Moves s (.runFail c j e) c (.fail j e) (.ret j .fence)
  | complete {c j r} : Moves s (.runComplete c j r) c (.ret j r) .idle
  | arm {c j} : Moves s (.runArm c j) c (.ret j .fence) .idle

/-- The core in whose timeout worker the step runs, between `rocket_job_timedout` and the
return of its job. -/
def Action.tdrOf : Action → Option Nat
  | .fire c _ | .tdrEntry c _ | .tdrMark c _ | .tdrNoReset c _ | .tdrStop c _ | .tdrSection c _
  | .tdrHwReset c _ | .tdrClear c _ | .tdrRestart c _ | .tdrCount c _ | .tdrReturn c _
  | .tdrFreeGuilty c _ => some c
  | _ => none

/-- The step takes the timeout worker of core `c` from one point of `rocket_job_timedout`
to another. -/
inductive TdrPc.Moves : Action → Nat → TdrPc → TdrPc → Prop
  | fire {c j} : Moves (.fire c j) c .idle (.entry j)
  | entry {c j} : Moves (.tdrEntry c j) c (.entry j) (.mark j)
  | mark {c j} : Moves (.tdrMark c j) c (.mark j) (.stop j)
  | noReset {c j} : Moves (.tdrNoReset c j) c (.stop j) (.count j)
  | stop {c j} : Moves (.tdrStop c j) c (.stop j) (.stopLoop j)
  | jobSection {c j} : Moves (.tdrSection c j) c (.stopLoop j) (.hwReset j)
  | hwReset {c j} : Moves (.tdrHwReset c j) c (.hwReset j) (.clear j)
  | clear {c j} : Moves (.tdrClear c j) c (.clear j) (.startLoop j)
  | restart {c j} : Moves (.tdrRestart c j) c (.startLoop j) (.count j)
  | count {c j} : Moves (.tdrCount c j) c (.count j) (.ret j)
  | ret {c j} : Moves (.tdrReturn c j) c (.ret j) .idle
  | freeGuilty {c j} : Moves (.tdrFreeGuilty c j) c (.ret j) .idle

/-- The step takes the IRQ thread of core `c` from one point of `rocket_job_handle_irq` to
another, or drops what its hard handlers have read. -/
inductive IrqPc.Moves (s : State) : Action → Nat → IrqPc → IrqPc → Prop
  | thread {c seen} : Moves s (.irqThread c seen) c .idle (.entered seen)
  | none {c seen} : Moves s (.irqNone c seen) c (.entered seen) .idle
  | skip {c seen j} : Moves s (.irqSkip c seen j) c (.entered seen) .idle
  | complete {c seen j} : Moves s (.irqComplete c seen j) c (.entered seen) .idle
  | resubmit {c seen j mem p} (hp : p = hwProgram (s.job j) j c mem) :
      Moves s (.irqResubmit c seen j mem) c (.entered seen) (.writing j p p.writes)
  | write {c j p w rest} (more : rest ≠ []) :
      Moves s (.irqWrite c j p w rest) c (.writing j p (w :: rest)) (.writing j p rest)
  | lastWrite {c j p w} : Moves s (.irqWrite c j p w []) c (.writing j p [w]) .idle
  | forget {c j p rest pc} : Moves s (.runWrite c j p goWrite rest) c pc pc.forget

/-- The file that the step opens or closes. -/
def Action.fileOf (s : State) : Action → Option Nat
  | .openFile => some s.files
  | .close f | .destroyEntity f _ | .destroyed f _ | .scan f _ | .scanned f _ | .putSlot f _
  | .closed f _ => some f
  | _ => none

/-- The step takes file `f` from one point of its life to another. -/
inductive FilePc.Moves (s : State) : Action → Nat → FilePc → FilePc → Prop
  | openFile : Moves s .openFile s.files .unopened .opened
  | close {f} : Moves s (.close f) f .opened (.destroying 0)
  | destroyEntity {f k} :
      Moves s (.destroyEntity f k) f (.destroying k) (.destroying (k + 1))
  | destroyed {f k} : Moves s (.destroyed f k) f (.destroying k) (.scanning 0)
  | scan {f k} : Moves s (.scan f k) f (.scanning k) (.scanning (k + 1))
  | scanned {f k} : Moves s (.scanned f k) f (.scanning k) (.putting 0)
  | putSlot {f i} : Moves s (.putSlot f i) f (.putting i) (.putting (i + 1))
  | closed {f i} : Moves s (.closed f i) f (.putting i) .closed

section Moves
variable {s : State} {a : Action} {i j : Nat}

/-- One index is moved, and every other index stays. -/
theorem moved {α : Type*} {R : Nat → α → α → Prop} {f g : Nat → α} {p q : α}
    {w : Option Nat} (hp : f i = p) (hg : g = update f i q) (hw : w = some i)
    (hmove : R i p q) : R j (f j) (g j) ∨ w ≠ some j ∧ g j = f j := by
  refine (Transition.component_moved hp hg hmove).imp_right fun hother => ⟨?_, hother.2⟩
  rw [hw]
  exact fun heq => hother.1 (Option.some.inj heq).symm

theorem call_moved {p q : CallPc} (hp : s.call i = p) (hq : (effect s a).call = update s.call i q)
    (ha : a.callOf s = some i) (hmove : CallPc.Moves s a i p q) :
    CallPc.Moves s a j (s.call j) ((effect s a).call j) ∨
      a.callOf s ≠ some j ∧ (effect s a).call j = s.call j :=
  moved (R := CallPc.Moves s a) hp hq ha hmove

/-- A step moves a call from one label to the next, or leaves it where it stands. -/
theorem call_effect (fresh : s.call s.jobs = .idle) (h : enabled s a = true) (j : Nat) :
    CallPc.Moves s a j (s.call j) ((effect s a).call j) ∨
      a.callOf s ≠ some j ∧ (effect s a).call j = s.call j := by
  cases a with
  | submit f args =>
      cases hearly : submitEarly args with
      | none => exact call_moved fresh (by simp only [effect, hearly]) rfl (.enter hearly)
      | some r => exact call_moved fresh (by simp only [effect, hearly]) rfl (.refuse hearly)
  | vmap i e =>
      cases e with
      | none => exact call_moved (of_decide_eq_true h) rfl rfl .vmap
      | some e => exact call_moved (of_decide_eq_true h) rfl rfl .vmapFail
  | alloc i ok =>
      cases ok with
      | true => exact call_moved (of_decide_eq_true h) rfl rfl .alloc
      | false => exact call_moved (of_decide_eq_true h) rfl rfl .allocFail
  | jobInit i e =>
      cases e with
      | none => exact call_moved (of_decide_eq_true h) rfl rfl .jobInit
      | some e => exact call_moved (of_decide_eq_true h) rfl rfl .jobInitFail
  | domainGet i d =>
      have hcall := of_decide_eq_true (Bool.and_eq_true_iff.mp h).1
      exact call_moved hcall rfl rfl .domainGet
  | domainFail i e => exact call_moved (of_decide_eq_true h).1 rfl rfl .domainFail
  | push i e =>
      cases e with
      | none => exact call_moved (of_decide_eq_true h) rfl rfl .push
      | some e => exact call_moved (of_decide_eq_true h) rfl rfl .pushFail
  | waitDone i => exact call_moved (of_decide_eq_true h).1 rfl rfl .waitDone
  | waitExpire i => exact call_moved (of_decide_eq_true h).1 rfl rfl .waitExpire
  | cleanup i e => exact call_moved (of_decide_eq_true h) rfl rfl .cleanup
  | putJob i r => exact call_moved (of_decide_eq_true h) rfl rfl .putJob
  | vunmap i r => exact call_moved (of_decide_eq_true h) rfl rfl .vunmap
  | gemPut i r => exact call_moved (of_decide_eq_true h) rfl rfl .gemPut
  | _ => exact Or.inr ⟨(Option.some_ne_none _).symm, rfl⟩

theorem run_moved {p q : RunPc} (hp : s.run i = p) (hq : (effect s a).run = update s.run i q)
    (ha : a.runOf = some i) (hmove : RunPc.Moves s a i p q) :
    RunPc.Moves s a j (s.run j) ((effect s a).run j) ∨
      a.runOf ≠ some j ∧ (effect s a).run j = s.run j :=
  moved (R := RunPc.Moves s a) hp hq ha hmove

/-- A step moves the worker of a core from one point of `rocket_job_run` to the next, or
leaves it where it stands. -/
theorem run_effect (h : enabled s a = true) (c : Nat) :
    RunPc.Moves s a c (s.run c) ((effect s a).run c) ∨
      a.runOf ≠ some c ∧ (effect s a).run c = s.run c := by
  cases a with
  | pop i j e => exact run_moved (of_decide_eq_true h).2.1 rfl rfl .pop
  | runCheck i j =>
      by_cases hnull : s.error j ≠ none ∨ s.nextTaskIdx j = (s.job j).taskCount
      · exact run_moved (of_decide_eq_true h) (by simp only [effect, if_pos hnull]) rfl .null
      · exact run_moved (of_decide_eq_true h) (by simp only [effect, if_neg hnull]) rfl .check
  | runCreate i j ok =>
      cases ok with
      | true => exact run_moved (of_decide_eq_true h) rfl rfl .create
      | false => exact run_moved (of_decide_eq_true h) rfl rfl .createFail
  | runPmGet i j resume =>
      cases hok : (rocketDevicePmGet s.devs resume s.pm).1 with
      | true => exact run_moved (of_decide_eq_true h) (by simp [effect, hok]) rfl (.pmGet hok)
      | false =>
          exact run_moved (of_decide_eq_true h) (by simp [effect, hok]) rfl (.pmGetFail hok)
  | runAttachFail i j e => exact run_moved (of_decide_eq_true h).1 rfl rfl .attachFail
  | runSkip i j =>
      obtain ⟨hlock, -, hpending⟩ := of_decide_eq_true h
      exact run_moved hlock rfl rfl (.skip hpending)
  | runProgram i j mem => exact run_moved (of_decide_eq_true h).1 rfl rfl (.program rfl)
  | runWrite i j p w rest =>
      by_cases hlast : rest = []
      · subst hlast
        exact run_moved (of_decide_eq_true h) rfl rfl .lastWrite
      · exact run_moved (of_decide_eq_true h) (by simp only [effect, if_neg hlast]) rfl
          (.write hlast)
  | runPmPut i j e => exact run_moved (of_decide_eq_true h) rfl rfl .pmPut
  | runFail i j e => exact run_moved (of_decide_eq_true h) rfl rfl .fail
  | runComplete i j r => exact run_moved (of_decide_eq_true h).1 rfl rfl .complete
  | runArm i j => exact run_moved (of_decide_eq_true h).1 rfl rfl .arm
  | _ => exact Or.inr ⟨(Option.some_ne_none _).symm, rfl⟩

theorem tdr_moved {p q : TdrPc} (hp : s.tdr i = p) (hq : (effect s a).tdr = update s.tdr i q)
    (ha : a.tdrOf = some i) (hmove : TdrPc.Moves a i p q) :
    TdrPc.Moves a j (s.tdr j) ((effect s a).tdr j) ∨
      a.tdrOf ≠ some j ∧ (effect s a).tdr j = s.tdr j :=
  moved (R := TdrPc.Moves a) hp hq ha hmove

/-- A step moves the timeout worker of a core from one point of `rocket_job_timedout` to the
next, or leaves it where it stands. -/
theorem tdr_effect (h : enabled s a = true) (c : Nat) :
    TdrPc.Moves a c (s.tdr c) ((effect s a).tdr c) ∨
      a.tdrOf ≠ some c ∧ (effect s a).tdr c = s.tdr c := by
  cases a with
  | fire i j => exact tdr_moved (of_decide_eq_true h).2.1 rfl rfl .fire
  | tdrEntry i j => exact tdr_moved (of_decide_eq_true h) rfl rfl .entry
  | tdrMark i j => exact tdr_moved (of_decide_eq_true h) rfl rfl .mark
  | tdrNoReset i j => exact tdr_moved (of_decide_eq_true h).1 rfl rfl .noReset
  | tdrStop i j => exact tdr_moved (of_decide_eq_true h).1 rfl rfl .stop
  | tdrSection i j => exact tdr_moved (of_decide_eq_true h).1 rfl rfl .jobSection
  | tdrHwReset i j => exact tdr_moved (of_decide_eq_true h) rfl rfl .hwReset
  | tdrClear i j => exact tdr_moved (of_decide_eq_true h) rfl rfl .clear
  | tdrRestart i j => exact tdr_moved (of_decide_eq_true h).1 rfl rfl .restart
  | tdrCount i j => exact tdr_moved (of_decide_eq_true h) rfl rfl .count
  | tdrReturn i j => exact tdr_moved (of_decide_eq_true h).1 rfl rfl .ret
  | tdrFreeGuilty i j => exact tdr_moved (of_decide_eq_true h).1 rfl rfl .freeGuilty
  | _ => exact Or.inr ⟨(Option.some_ne_none _).symm, rfl⟩

/-- A step moves the IRQ thread of a core from one point of `rocket_job_handle_irq` to the
next, or leaves it where it stands. -/
theorem irq_effect (h : enabled s a = true) (c : Nat) :
    IrqPc.Moves s a c (s.irq c) ((effect s a).irq c) ∨ (effect s a).irq c = s.irq c := by
  have move : ∀ {i p q}, s.irq i = p → (effect s a).irq = update s.irq i q →
      IrqPc.Moves s a i p q →
      IrqPc.Moves s a c (s.irq c) ((effect s a).irq c) ∨ (effect s a).irq c = s.irq c := by
    intro i p q hp hq hmove
    exact (Transition.component_moved (R := IrqPc.Moves s a) hp hq hmove).imp_right And.right
  cases a with
  | runWrite i j p w rest =>
      by_cases hgo : w = goWrite
      · subst hgo
        exact move rfl (by simp only [effect, if_true]) .forget
      · exact Or.inr (by simp only [effect, if_neg hgo])
  | irqThread i seen => exact move (of_decide_eq_true h).2 rfl .thread
  | irqNone i seen => exact move (of_decide_eq_true h).1 rfl .none
  | irqSkip i seen j => exact move (of_decide_eq_true h).1 rfl .skip
  | irqResubmit i seen j mem => exact move (of_decide_eq_true h).1 rfl (.resubmit rfl)
  | irqWrite i j p w rest =>
      by_cases hlast : rest = []
      · subst hlast
        exact move (of_decide_eq_true h) rfl .lastWrite
      · exact move (of_decide_eq_true h) (by simp only [effect, if_neg hlast]) (.write hlast)
  | irqComplete i seen j => exact move (of_decide_eq_true h).1 rfl .complete
  | _ => exact Or.inr rfl

/-- A stopped scheduler stays stopped until it is restarted. -/
theorem parked_until_restart {c : Nat} (h : enabled s a = true)
    (hc : (s.tdr c).parked = true) (hrestart : ∀ j, a ≠ .tdrRestart c j) :
    ((effect s a).tdr c).parked = true := by
  rcases tdr_effect h c with hmove | ⟨-, hstay⟩
  · generalize s.tdr c = p at hmove hc
    generalize (effect s a).tdr c = q at hmove ⊢
    cases hmove with
    | jobSection | hwReset | clear => rfl
    | restart => exact absurd rfl (hrestart _)
    | _ => cases hc
  · rw [hstay, hc]

theorem file_moved {p q : FilePc} (hp : s.file i = p)
    (hq : (effect s a).file = update s.file i q) (ha : a.fileOf s = some i)
    (hmove : FilePc.Moves s a i p q) :
    FilePc.Moves s a j (s.file j) ((effect s a).file j) ∨
      a.fileOf s ≠ some j ∧ (effect s a).file j = s.file j :=
  moved (R := FilePc.Moves s a) hp hq ha hmove

/-- A step opens a file, takes its close from one loop to the next, or leaves it as it is. -/
theorem file_effect (fresh : s.file s.files = .unopened) (h : enabled s a = true) (f : Nat) :
    FilePc.Moves s a f (s.file f) ((effect s a).file f) ∨
      a.fileOf s ≠ some f ∧ (effect s a).file f = s.file f := by
  cases a with
  | openFile => exact file_moved fresh rfl rfl .openFile
  | close g => exact file_moved (of_decide_eq_true h).1 rfl rfl .close
  | destroyEntity g k =>
      have hfile := of_decide_eq_true (Bool.and_eq_true_iff.mp h).1
      exact file_moved hfile.1 rfl rfl .destroyEntity
  | destroyed g k => exact file_moved (of_decide_eq_true h).1 rfl rfl .destroyed
  | scan g k => exact file_moved (of_decide_eq_true h).1 rfl rfl .scan
  | scanned g k => exact file_moved (of_decide_eq_true h).1 rfl rfl .scanned
  | putSlot g k => exact file_moved (of_decide_eq_true h).1 rfl rfl .putSlot
  | closed g k => exact file_moved (of_decide_eq_true h).1 rfl rfl .closed
  | _ => exact Or.inr ⟨(Option.some_ne_none _).symm, rfl⟩

end Moves

/-- The step signals the finished fence of job `j`. -/
inductive Finishes (s : State) : Action → Nat → Prop
  | fail {c j e} (armed : s.callback j = true) : Finishes s (.runFail c j e) j
  | irq {c seen j} (armed : s.callback j = true) : Finishes s (.irqComplete c seen j) j
  | complete {c j r} : Finishes s (.runComplete c j r) j
  | cancel {c b j} : Finishes s (.tdrCancel c b j) j
  | kill {j} : Finishes s (.killJob j) j

/-- The job whose done fence does not have the scheduler's callback after the step. -/
def Action.disarms : Action → Option Nat
  | .runFail _ j _ | .runComplete _ j _ | .irqComplete _ _ j | .tdrDetach _ _ j
  | .tdrCancel _ _ j => some j
  | _ => none

/-- The step publishes job `j` as the job in flight on core `c`. -/
inductive Publishes : Action → Nat → Nat → Prop
  | skip {c j} : Publishes (.runSkip c j) c j
  | program {c j mem} : Publishes (.runProgram c j mem) c j

/-- The job for which the step calls `rocket_job_free`. -/
def Action.freesJob : Action → Option Nat
  | .freeJob _ j | .tdrReap _ _ j | .tdrFreeGuilty _ j | .killJob j => some j
  | _ => none

/-- The job for which the step calls `rocket_job_put`. -/
def Action.putsJob : Action → Option Nat
  | .putJob j _ | .freeJob _ j | .tdrReap _ _ j | .tdrFreeGuilty _ j | .killJob j => some j
  | _ => none

section Fields
variable {s : State} {a : Action} {c j : Nat}

/-- A finished job was finished before the step, or by it. -/
theorem finished_before (hfin : (effect s a).finished j = true) :
    s.finished j = true ∨ Finishes s a j := by
  cases a with
  | runFail i k e =>
      by_cases hk : j = k ∧ s.callback k = true
      · obtain ⟨rfl, harmed⟩ := hk
        exact Or.inr (.fail harmed)
      · refine Or.inl ?_
        simp only [effect, State.signalDone] at hfin
        split at hfin
        · rwa [Function.update_of_ne (by simp_all)] at hfin
        · exact hfin
  | irqComplete i b k =>
      by_cases hk : j = k ∧ s.callback k = true
      · obtain ⟨rfl, harmed⟩ := hk
        exact Or.inr (.irq harmed)
      · refine Or.inl ?_
        simp only [effect, State.signalDone] at hfin
        split at hfin
        · rwa [Function.update_of_ne (by simp_all)] at hfin
        · exact hfin
  | runComplete i k r =>
      by_cases hk : j = k
      · exact Or.inr (hk ▸ .complete)
      · exact Or.inl (by simpa [effect, State.jobDone, hk] using hfin)
  | tdrCancel i b k =>
      by_cases hk : j = k
      · exact Or.inr (hk ▸ .cancel)
      · exact Or.inl (by simpa [effect, State.jobDone, hk] using hfin)
  | killJob k =>
      by_cases hk : j = k
      · exact Or.inr (hk ▸ .kill)
      · exact Or.inl (by simpa [effect, hk] using hfin)
  | _ => exact Or.inl hfin

theorem finished_stays (hfin : s.finished j = true) : (effect s a).finished j = true := by
  cases a with
  | runFail i k e | irqComplete i b k =>
      simp only [effect, State.signalDone]
      split
      · simp [Function.update_apply, hfin]
      · exact hfin
  | runComplete i k r | tdrCancel i b k =>
      simp [effect, State.jobDone, Function.update_apply, hfin]
  | killJob k => simp [effect, Function.update_apply, hfin]
  | _ => exact hfin

theorem Finishes.finished (hfin : Finishes s a j) : (effect s a).finished j = true := by
  cases hfin with
  | fail armed | irq armed => simp [effect, State.signalDone, armed]
  | complete | cancel => simp [effect, State.jobDone]
  | kill => simp [effect]

/-- A job that is not finished was not, and the step does not finish it. -/
theorem unfinished_before (hfin : (effect s a).finished j = false) :
    s.finished j = false ∧ ¬ Finishes s a j := by
  constructor
  · rw [Bool.eq_false_iff]
    exact fun hold => by simp [finished_stays hold] at hfin
  · exact fun hfinishes => by simp [hfinishes.finished] at hfin

/-- The scheduler waits for a job that it waited for before the step, or begins to. -/
theorem callback_before (harmed : (effect s a).callback j = true) :
    (∃ c, a = .runArm c j) ∨ s.callback j = true ∧ a.disarms ≠ some j := by
  cases a with
  | runArm i k =>
      by_cases hk : j = k
      · exact Or.inl ⟨i, by rw [hk]⟩
      · exact Or.inr ⟨by simpa [effect, hk] using harmed, (Option.some_ne_none _).symm⟩
  | runFail i k e | irqComplete i b k | runComplete i k r | tdrCancel i b k | tdrDetach i b k =>
      have hk : j ≠ k := by
        rintro rfl
        simp [effect, State.signalDone, State.jobDone] at harmed
      refine Or.inr ⟨?_, fun hdis => hk (Option.some.inj hdis).symm⟩
      simpa [effect, State.signalDone, State.jobDone, hk] using harmed
  | _ => exact Or.inr ⟨harmed, (Option.some_ne_none _).symm⟩

theorem callback_stays (harmed : s.callback j = true) (hdis : a.disarms ≠ some j) :
    (effect s a).callback j = true := by
  cases a with
  | runArm i k => simp [effect, Function.update_apply, harmed]
  | runFail i k e | irqComplete i b k | runComplete i k r | tdrCancel i b k | tdrDetach i b k =>
      have hk : j ≠ k := fun hk => hdis (congrArg some hk.symm)
      simpa [effect, State.signalDone, State.jobDone, hk] using harmed
  | _ => exact harmed

/-- The credit of a core goes to the job it pops, and is given back with a job's callback. -/
theorem active_effect (c : Nat) : (effect s a).active c = s.active c ∨
    (∃ j e, a = .pop c j e) ∨
      ∃ j, s.active c = some j ∧ (Finishes s a j ∨ ∃ i b, a = .tdrDetach i b j) := by
  cases a with
  | pop i k e =>
      by_cases hi : c = i
      · exact Or.inr (Or.inl ⟨k, e, by rw [hi]⟩)
      · exact Or.inl (by simp [effect, hi])
  | runFail i k e | irqComplete i b k =>
      simp only [effect, State.signalDone]
      split
      · rename_i hgive
        by_cases hc : c = (s.job k).core
        · subst hc
          exact Or.inr (Or.inr ⟨k, hgive.2, Or.inl (by constructor; exact hgive.1)⟩)
        · exact Or.inl (Function.update_of_ne hc _ _)
      · exact Or.inl rfl
  | runComplete i k r | tdrCancel i b k =>
      simp only [effect, State.jobDone]
      split
      · rename_i hgive
        by_cases hc : c = (s.job k).core
        · subst hc
          exact Or.inr (Or.inr ⟨k, hgive, Or.inl (by constructor)⟩)
        · exact Or.inl (Function.update_of_ne hc _ _)
      · exact Or.inl rfl
  | tdrDetach i b k =>
      simp only [effect]
      split
      · rename_i hgive
        by_cases hc : c = i
        · subst hc
          exact Or.inr (Or.inr ⟨k, hgive, Or.inr ⟨c, b, rfl⟩⟩)
        · exact Or.inl (Function.update_of_ne hc _ _)
      · exact Or.inl rfl
  | _ => exact Or.inl rfl

/-- The place of a job is changed by the steps that put it there. -/
theorem place_cases (j : Nat) : (effect s a).place j = s.place j ∨ a.placed = some j := by
  cases a with
  | push i e =>
      cases e with
      | none =>
          by_cases hj : j = i
          · exact Or.inr (congrArg some hj.symm)
          · exact Or.inl (Function.update_of_ne hj _ _)
      | some e => exact Or.inl rfl
  | pop c i e | freeJob c i | fire c i | tdrStop c i | tdrReap c b i | tdrGuilty c i
  | tdrFreeGuilty c i | killJob i =>
      by_cases hj : j = i
      · exact Or.inr (congrArg some hj.symm)
      · exact Or.inl (Function.update_of_ne hj _ _)
  | _ => exact Or.inl rfl

/-- A job is in flight on a core once `rocket_job_run` has published it there, until the
interrupt or a reset takes it off. -/
theorem inFlight_effect (c : Nat) : (effect s a).inFlight c = s.inFlight c ∨
    (effect s a).inFlight c = none ∧
      ((∃ seen j, a = .irqComplete c seen j) ∨ ∃ j, a = .tdrSection c j) ∨
      ∃ j, (effect s a).inFlight c = some j ∧ Publishes a c j := by
  cases a with
  | runSkip i k | runProgram i k mem =>
      by_cases hc : c = i
      · subst hc
        exact Or.inr (Or.inr ⟨k, Function.update_self _ _ _, by constructor⟩)
      · exact Or.inl (Function.update_of_ne hc _ _)
  | irqComplete i seen k =>
      by_cases hc : c = i
      · subst hc
        exact Or.inr (Or.inl ⟨Function.update_self _ _ _, Or.inl ⟨seen, k, rfl⟩⟩)
      · exact Or.inl (Function.update_of_ne hc _ _)
  | tdrSection i k =>
      by_cases hc : c = i
      · subst hc
        exact Or.inr (Or.inl ⟨Function.update_self _ _ _, Or.inr ⟨k, rfl⟩⟩)
      · exact Or.inl (Function.update_of_ne hc _ _)
  | _ => exact Or.inl rfl

theorem inFlight_before (hfly : (effect s a).inFlight c = some j) :
    s.inFlight c = some j ∨ Publishes a c j := by
  rcases inFlight_effect (s := s) (a := a) c with hsame | ⟨hnone, -⟩ | ⟨k, hk, hpub⟩
  · exact Or.inl (hsame ▸ hfly)
  · simp [hnone] at hfly
  · obtain rfl : k = j := Option.some.inj (hk.symm.trans hfly)
    exact Or.inr hpub

/-- The hardware program of a job counts its next task. -/
theorem nextTaskIdx_effect (j : Nat) : (effect s a).nextTaskIdx j = s.nextTaskIdx j ∨
    (effect s a).nextTaskIdx j = s.nextTaskIdx j + 1 ∧
      ((∃ c mem, a = .runProgram c j mem) ∨ ∃ c seen mem, a = .irqResubmit c seen j mem) := by
  cases a with
  | runProgram i k mem =>
      by_cases hk : j = k
      · subst hk
        exact Or.inr ⟨Function.update_self _ _ _, Or.inl ⟨i, mem, rfl⟩⟩
      · exact Or.inl (Function.update_of_ne hk _ _)
  | irqResubmit i seen k mem =>
      by_cases hk : j = k
      · subst hk
        exact Or.inr ⟨Function.update_self _ _ _, Or.inr ⟨i, seen, mem, rfl⟩⟩
      · exact Or.inl (Function.update_of_ne hk _ _)
  | _ => exact Or.inl rfl

/-- The flag of a core is set and cleared by its own timeout worker. -/
theorem resetPending_effect (hother : a.tdrOf ≠ some c) :
    (effect s a).resetPending c = s.resetPending c := by
  cases a with
  | tdrMark i k | tdrClear i k =>
      exact Function.update_of_ne (fun hc => hother (congrArg some hc.symm)) _ _
  | _ => rfl

/-- A done fence is made and failed by `rocket_job_run` and signaled by the interrupt. -/
theorem doneFence_cases (j : Nat) : (effect s a).doneFence j = s.doneFence j ∨
    (∃ c, a = .runCreate c j true) ∨ (∃ c e, a = .runFail c j e) ∨
      ∃ c seen, a = .irqComplete c seen j := by
  cases a with
  | runCreate i k ok =>
      cases ok with
      | true =>
          by_cases hk : j = k
          · exact Or.inr (Or.inl ⟨i, by rw [hk]⟩)
          · exact Or.inl (Function.update_of_ne hk _ _)
      | false => exact Or.inl rfl
  | runFail i k e =>
      by_cases hk : j = k
      · exact Or.inr (Or.inr (Or.inl ⟨i, e, by rw [hk]⟩))
      · exact Or.inl (Function.update_of_ne hk _ _)
  | irqComplete i seen k =>
      by_cases hk : j = k
      · exact Or.inr (Or.inr (Or.inr ⟨i, seen, by rw [hk]⟩))
      · exact Or.inl (Function.update_of_ne hk _ _)
  | _ => exact Or.inl rfl

/-- The error of a job is set when it is popped or finished. -/
theorem error_effect (j : Nat) : (effect s a).error j = s.error j ∨
    (∃ c e, a = .pop c j e) ∨ Finishes s a j := by
  cases a with
  | pop i k e =>
      by_cases hk : j = k
      · exact Or.inr (Or.inl ⟨i, e, by rw [hk]⟩)
      · refine Or.inl ?_
        simp only [effect]
        split
        · rfl
        · exact Function.update_of_ne hk _ _
  | runFail i k e | irqComplete i b k =>
      by_cases hk : j = k ∧ s.callback k = true
      · obtain ⟨rfl, harmed⟩ := hk
        exact Or.inr (Or.inr (by constructor; exact harmed))
      · refine Or.inl ?_
        simp only [effect, State.signalDone]
        split
        · exact Function.update_of_ne (by simp_all) _ _
        · rfl
  | runComplete i k r | tdrCancel i b k =>
      by_cases hk : j = k
      · exact Or.inr (Or.inr (by rw [hk]; constructor))
      · refine Or.inl ?_
        simp only [effect, State.jobDone]
        split
        · rfl
        · exact Function.update_of_ne hk _ _
  | killJob k =>
      by_cases hk : j = k
      · exact Or.inr (Or.inr (hk ▸ .kill))
      · exact Or.inl (Function.update_of_ne hk _ _)
  | _ => exact Or.inl rfl

/-- A done fence has the record it had before the step, or is made or signaled by it. -/
theorem doneFence_before {f : Fence} (hf : (effect s a).doneFence j = some f) :
    s.doneFence j = some f ∨ (∃ c, a = .runCreate c j true ∧ f = ⟨s.emitSeqno c + 1, none, none⟩) ∨
      ∃ g, s.doneFence j = some g ∧
        ((∃ c e, a = .runFail c j e ∧ f = g.signal .runJob (some e)) ∨
          ∃ c seen, a = .irqComplete c seen j ∧ f = g.signal .irqThread none) := by
  rcases doneFence_cases (s := s) (a := a) j with hsame | ⟨c, rfl⟩ | ⟨c, e, rfl⟩ | ⟨c, seen, rfl⟩
  · exact Or.inl (hsame ▸ hf)
  · refine Or.inr (Or.inl ⟨c, rfl, ?_⟩)
    simpa [effect, eq_comm] using hf
  · simp only [effect, State.signalDone, Function.update_self] at hf
    obtain ⟨g, hg, rfl⟩ := Option.map_eq_some_iff.mp hf
    exact Or.inr (Or.inr ⟨g, hg, Or.inl ⟨c, e, rfl, rfl⟩⟩)
  · simp only [effect, State.signalDone, Function.update_self] at hf
    obtain ⟨g, hg, rfl⟩ := Option.map_eq_some_iff.mp hf
    exact Or.inr (Or.inr ⟨g, hg, Or.inr ⟨c, seen, rfl, rfl⟩⟩)

/-- `emit_seqno` counts the fences made for a core. -/
theorem emitSeqno_effect (c : Nat) : (effect s a).emitSeqno c = s.emitSeqno c ∨
    (effect s a).emitSeqno c = s.emitSeqno c + 1 ∧ ∃ j, a = .runCreate c j true := by
  cases a with
  | runCreate i k ok =>
      cases ok with
      | true =>
          by_cases hc : c = i
          · subst hc
            exact Or.inr ⟨Function.update_self _ _ _, k, rfl⟩
          · exact Or.inl (Function.update_of_ne hc _ _)
      | false => exact Or.inl rfl
  | _ => exact Or.inl rfl

theorem signal_signaled (f : Fence) (who : Signaler) (e : Option Errno) :
    (f.signal who e).signaler ≠ none := by
  simp only [Fence.signal]
  split
  · simp
  · assumption

@[simp] theorem signal_seqno (f : Fence) (who : Signaler) (e : Option Errno) :
    (f.signal who e).seqno = f.seqno := by
  simp only [Fence.signal]
  split <;> rfl

theorem signal_of_signaled {f : Fence} (hf : f.signaler ≠ none) (who : Signaler)
    (e : Option Errno) : f.signal who e = f :=
  if_neg hf

theorem doneFence_stays (hj : s.doneFence j ≠ none) :
    (effect s a).doneFence j ≠ none := by
  rcases doneFence_cases (s := s) (a := a) j with hsame | ⟨c, rfl⟩ | ⟨c, e, rfl⟩ | ⟨c, seen, rfl⟩
  · rw [hsame]
    exact hj
  · simp [effect]
  · simp [effect, State.signalDone, hj]
  · simp [effect, State.signalDone, hj]

/-- An error on the finished fence is never taken back. -/
theorem error_stays (hj : s.error j ≠ none) : (effect s a).error j ≠ none := by
  cases a with
  | pop c k e | runFail c k e | irqComplete c b k | runComplete c k r | tdrCancel c b k =>
      by_cases hk : j = k
      · subst hk
        simp only [effect, State.signalDone, State.jobDone]
        split <;> simp_all
      · simp only [effect, State.signalDone, State.jobDone]
        split <;> simpa [hk] using hj
  | killJob k =>
      simp only [effect, Function.update_apply]
      split
      · simp
      · exact hj
  | _ => exact hj

/-- A job is filled once `drm_sched_job_init` has succeeded. -/
theorem job_effect (j : Nat) : (effect s a).job j = s.job j ∨ a = .jobInit j none := by
  cases a with
  | jobInit i e =>
      cases e with
      | none =>
          by_cases hj : j = i
          · exact Or.inr (by rw [hj])
          · exact Or.inl (Function.update_of_ne hj _ _)
      | some e => exact Or.inl rfl
  | _ => exact Or.inl rfl

/-- The arguments of a call and its file are those of its `submit`. -/
theorem args_effect (j : Nat) : (effect s a).args j = s.args j ∨ j = s.jobs := by
  cases a with
  | submit f args =>
      by_cases hj : j = s.jobs
      · exact Or.inr hj
      · exact Or.inl (Function.update_of_ne hj _ _)
  | _ => exact Or.inl rfl

theorem caller_effect (j : Nat) : (effect s a).caller j = s.caller j ∨ j = s.jobs := by
  cases a with
  | submit f args =>
      by_cases hj : j = s.jobs
      · exact Or.inr hj
      · exact Or.inl (Function.update_of_ne hj _ _)
  | _ => exact Or.inl rfl

theorem domain_effect (j : Nat) : (effect s a).domain j = s.domain j ∨
    ∃ d, a = .domainGet j d ∧ (effect s a).domain j = some d := by
  cases a with
  | domainGet i d =>
      by_cases hj : j = i
      · subst hj
        exact Or.inr ⟨d, rfl, Function.update_self _ _ _⟩
      · exact Or.inl (Function.update_of_ne hj _ _)
  | _ => exact Or.inl rfl

/-- A core is attached by `rocket_job_run`, and detached by it, by a reset and by a close that
finds a domain of its file there. -/
theorem attached_effect (c : Nat) : (effect s a).attached c = s.attached c ∨
    (effect s a).attached c = none ∧ ((∃ j e, a = .runAttachFail c j e) ∨
      (∃ j, a = .tdrSection c j) ∨ ∃ f, a = .scan f c) ∨
    ∃ j, Publishes a c j ∧ (effect s a).attached c = s.domain j := by
  cases a with
  | runAttachFail i k e =>
      by_cases hc : c = i
      · subst hc
        exact Or.inr (Or.inl ⟨Function.update_self _ _ _, Or.inl ⟨k, e, rfl⟩⟩)
      · exact Or.inl (Function.update_of_ne hc _ _)
  | runSkip i k | runProgram i k mem =>
      by_cases hc : c = i
      · subst hc
        exact Or.inr (Or.inr ⟨k, by constructor, Function.update_self _ _ _⟩)
      · exact Or.inl (Function.update_of_ne hc _ _)
  | tdrSection i k =>
      by_cases hc : c = i
      · subst hc
        exact Or.inr (Or.inl ⟨Function.update_self _ _ _, Or.inr (Or.inl ⟨k, rfl⟩)⟩)
      · exact Or.inl (Function.update_of_ne hc _ _)
  | scan f i =>
      by_cases hc : c = i ∧ s.scanHit f i = true
      · obtain ⟨rfl, hhit⟩ := hc
        exact Or.inr (Or.inl ⟨by simp [effect, hhit], Or.inr (Or.inr ⟨f, rfl⟩)⟩)
      · refine Or.inl ?_
        simp only [effect]
        split
        · exact Function.update_of_ne (by simp_all) _ _
        · rfl
  | _ => exact Or.inl rfl

theorem placed_of_freesJob (ha : a.freesJob = some j) : a.placed = some j := by
  cases a <;> simp_all [Action.freesJob, Action.placed]

theorem putsJob_of_freesJob (ha : a.freesJob = some j) : a.putsJob = some j := by
  cases a <;> first | exact ha | cases ha

theorem putsJob_cases (ha : a.putsJob = some j) :
    (∃ r, a = .putJob j r) ∨ a.freesJob = some j := by
  cases a with
  | putJob i r =>
      obtain rfl := Option.some.inj ha
      exact Or.inl ⟨r, rfl⟩
  | freeJob | tdrReap | tdrFreeGuilty | killJob => exact Or.inr ha
  | _ => cases ha

/-- A job is referenced by its allocation and by its push, and put by the ioctl and by
`rocket_job_free`. -/
theorem refcount_cases (j : Nat) :
    ((effect s a).refcount j = s.refcount j ∧ a.putsJob ≠ some j ∧ a ≠ .push j none ∧
      ∀ ok, a ≠ .alloc j ok) ∨
      (∃ ok, a = .alloc j ok) ∨ a = .push j none ∨
      a.putsJob = some j ∧ (effect s a).refcount j = s.refcount j - 1 := by
  cases a with
  | alloc i ok =>
      by_cases hj : j = i
      · exact Or.inr (Or.inl ⟨ok, by rw [hj]⟩)
      · refine Or.inl ⟨Function.update_of_ne hj _ _, (Option.some_ne_none _).symm, by simp,
          fun ok heq => hj ?_⟩
        exact (Action.alloc.inj heq).1.symm
  | push i e =>
      cases e with
      | none =>
          by_cases hj : j = i
          · exact Or.inr (Or.inr (Or.inl (by rw [hj])))
          · refine Or.inl ⟨Function.update_of_ne hj _ _, (Option.some_ne_none _).symm,
              fun heq => hj ?_, by simp⟩
            exact (Action.push.inj heq).1.symm
      | some e => exact Or.inl ⟨rfl, (Option.some_ne_none _).symm, by simp, by simp⟩
  | putJob i r | freeJob c i | tdrReap c b i | tdrFreeGuilty c i | killJob i =>
      by_cases hj : j = i
      · subst hj
        exact Or.inr (Or.inr (Or.inr ⟨rfl, Function.update_self _ _ _⟩))
      · refine Or.inl ⟨Function.update_of_ne hj _ _, ?_, by simp, by simp⟩
        exact fun heq => hj (Option.some.inj heq).symm
  | _ => exact Or.inl ⟨rfl, (Option.some_ne_none _).symm, by simp, by simp⟩

/-- A job is freed with its last reference. -/
theorem frees_before (hj : s.frees j < (effect s a).frees j) :
    a.putsJob = some j ∧ s.refcount j = 1 := by
  cases a with
  | putJob i r | freeJob c i | tdrReap c b i | tdrFreeGuilty c i | killJob i =>
      simp only [effect, State.schedFree, State.jobPut, State.domainPut] at hj
      split at hj
      · rename_i hlast
        by_cases hij : j = i
        · subst hij
          exact ⟨rfl, hlast⟩
        · rw [Function.update_of_ne hij] at hj
          exact absurd hj (Nat.lt_irrefl _)
      · exact absurd hj (Nat.lt_irrefl _)
  | _ => exact absurd hj (Nat.lt_irrefl _)

/-- One entry of one file's pool is changed. -/
theorem update_slot_apply (slot : Nat → Nat → Option Nat) (f i g k : Nat) (d : Option Nat) :
    update slot f (update (slot f) i d) g k = if g = f ∧ k = i then d else slot g k := by
  by_cases hg : g = f
  · subst hg
    by_cases hk : k = i <;> simp [hk]
  · simp [hg]

/-- A pool slot keeps its domain until it is put. -/
theorem slot_stays {f i d : Nat} (h : enabled s a = true) (hd : s.slot f i = some d)
    (hput : a ≠ .putSlot f i) : (effect s a).slot f i = some d := by
  have hanswer : ∀ {g k e : Nat}, s.domainAnswer g k e = true →
      (s.domainGet g k e).slot f i = some d := by
    intro g k e hans
    simp only [State.domainGet, update_slot_apply]
    split
    · rename_i hsame
      obtain ⟨rfl, rfl⟩ := hsame
      simpa [State.domainAnswer, hd, eq_comm] using hans
    · exact hd
  cases a with
  | memCreate g id e => exact hanswer (Bool.and_eq_true_iff.mp h).2
  | domainGet k e => exact hanswer (Bool.and_eq_true_iff.mp h).2
  | putSlot g k =>
      have hne : ¬ (f = g ∧ i = k) := by
        rintro ⟨rfl, rfl⟩
        exact hput rfl
      simpa [effect, State.domainPut, update_slot_apply, hne] using hd
  | _ => exact hd

/-- An open file stays open until it is closed. -/
theorem opened_until_close {f : Nat} (h : enabled s a = true) (hf : s.file f = .opened)
    (hclose : a ≠ .close f) : (effect s a).file f = .opened := by
  cases a with
  | openFile => simp [effect, Function.update_apply, hf]
  | close g =>
      have hne : f ≠ g := fun hfg => hclose (by rw [hfg])
      simpa [effect, hne] using hf
  | destroyEntity g k | destroyed g k | scan g k | scanned g k | putSlot g k | closed g k =>
      have hne : f ≠ g := by
        rintro rfl
        simp [enabled, hf] at h
      simpa [effect, State.domainPut, hne] using hf
  | _ => exact hf

theorem freeGuilty_before (hc : (effect s a).freeGuilty c = true) :
    s.freeGuilty c = true ∧ (∀ j, a ≠ .tdrFreeGuilty c j) ∨ ∃ j, a = .tdrGuilty c j := by
  cases a with
  | tdrGuilty i k =>
      by_cases hi : c = i
      · exact Or.inr ⟨k, by rw [hi]⟩
      · exact Or.inl ⟨by simpa [effect, hi] using hc, by simp⟩
  | tdrFreeGuilty i k =>
      have hi : c ≠ i := by
        rintro rfl
        simp [effect] at hc
      refine Or.inl ⟨by simpa [effect, State.schedFree, State.jobPut, hi] using hc, ?_⟩
      rintro j heq
      injection heq with hic
      exact hi hic.symm
  | _ => exact Or.inl ⟨hc, by simp⟩

theorem freeGuilty_stays (hc : s.freeGuilty c = true) (hother : a.tdrOf ≠ some c) :
    (effect s a).freeGuilty c = true := by
  cases a with
  | tdrGuilty i k => simp [effect, Function.update_apply, hc]
  | tdrFreeGuilty i k =>
      have hi : c ≠ i := fun hi => hother (congrArg some hi.symm)
      simpa [effect, State.schedFree, State.jobPut, hi] using hc
  | _ => exact hc

end Fields

end Rkopnu.Driver
