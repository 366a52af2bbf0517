import Rkopnu.Uapi
import Rkopnu.Foundation.Transition
import Rkopnu.Foundation.Holding

/-!
# GEM objects behind raw addresses

`RKNPU_MEM_CREATE` hands out the kernel address of a BO, and `RKNPU_MEM_SYNC` and
`RKNPU_SUBMIT` take such an address back. The address is followed as it is. What
keeps a BO alive is its reference count: every handle, every kernel path that looked
it up and every submit holds one reference, and the last one to go frees the BO.

## Implementation notes

A BO is named by its address, which may be used again after the BO was freed;
`refs` is zero where no BO lives. Handles, mappings, exports and lookups that the
DRM core makes of its own accord are holders too, and `importHandle` is any of its
ways to give a file a handle to a BO that one of them keeps.
-/

namespace Rkopnu.Gem

open Function (update)
open Transition Holding

/-- What can hold a reference on a BO. -/
inductive Holder
  /-- Entry `h` of the handle table of file `f`. -/
  | handle (f h : Nat)
  /-- `rkopnu_ioctl_mem_create`, call `j`, for the BO it has made. -/
  | create (j : Nat)
  /-- `rkopnu_ioctl_submit`, call `j`. -/
  | submit (j : Nat)
  /-- A mapping, an export or a lookup of the DRM core. -/
  | core (k : Nat)
  deriving DecidableEq, Repr

/-- Where an ioctl call stands. -/
inductive CallPc
  | idle
  /-- In `rkopnu_ioctl_mem_create`, before `drm_gem_handle_create`. -/
  | creating (v : U64)
  /-- In `rkopnu_ioctl_mem_create`, before `drm_gem_object_put`. -/
  | created (v : U64)
  /-- In `rkopnu_ioctl_mem_sync`, with the BO at `v`. -/
  | syncing (v : U64)
  /-- In `rkopnu_ioctl_submit`, between its get and its put. -/
  | submitting (v : U64)
  | returned (r : Option Errno)
  deriving DecidableEq, Repr

structure State where
  /-- `gem->refcount`. -/
  refs : U64 → Nat
  /-- `rkopnu_ioctl_mem_create` has returned the address of the BO there. -/
  published : U64 → Bool
  hold : Holder → Option U64
  files : Nat
  opened : Nat → Bool
  calls : Nat
  caller : Nat → Nat
  call : Nat → CallPc

/-- No file is open and no BO exists. -/
def State.init : State where
  refs := fun _ => 0
  published := fun _ => false
  hold := fun _ => none
  files := 0
  opened := fun _ => false
  calls := 0
  caller := fun _ => 0
  call := fun _ => .idle

inductive Action
  | openFile
  /-- The last descriptor of the file is closed. -/
  | closeFile (f : Nat)
  /-- `drm_gem_release` drops one handle of a closed file. -/
  | release (f h : Nat)
  /-- `rkopnu_ioctl_mem_create` allocates a BO at address `v`. -/
  | createAlloc (f : Nat) (v : U64)
  /-- It fails before the BO has a handle. -/
  | createFail (j : Nat) (v : U64) (e : Errno)
  | createHandle (j : Nat) (v : U64) (h : Nat)
  /-- It drops its own reference and returns the address. -/
  | createReturn (j : Nat) (v : U64)
  /-- `rkopnu_ioctl_mem_destroy`. -/
  | memDestroy (f h : Nat)
  /-- `rkopnu_ioctl_mem_sync` up to its first access. -/
  | memSync (f : Nat) (v : U64)
  | syncReturn (j : Nat) (v : U64)
  /-- `rkopnu_ioctl_submit` up to its `drm_gem_object_get`. -/
  | submit (f : Nat) (v : U64) (taskNumber : U32)
  /-- Its `drm_gem_object_put` and its return. -/
  | submitReturn (j : Nat) (v : U64) (r : Option Errno)
  | coreGet (k : Nat) (v : U64)
  | corePut (k : Nat)
  /-- A handle for the BO that a reference of the DRM core keeps. -/
  | importHandle (f h k : Nat)

namespace State
variable (s : State)

/-- `drm_gem_object_get`. -/
def take (i : Holder) (v : U64) : State :=
  { s with hold := update s.hold i (some v), refs := update s.refs v (s.refs v + 1) }

/-- `drm_gem_object_put`. -/
def drop (i : Holder) (v : U64) : State :=
  { s with hold := update s.hold i none, refs := update s.refs v (s.refs v - 1) }

/-- `drm_gem_handle_delete`: an unknown handle is refused. -/
def deleteHandle (f h : Nat) : State :=
  match s.hold (.handle f h) with
  | none => s
  | some v => s.drop (.handle f h) v

/-- A new call of the file. -/
def enter (f : Nat) (pc : CallPc) : State :=
  { s with
    calls := s.calls + 1
    caller := update s.caller s.calls f
    call := update s.call s.calls pc }

/-- The call goes on. -/
def go (j : Nat) (pc : CallPc) : State := { s with call := update s.call j pc }

end State

/-- The call has not returned. -/
def CallPc.running : CallPc → Bool
  | .idle | .returned _ => false
  | _ => true

/-- The step can be taken. -/
def enabled (s : State) : Action → Bool
  | .openFile => true
  | .closeFile f => decide (s.opened f = true ∧
      ∀ j < s.calls, s.caller j = f → (s.call j).running = false)
  | .release f _ => decide (f < s.files ∧ s.opened f = false)
  | .createAlloc f v => decide (s.opened f = true ∧ v ≠ 0#64 ∧ s.refs v = 0)
  | .createFail j v _ => decide (s.call j = .creating v)
  | .createHandle j v h => decide (s.call j = .creating v ∧
      s.hold (.handle (s.caller j) h) = none)
  | .createReturn j v => decide (s.call j = .created v)
  | .memDestroy f _ | .memSync f _ | .submit f _ _ => s.opened f
  | .syncReturn j v => decide (s.call j = .syncing v)
  | .submitReturn j v _ => decide (s.call j = .submitting v)
  | .coreGet k v => decide (s.hold (.core k) = none ∧ 0 < s.refs v)
  | .corePut k => (s.hold (.core k)).isSome
  | .importHandle f h k => decide (s.opened f = true ∧ s.hold (.handle f h) = none ∧
      (s.hold (.core k)).isSome = true)

/-- What the step does. -/
def effect (s : State) : Action → State
  | .openFile => { s with files := s.files + 1, opened := update s.opened s.files true }
  | .closeFile f => { s with opened := update s.opened f false }
  | .release f h | .memDestroy f h => s.deleteHandle f h
  | .createAlloc f v =>
      { (s.take (.create s.calls) v).enter f (.creating v) with
        published := update s.published v false }
  | .createFail j v e => (s.drop (.create j) v).go j (.returned (some e))
  | .createHandle j v h => (s.take (.handle (s.caller j) h) v).go j (.created v)
  | .createReturn j v =>
      { (s.drop (.create j) v).go j (.returned none) with
        published := update s.published v true }
  -- the address is only compared with NULL
  | .memSync f v => s.enter f (if v = 0#64 then .returned (some .inval) else .syncing v)
  | .syncReturn j _ => s.go j (.returned none)
  | .submit f v taskNumber =>
      if taskNumber = 0#32 then s.enter f (.returned none)
      else if v = 0#64 then s.enter f (.returned (some .inval))
      else (s.take (.submit s.calls) v).enter f (.submitting v)
  | .submitReturn j v r => (s.drop (.submit j) v).go j (.returned r)
  | .coreGet k v => s.take (.core k) v
  | .corePut k => match s.hold (.core k) with
      | none => s
      | some v => s.drop (.core k) v
  | .importHandle f h k => match s.hold (.core k) with
      | none => s
      | some v => s.take (.handle f h) v

/-- The clients and the BOs as a transition system. -/
def gem : System State Action := fun s a => if enabled s a then some (effect s a) else none

theorem gem_eq_some {s t : State} {a : Action} :
    gem s a = some t ↔ enabled s a = true ∧ effect s a = t := by
  unfold gem
  split <;> simp_all

/-- The reference `rkopnu_ioctl_mem_create` holds itself. -/
def CallPc.createRef : CallPc → Option U64
  | .creating v | .created v => some v
  | _ => none

/-- The reference `rkopnu_ioctl_submit` holds. -/
def CallPc.submitRef : CallPc → Option U64
  | .submitting v => some v
  | _ => none

/-- The address the call is using as a BO that it has not made. -/
def CallPc.using : CallPc → Option U64
  | .syncing v | .submitting v => some v
  | _ => none

namespace State
variable (s : State)

/-- The file has a handle to the BO at `v`, whose address `MEM_CREATE` has returned. -/
def Valid (f : Nat) (v : U64) : Prop :=
  s.published v = true ∧ ∃ h, s.hold (.handle f h) = some v

/-- No call uses an address where no BO lives. -/
def UsesLive : Prop := ∀ j v, (s.call j).using = some v → 0 < s.refs v

/-- The call fails at once: no BO, no handle and no other call is touched. -/
def Refuses (f : Nat) (t : State) : Prop := ∃ e, t = s.enter f (.returned (some e))

/-- The BO whose reference the step drops. -/
def dropped : Action → Option U64
  | .release f h | .memDestroy f h => s.hold (.handle f h)
  | .createFail _ v _ | .createReturn _ v | .submitReturn _ v _ => some v
  | .corePut k => s.hold (.core k)
  | _ => none

/-- The step frees a BO that a `MEM_SYNC` is using. -/
def FreesSynced (a : Action) : Prop :=
  ∃ v j, s.dropped a = some v ∧ s.refs v = 1 ∧ s.call j = .syncing v

/-- The references are counted, and every running call holds what its position says. -/
structure Counted : Prop where
  counts : Counts s.hold s.refs
  createRef : ∀ j, s.hold (.create j) = (s.call j).createRef
  submitRef : ∀ j, s.hold (.submit j) = (s.call j).submitRef
  fresh : ∀ j, s.calls ≤ j → s.call j = .idle

end State

/-- A handler that is given an address either fails without touching anything, or the
address is that of a BO its file has a handle to. -/
def EntersValid (s : State) : Action → Prop
  | .memSync f v => s.Refuses f (effect s (.memSync f v)) ∨ s.Valid f v
  | .submit f v n => s.Refuses f (effect s (.submit f v n)) ∨ s.Valid f v
  | _ => True

/-- The clients name a BO of their own, where `MEM_SYNC` and a submit with tasks may also
name NULL, and nobody drops a BO for good while it is being synced. -/
def Careful (s : State) : Action → Prop
  | .memSync f v => v ≠ 0#64 → s.Valid f v
  | .submit f v n => n = 0#32 ∨ v ≠ 0#64 → s.Valid f v
  | a => ¬ s.FreesSynced a

/-- The step takes call `j` from one point of its ioctl to another. -/
inductive CallPc.Moves (s : State) : Action → Nat → CallPc → CallPc → Prop
  | createAlloc {f v} : Moves s (.createAlloc f v) s.calls .idle (.creating v)
  | createFail {j v e} : Moves s (.createFail j v e) j (.creating v) (.returned (some e))
  | createHandle {j v h} : Moves s (.createHandle j v h) j (.creating v) (.created v)
  | createReturn {j v} : Moves s (.createReturn j v) j (.created v) (.returned none)
  | memSync {f v} (hv : v ≠ 0#64) : Moves s (.memSync f v) s.calls .idle (.syncing v)
  | syncReturn {j v} : Moves s (.syncReturn j v) j (.syncing v) (.returned none)
  | submit {f v n} : Moves s (.submit f v n) s.calls .idle (.submitting v)
  | submitReturn {j v r} : Moves s (.submitReturn j v r) j (.submitting v) (.returned r)
  | refuse {a r} : Moves s a s.calls .idle (.returned r)

section Moves
variable {s : State} {a : Action}

theorem call_moved {i j : Nat} {p q : CallPc} (hp : s.call i = p)
    (hq : (effect s a).call = update s.call i q) (hmove : CallPc.Moves s a i p q) :
    CallPc.Moves s a j (s.call j) ((effect s a).call j) ∨ (effect s a).call j = s.call j :=
  (component_moved (R := CallPc.Moves s a) hp hq hmove).imp_right And.right

/-- A step takes a call from one point to the next, or leaves it where it stands. -/
theorem call_effect (fresh : s.call s.calls = .idle) (h : enabled s a = true) (j : Nat) :
    CallPc.Moves s a j (s.call j) ((effect s a).call j) ∨ (effect s a).call j = s.call j := by
  cases a with
  | createAlloc f v => exact call_moved fresh rfl .createAlloc
  | createFail i v e => exact call_moved (of_decide_eq_true h) rfl .createFail
  | createHandle i v k => exact call_moved (of_decide_eq_true h).1 rfl .createHandle
  | createReturn i v => exact call_moved (of_decide_eq_true h) rfl .createReturn
  | memSync f v =>
      by_cases hv : v = 0#64
      · exact call_moved fresh (by simp only [effect, if_pos hv]; rfl) .refuse
      · exact call_moved fresh (by simp only [effect, if_neg hv]; rfl) (.memSync hv)
  | syncReturn i v => exact call_moved (of_decide_eq_true h) rfl .syncReturn
  | submit f v n =>
      by_cases hn : n = 0#32
      · exact call_moved fresh (by simp only [effect, if_pos hn]; rfl) .refuse
      · by_cases hv : v = 0#64
        · exact call_moved fresh (by simp only [effect, if_neg hn, if_pos hv]; rfl) .refuse
        · exact call_moved fresh (by simp only [effect, if_neg hn, if_neg hv]; rfl) .submit
  | submitReturn i v r => exact call_moved (of_decide_eq_true h) rfl .submitReturn
  | release f i | memDestroy f i =>
      right
      simp only [effect, State.deleteHandle]
      split <;> rfl
  | corePut k | importHandle f i k =>
      right
      simp only [effect]
      split <;> rfl
  | _ => exact Or.inr rfl

end Moves

section Preserve
variable {s t : State} {a : Action} {j : Nat} {pc : CallPc}

/-- The references of a kind that the calls hold, one call being moved. -/
theorem refs_moved {holder : Nat → Holder} {ref : CallPc → Option U64}
    (keep : ∀ i, s.hold (holder i) = ref (s.call i)) (hcall : t.call = update s.call j pc)
    (hj : t.hold (holder j) = ref pc) (hother : ∀ i ≠ j, t.hold (holder i) = s.hold (holder i))
    (i : Nat) : t.hold (holder i) = ref (t.call i) := by
  by_cases hi : i = j
  · rw [hi, hj, hcall, Function.update_self]
  · rw [hother i hi, keep i, hcall, Function.update_of_ne hi]

theorem State.Counted.idle (inv : s.Counted) : s.call s.calls = .idle :=
  inv.fresh _ (Nat.le_refl _)

/-- A call is entered with the references that its position says. -/
theorem State.Counted.entered (inv : s.Counted) (pc : CallPc) (hcalls : t.calls = s.calls + 1)
    (hcall : t.call = update s.call s.calls pc) (counts : Counts t.hold t.refs)
    (hcreate : t.hold (.create s.calls) = pc.createRef)
    (hsubmit : t.hold (.submit s.calls) = pc.submitRef)
    (hother : ∀ i ≠ s.calls, t.hold (.create i) = s.hold (.create i) ∧
      t.hold (.submit i) = s.hold (.submit i)) : t.Counted where
  counts := counts
  createRef := refs_moved inv.createRef hcall hcreate fun i hi => (hother i hi).1
  submitRef := refs_moved inv.submitRef hcall hsubmit fun i hi => (hother i hi).2
  fresh i hi := by
    rw [hcall, Function.update_of_ne (by omega)]
    exact inv.fresh i (by omega)

/-- A running call goes on with the references that its position says. -/
theorem State.Counted.moved (inv : s.Counted) (pc : CallPc) (hrun : (s.call j).running = true)
    (hcalls : t.calls = s.calls) (hcall : t.call = update s.call j pc)
    (counts : Counts t.hold t.refs) (hcreate : t.hold (.create j) = pc.createRef)
    (hsubmit : t.hold (.submit j) = pc.submitRef)
    (hother : ∀ i ≠ j, t.hold (.create i) = s.hold (.create i) ∧
      t.hold (.submit i) = s.hold (.submit i)) : t.Counted where
  counts := counts
  createRef := refs_moved inv.createRef hcall hcreate fun i hi => (hother i hi).1
  submitRef := refs_moved inv.submitRef hcall hsubmit fun i hi => (hother i hi).2
  fresh i hi := by
    have hidle := inv.fresh i (hcalls ▸ hi)
    have hne : i ≠ j := by
      rintro rfl
      simp [hidle, CallPc.running] at hrun
    rw [hcall, Function.update_of_ne hne, hidle]

/-- A holder outside the driver's own calls takes a reference. -/
theorem State.Counted.take (inv : s.Counted) {i : Holder} (hfree : s.hold i = none)
    (hcreate : ∀ j, i ≠ .create j) (hsubmit : ∀ j, i ≠ .submit j) (v : U64) :
    (s.take i v).Counted where
  counts := inv.counts.take hfree v
  createRef j := by
    simpa [State.take, (hcreate j).symm] using inv.createRef j
  submitRef j := by
    simpa [State.take, (hsubmit j).symm] using inv.submitRef j
  fresh := inv.fresh

/-- A holder outside the driver's own calls drops its reference. -/
theorem State.Counted.drop (inv : s.Counted) {i : Holder} {v : U64} (hheld : s.hold i = some v)
    (hcreate : ∀ j, i ≠ .create j) (hsubmit : ∀ j, i ≠ .submit j) :
    (s.drop i v).Counted where
  counts := inv.counts.drop hheld
  createRef j := by
    simpa [State.drop, (hcreate j).symm] using inv.createRef j
  submitRef j := by
    simpa [State.drop, (hsubmit j).symm] using inv.submitRef j
  fresh := inv.fresh

theorem State.Counted.deleteHandle (inv : s.Counted) (f h : Nat) :
    (s.deleteHandle f h).Counted := by
  unfold State.deleteHandle
  split
  · exact inv
  · rename_i v hheld
    exact inv.drop hheld (by simp) (by simp)

/-- A call that holds nothing is entered. -/
theorem State.Counted.enter (inv : s.Counted) (f : Nat) (hcreate : pc.createRef = none)
    (hsubmit : pc.submitRef = none) : (s.enter f pc).Counted := by
  refine inv.entered _ rfl rfl inv.counts ?_ ?_ fun i _ => ⟨rfl, rfl⟩
  · rw [hcreate, show (s.enter f pc).hold = s.hold from rfl, inv.createRef, inv.idle]
    rfl
  · rw [hsubmit, show (s.enter f pc).hold = s.hold from rfl, inv.submitRef, inv.idle]
    rfl

/-- A call goes on to a position with the same references. -/
theorem State.Counted.go (inv : s.Counted) (hrun : (s.call j).running = true)
    (hcreate : pc.createRef = (s.call j).createRef)
    (hsubmit : pc.submitRef = (s.call j).submitRef) : (s.go j pc).Counted :=
  inv.moved _ hrun rfl rfl inv.counts (hcreate ▸ inv.createRef j) (hsubmit ▸ inv.submitRef j)
    fun _ _ => ⟨rfl, rfl⟩

/-- `rkopnu_ioctl_mem_create` puts the reference that it holds itself. -/
theorem State.Counted.dropCreate (inv : s.Counted) {v : U64} (r : Option Errno)
    (hrun : (s.call j).running = true) (hheld : (s.call j).createRef = some v)
    (hsubmit : (s.call j).submitRef = none) :
    ((s.drop (.create j) v).go j (.returned r)).Counted := by
  refine inv.moved _ hrun rfl rfl (inv.counts.drop ((inv.createRef j).trans hheld))
    (Function.update_self _ _ _) ((inv.submitRef j).trans hsubmit) fun i hi => ⟨?_, rfl⟩
  exact Function.update_of_ne (by simpa using hi) _ _

theorem State.Counted.preserve (inv : s.Counted) (h : enabled s a = true) :
    (effect s a).Counted := by
  cases a with
  | openFile | closeFile f => exact ⟨inv.counts, inv.createRef, inv.submitRef, inv.fresh⟩
  | release f i | memDestroy f i => exact inv.deleteHandle f i
  | createAlloc f v =>
      have hnone : s.hold (.create s.calls) = none := by
        rw [inv.createRef, inv.idle]
        rfl
      have hsubmit : s.hold (.submit s.calls) = none := by
        rw [inv.submitRef, inv.idle]
        rfl
      refine inv.entered (.creating v) rfl rfl (inv.counts.take hnone v)
        (Function.update_self _ _ _) ?_ fun i hi => ⟨?_, rfl⟩
      · exact hsubmit
      · exact Function.update_of_ne (by simpa using hi) _ _
  | createFail j v e =>
      have hcall : s.call j = .creating v := of_decide_eq_true h
      exact inv.dropCreate _ (by rw [hcall]; rfl) (by rw [hcall]; rfl) (by rw [hcall]; rfl)
  | createReturn j v =>
      have hcall : s.call j = .created v := of_decide_eq_true h
      have returned := inv.dropCreate (v := v) none (by rw [hcall]; rfl) (by rw [hcall]; rfl)
        (by rw [hcall]; rfl)
      exact ⟨returned.counts, returned.createRef, returned.submitRef, returned.fresh⟩
  | createHandle j v i =>
      obtain ⟨hcall, hfree⟩ := of_decide_eq_true h
      have taken := inv.take hfree (by simp) (by simp) v
      have hcall' : (s.take (.handle (s.caller j) i) v).call j = .creating v := hcall
      exact taken.go (by rw [hcall']; rfl) (by rw [hcall']; rfl) (by rw [hcall']; rfl)
  | memSync f v =>
      refine inv.enter f ?_ ?_ <;> split <;> rfl
  | syncReturn j v =>
      have hcall : s.call j = .syncing v := of_decide_eq_true h
      exact inv.go (by rw [hcall]; rfl) (by rw [hcall]; rfl) (by rw [hcall]; rfl)
  | submit f v n =>
      simp only [effect]
      split
      · exact inv.enter f rfl rfl
      · split
        · exact inv.enter f rfl rfl
        · have hnone : s.hold (.submit s.calls) = none := by
            rw [inv.submitRef, inv.idle]
            rfl
          have hcreate : s.hold (.create s.calls) = none := by
            rw [inv.createRef, inv.idle]
            rfl
          refine inv.entered (.submitting v) rfl rfl (inv.counts.take hnone v) ?_
            (Function.update_self _ _ _) fun i hi => ⟨rfl, ?_⟩
          · exact hcreate
          · exact Function.update_of_ne (by simpa using hi) _ _
  | submitReturn j v r =>
      have hcall : s.call j = .submitting v := of_decide_eq_true h
      have hheld : s.hold (.submit j) = some v := by
        rw [inv.submitRef, hcall]
        rfl
      have hcreate : s.hold (.create j) = none := by
        rw [inv.createRef, hcall]
        rfl
      refine inv.moved (.returned r) (by rw [hcall]; rfl) rfl rfl
        (inv.counts.drop hheld) hcreate (Function.update_self _ _ _) fun i hi => ⟨rfl, ?_⟩
      exact Function.update_of_ne (by simpa using hi) _ _
  | coreGet k v => exact inv.take (of_decide_eq_true h).1 (by simp) (by simp) v
  | corePut k =>
      simp only [effect]
      split
      · exact inv
      · rename_i v hheld
        exact inv.drop hheld (by simp) (by simp)
  | importHandle f i k =>
      have hfree := (of_decide_eq_true h).2.1
      simp only [effect]
      split
      · exact inv
      · exact inv.take hfree (by simp) (by simp) _

end Preserve

theorem counted_init : State.init.Counted where
  counts := counts_empty
  createRef := fun _ => rfl
  submitRef := fun _ => rfl
  fresh := fun _ _ => rfl

section Steps
variable {s : State} {a : Action} {v : U64} {j : Nat}

theorem le_refs_take (i : Holder) (w : U64) : s.refs v ≤ (s.take i w).refs v := by
  simp only [State.take, Function.update_apply]
  split
  · rename_i hv
    rw [hv]
    exact Nat.le_succ _
  · exact Nat.le_refl _

theorem refs_drop (i : Holder) (w : U64) :
    (some w = some v ∧ (s.drop i w).refs v = s.refs v - 1) ∨
      (some w ≠ some v ∧ s.refs v ≤ (s.drop i w).refs v) := by
  by_cases hw : w = v
  · subst hw
    exact Or.inl ⟨rfl, Function.update_self _ _ _⟩
  · refine Or.inr ⟨by simpa using hw, ?_⟩
    simp [State.drop, Ne.symm hw]

/-- A count goes down only by the one reference that the step drops. -/
theorem refs_effect (s : State) (a : Action) (v : U64) :
    (s.dropped a = some v ∧ (effect s a).refs v = s.refs v - 1) ∨
      (s.dropped a ≠ some v ∧ s.refs v ≤ (effect s a).refs v) := by
  cases a with
  | release f i | memDestroy f i =>
      simp only [effect, State.deleteHandle, State.dropped]
      cases s.hold (.handle f i) with
      | none => exact Or.inr ⟨by simp, Nat.le_refl _⟩
      | some w => exact refs_drop _ w
  | createFail i w e | createReturn i w => exact refs_drop (.create i) w
  | submitReturn i w r => exact refs_drop (.submit i) w
  | corePut k =>
      simp only [effect, State.dropped]
      cases s.hold (.core k) with
      | none => exact Or.inr ⟨by simp, Nat.le_refl _⟩
      | some w => exact refs_drop _ w
  | importHandle f i k =>
      simp only [effect, State.dropped]
      cases s.hold (.core k) with
      | none => exact Or.inr ⟨by simp, Nat.le_refl _⟩
      | some w => exact Or.inr ⟨by simp, le_refs_take _ w⟩
  | createAlloc f w => exact Or.inr ⟨by simp [State.dropped], le_refs_take (.create s.calls) w⟩
  | createHandle i w k =>
      exact Or.inr ⟨by simp [State.dropped], le_refs_take (.handle (s.caller i) k) w⟩
  | coreGet k w => exact Or.inr ⟨by simp [State.dropped], le_refs_take (.core k) w⟩
  | submit f w n =>
      refine Or.inr ⟨by simp [State.dropped], ?_⟩
      simp only [effect]
      split
      · exact Nat.le_refl _
      · split
        · exact Nat.le_refl _
        · exact le_refs_take (.submit s.calls) w
  | _ => exact Or.inr ⟨by simp [State.dropped], Nat.le_refl _⟩

/-- A call that is syncing was syncing before, or has just been entered. -/
theorem syncing_of_effect (fresh : s.call s.calls = .idle) (h : enabled s a = true)
    (hsync : (effect s a).call j = .syncing v) :
    s.call j = .syncing v ∨ (∃ f, a = .memSync f v ∧ v ≠ 0#64) := by
  rcases call_effect fresh h j with hmove | hstay
  · rw [hsync] at hmove
    generalize s.call j = p at hmove
    cases hmove with
    | memSync hv => exact Or.inr ⟨_, rfl, hv⟩
  · exact Or.inl (hstay.symm.trans hsync)

/-- Dropping a reference leaves the calls that sync alone. -/
theorem syncing_of_dropped (fresh : s.call s.calls = .idle) (hdrop : s.dropped a = some v)
    (h : enabled s a = true) (hsync : s.call j = .syncing v) :
    (effect s a).call j = .syncing v := by
  rcases call_effect fresh h j with hmove | hstay
  · rw [hsync] at hmove
    generalize (effect s a).call j = q at hmove
    cases hmove with
    | syncReturn => cases hdrop
  · exact hstay.trans hsync

theorem not_freesSynced_of_careful (ok : Careful s a) : ¬ s.FreesSynced a := by
  cases a with
  | memSync f w | submit f w n =>
      rintro ⟨v, j, hdrop, -⟩
      simp [State.dropped] at hdrop
  | _ => exact ok

/-- With careful clients, a BO that is being synced lives on. -/
theorem syncing_live (inv : s.Counted) (h : enabled s a = true) (ok : Careful s a)
    (live : ∀ j v, s.call j = .syncing v → 0 < s.refs v) (j : Nat) (v : U64)
    (hsync : (effect s a).call j = .syncing v) : 0 < (effect s a).refs v := by
  rcases syncing_of_effect inv.idle h hsync with hold | ⟨f, rfl, hv⟩
  · have hpos := live j v hold
    rcases refs_effect s a v with ⟨hdrop, hrefs⟩ | ⟨-, hrefs⟩
    · have hne : s.refs v ≠ 1 := fun hone =>
        not_freesSynced_of_careful ok ⟨v, j, hdrop, hone, hold⟩
      omega
    · omega
  · obtain ⟨-, i, hi⟩ := ok hv
    exact inv.counts.pos hi

/-- A submit keeps its BO alive by itself. -/
theorem State.Counted.usesLive (inv : s.Counted)
    (live : ∀ j v, s.call j = .syncing v → 0 < s.refs v) : s.UsesLive := by
  intro j v husing
  cases hcall : s.call j with
  | syncing w =>
      obtain rfl : w = v := by simpa [hcall, CallPc.using] using husing
      exact live j w hcall
  | submitting w =>
      obtain rfl : w = v := by simpa [hcall, CallPc.using] using husing
      have hheld : s.hold (.submit j) = some w := by
        rw [inv.submitRef, hcall]
        rfl
      exact inv.counts.pos hheld
  | _ => simp [hcall, CallPc.using] at husing

/-- Freeing a BO under a sync is seen in the next state. -/
theorem not_freesSynced_of_usesLive (inv : s.Counted) (h : enabled s a = true)
    (live : (effect s a).UsesLive) : ¬ s.FreesSynced a := by
  rintro ⟨v, j, hdrop, hone, hsync⟩
  have hpos := live j v (by rw [syncing_of_dropped inv.idle hdrop h hsync]; rfl)
  rcases refs_effect s a v with ⟨-, hrefs⟩ | ⟨hnot, -⟩
  · omega
  · exact hnot hdrop

/-- What the two handlers check is that the address is not NULL. -/
theorem entersValid_iff (s : State) (a : Action) :
    EntersValid s a ∧ ¬ s.FreesSynced a ↔ Careful s a := by
  refine ⟨?_, fun ok => ⟨?_, not_freesSynced_of_careful ok⟩⟩
  · rintro ⟨entered, frees⟩
    cases a with
    | memSync f v =>
        intro hv
        refine entered.resolve_left ?_
        rintro ⟨e, he⟩
        have hcall := congrFun (congrArg State.call he) s.calls
        simp [effect, State.enter, hv] at hcall
    | submit f v n =>
        intro hv
        refine entered.resolve_left ?_
        rintro ⟨e, he⟩
        have hcall := congrFun (congrArg State.call he) s.calls
        by_cases hn : n = 0#32
        · simp [effect, State.enter, hn] at hcall
        · simp [effect, State.enter, State.take, hn, hv.resolve_left hn] at hcall
    | _ => exact frees
  · cases a with
    | memSync f v =>
        by_cases hv : v = 0#64
        · exact Or.inl ⟨.inval, by simp [effect, hv]⟩
        · exact Or.inr (ok hv)
    | submit f v n =>
        by_cases hv : n = 0#32 ∨ v ≠ 0#64
        · exact Or.inr (ok hv)
        · obtain ⟨hn, hv⟩ := not_or.mp hv
          exact Or.inl ⟨.inval, by simp [effect, hn, not_not.mp hv]⟩
    | _ => trivial

end Steps

/-- In the run, every address that a handler follows is valid when it is given, and every
BO in use lives. -/
def UsesSound (acts : List Action) : Prop :=
  Along gem EntersValid State.init acts ∧ Throughout gem State.UsesLive State.init acts

/-- The addresses that the handlers follow are sound exactly when the clients are careful. -/
theorem usesSound_iff {acts : List Action} {s : State} (run : Runs gem State.init acts s) :
    UsesSound acts ↔ Along gem Careful State.init acts := by
  have keep : ∀ s a t, s.Counted → gem s a = some t → t.Counted := by
    intro s a t inv hstep
    obtain ⟨h, rfl⟩ := gem_eq_some.mp hstep
    exact inv.preserve h
  constructor
  · rintro ⟨entered, live⟩
    have kept : Along gem (fun s a => ¬ s.FreesSynced a) State.init acts := by
      refine along_of_throughout State.Counted keep ?_ run live counted_init
      intro s a t inv _ hstep live
      obtain ⟨h, rfl⟩ := gem_eq_some.mp hstep
      exact not_freesSynced_of_usesLive inv h live
    exact (entered.and kept).mono fun s a => (entersValid_iff s a).mp
  · intro along
    refine ⟨along.mono fun s a ok => ((entersValid_iff s a).mpr ok).1, ?_⟩
    refine throughout_of_along
      (fun s => s.Counted ∧ ∀ j v, s.call j = .syncing v → 0 < s.refs v) ?_
      (fun s inv => inv.1.usesLive inv.2) along ⟨counted_init, fun j v h => ?_⟩
    · rintro s a t ⟨inv, live⟩ ok hstep
      refine ⟨keep s a t inv hstep, ?_⟩
      obtain ⟨h, rfl⟩ := gem_eq_some.mp hstep
      exact syncing_live inv h ok live
    · simp [State.init] at h

/-- A client makes a BO at address `v` and gets handle 1. -/
def createSteps (v : U64) : List Action :=
  [.openFile, .createAlloc 0 v, .createHandle 0 v 1, .createReturn 0 v]

/-- One thread destroys the BO while another one syncs it. -/
def destroyedSteps : List Action :=
  createSteps 0x1000#64 ++ [.memSync 0 0x1000#64, .memDestroy 0 1]

theorem destroyedSteps_accepted :
    ((exec gem State.init destroyedSteps).map fun s =>
      decide (s.call 1 = .syncing 0x1000#64 ∧ s.refs 0x1000#64 = 0)) = some true := by
  decide

/-- `MEM_SYNC` is left with the address of a freed BO. -/
theorem synced_bo_freed : ¬ UsesSound destroyedSteps := by
  rintro ⟨-, live⟩
  obtain ⟨s, run, test⟩ := runs_of_test destroyedSteps_accepted
  obtain ⟨hcall, hrefs⟩ := of_decide_eq_true test
  have := live.last run 1 0x1000#64 (by rw [hcall]; rfl)
  omega

theorem usesSound_iff_on_destroyedSteps :
    ∃ s, Runs gem State.init destroyedSteps s ∧
      (UsesSound destroyedSteps ↔ Along gem Careful State.init destroyedSteps) := by
  obtain ⟨s, run, -⟩ := runs_of_test destroyedSteps_accepted
  exact ⟨s, run, usesSound_iff run⟩

end Rkopnu.Gem
