import Rkopnu.Table
import Rkopnu.Uapi
import Rkopnu.Foundation.Progress

/-!
# Loading and unloading the module

`rocket_register` registers the device that carries the DRM device, and then the driver.
`rocket_unregister` unbinds the cores and takes both back. An open file holds a reference on the
module, so the module does not leave under it.

## Implementation notes

The driver core keeps the bound devices of a driver in the order in which they were bound, and
a driver that leaves is unbound from the last of them to the first. A module leaves once its
last reference is gone, and gives out no reference from then on. A platform device is refused
when its name is taken.
-/

namespace Rkopnu.ModuleLife

open Transition

/-- `EEXIST`. -/
def eexist : Errno := .other 17

/-- Where the module stands. -/
inductive Life
  | absent
  /-- `rocket_register` has returned 0. -/
  | loaded
  /-- `rocket_unregister` runs. -/
  | leaving
  deriving DecidableEq, Repr

structure State where
  table : Table.State
  life : Life
  /-- The platform device `drm_dev` is registered. -/
  rknn : Bool
  /-- The bound devices, in the order in which they were bound. -/
  klist : List Nat
  /-- The references that `rocket_open` holds on the module. -/
  refs : Nat
  /-- The open files. -/
  files : Finset Nat

/-- The system has started. -/
def State.init (available : Finset Nat) : State where
  table := Table.State.init available
  life := .absent
  rknn := false
  klist := []
  refs := 0
  files := ∅

/-- `rocket_register`; `device` and `driver` are the answers of the kernel to a device whose name
is free, and to the driver. -/
def rocketRegister (s : State) (device driver : Option Errno) : Option Errno × State :=
  match if s.rknn then some eexist else device with
  | some e => (some e, s)
  | none =>
      match driver with
      -- the device stays registered
      | some e => (some e, { s with rknn := true })
      | none => (none, { s with rknn := true, life := .loaded })

/-- `rocket_open`; `answer` is that of the calls after `try_module_get`. -/
def rocketOpen (s : State) (f : Nat) (answer : Option Errno) : Option Errno × State :=
  if s.life ≠ .loaded then (some .inval, s)
  else
    match answer with
    | some e => (some e, s)
    | none => (none, { s with refs := s.refs + 1, files := insert f s.files })

/-- `rocket_postclose`. -/
def rocketPostclose (s : State) (f : Nat) : State :=
  { s with refs := s.refs - 1, files := s.files.erase f }

/-- `rocket_probe` of the device succeeds. -/
def State.bind (s : State) (d : Nat) : State :=
  { s with table := Table.effect s.table (.probe d), klist := s.klist ++ [d] }

/-- The device is unbound with `rocket_remove`. -/
def State.unbind (s : State) (d : Nat) : State :=
  { s with table := Table.effect s.table (.remove d), klist := s.klist.erase d }

inductive Action
  | load (device driver : Option Errno)
  | probe (d : Nat)
  /-- The device is unbound by hand. -/
  | unbind (d : Nat)
  | openFile (f : Nat) (answer : Option Errno)
  | postclose (f : Nat)
  /-- The module is told to leave. -/
  | unload
  /-- `platform_driver_unregister` unbinds one device. -/
  | detach (d : Nat)
  /-- `platform_device_unregister`; the module is gone. -/
  | unregister
  deriving DecidableEq, Repr

/-- The step can be taken. -/
def enabled (s : State) : Action → Bool
  | .load _ _ => decide (s.life = .absent)
  | .probe d => decide (s.life = .loaded) && Table.enabled s.table (.probe d)
  | .unbind d => decide (s.life = .loaded) && Table.enabled s.table (.remove d)
  | .openFile f _ => s.table.registered && decide (f ∉ s.files)
  | .postclose f => decide (f ∈ s.files)
  | .unload => decide (s.life = .loaded ∧ s.refs = 0)
  | .detach d => decide (s.life = .leaving ∧ s.klist.getLast? = some d)
  | .unregister => decide (s.life = .leaving ∧ s.klist = [])

/-- What the step does. -/
def effect (s : State) : Action → State
  | .load device driver => (rocketRegister s device driver).2
  | .probe d => s.bind d
  | .unbind d | .detach d => s.unbind d
  | .openFile f answer => (rocketOpen s f answer).2
  | .postclose f => rocketPostclose s f
  | .unload => { s with life := .leaving }
  | .unregister => { s with
      table := Table.State.init s.table.available
      life := .absent
      rknn := false }

/-- The module as a transition system. -/
def lifecycle : System State Action := fun s a =>
  if enabled s a then some (effect s a) else none

theorem lifecycle_eq_some {s t : State} {a : Action} :
    lifecycle s a = some t ↔ enabled s a = true ∧ effect s a = t := by
  unfold lifecycle
  split <;> simp_all

/-- By hand only the device that was bound last is unbound. -/
def UnbindsLast (s : State) (a : Action) : Prop := ∀ d, a = .unbind d → s.klist.getLast? = some d

instance (s : State) (a : Action) : Decidable (UnbindsLast s a) :=
  match a with
  | .unbind d => decidable_of_iff (s.klist.getLast? = some d)
      ⟨fun h e he => by obtain rfl := Action.unbind.inj he; exact h, fun h => h d rfl⟩
  | .load _ _ | .probe _ | .openFile _ _ | .postclose _ | .unload | .detach _ | .unregister =>
      isTrue fun _ h => by cases h

/-- The step is one of `rocket_unregister`. -/
def Action.ofExit : Action → Bool
  | .detach _ | .unregister => true
  | _ => false

/-- What is known of the module: the table lists the devices in the order of their binding. -/
structure Living (s : State) : Prop where
  sized : Table.Sized s.table
  sound : Table.TableSound s.table
  length : s.klist.length = s.table.numCores
  entries : ∀ i < s.table.numCores, (s.table.cores i).dev = s.klist[i]?
  refs : s.refs = s.files.card
  leaving : s.life = .leaving → s.refs = 0
  absent : s.life = .absent → s.klist = []

section Step
variable {s : State} {d : Nat}

theorem Living.entry_of_last (inv : Living s) (hlast : s.klist.getLast? = some d) :
    0 < s.table.numCores ∧ (s.table.cores (s.table.numCores - 1)).dev = some d := by
  have hpos : 0 < s.klist.length := by
    cases hk : s.klist with
    | nil => simp [hk] at hlast
    | cons e rest => simp
  rw [inv.length] at hpos
  refine ⟨hpos, ?_⟩
  rw [inv.entries _ (by omega), ← hlast, List.getLast?_eq_getElem?, inv.length]

/-- The device that was bound last is the one at the end of the table. -/
theorem Living.removesLast (inv : Living s) (hlast : s.klist.getLast? = some d) :
    Table.RemovesLast s.table (.remove d) := by
  intro e he
  obtain rfl := Table.Action.remove.inj he
  exact (inv.entry_of_last hlast).2

theorem Living.mem_bound (inv : Living s) (hlast : s.klist.getLast? = some d) :
    d ∈ s.table.bound := by
  obtain ⟨hpos, hdev⟩ := inv.entry_of_last hlast
  obtain ⟨e, he, hdev'⟩ := inv.sound.occupied (k := s.table.numCores - 1) (by omega)
  obtain rfl := Option.some.inj (hdev.symm.trans hdev')
  exact he

/-- No device is listed twice. -/
theorem Living.erase_last (inv : Living s) (hlast : s.klist.getLast? = some d) :
    s.klist.erase d = s.klist.dropLast := by
  obtain ⟨hpos, hdev⟩ := inv.entry_of_last hlast
  obtain ⟨i, -, -, -, -, honly⟩ := inv.sound.found d (inv.mem_bound hlast)
  have hnot : d ∉ s.klist.dropLast := by
    intro hmem
    obtain ⟨k, hk, hkd⟩ := List.mem_iff_getElem.mp hmem
    rw [List.length_dropLast, inv.length] at hk
    rw [List.getElem_dropLast] at hkd
    have hdevk : (s.table.cores k).dev = some d := by
      rw [inv.entries k (by omega), ← hkd]
      exact List.getElem?_eq_getElem _
    have hki := honly k (by omega) hdevk
    have hlasti := honly _ (by omega) hdev
    omega
  conv_lhs => rw [← List.dropLast_append_getLast? d hlast]
  rw [List.erase_append_right [d] hnot]
  simp

theorem Living.bind (inv : Living s) (hlife : s.life = .loaded)
    (h : Table.enabled s.table (.probe d) = true) : Living (s.bind d) := by
  have app := inv.sized.appended h
  refine ⟨inv.sized.preserve h, inv.sound.probe inv.sized h, ?_, fun i hi => ?_, inv.refs,
    inv.leaving, fun habs => by simp [State.bind, hlife] at habs⟩
  · simp [State.bind, app.numCores, inv.length]
  · change i < (Table.effect s.table (.probe d)).numCores at hi
    change ((Table.effect s.table (.probe d)).cores i).dev = (s.klist ++ [d])[i]?
    rw [app.numCores] at hi
    by_cases hlt : i < s.table.numCores
    · rw [app.cores i hlt, List.getElem?_append_left (by rw [inv.length]; exact hlt),
        inv.entries i hlt]
    · obtain rfl : i = s.table.numCores := by omega
      rw [app.last, ← inv.length]
      simp

theorem Living.unbind (inv : Living s) (hlast : s.klist.getLast? = some d)
    (habsent : s.life ≠ .absent) : Living (s.unbind d) := by
  have hmem := inv.mem_bound hlast
  have hen : Table.enabled s.table (.remove d) = true := decide_eq_true hmem
  obtain ⟨i, -, hfind, -⟩ := inv.sound.found d hmem
  have hnum : (s.unbind d).table.numCores = s.table.numCores - 1 := by
    simp [State.unbind, Table.effect, hfind]
  have hcores : (s.unbind d).table.cores = s.table.cores := by
    simp [State.unbind, Table.effect, hfind]
  have hklist : (s.unbind d).klist = s.klist.dropLast := inv.erase_last hlast
  refine ⟨inv.sized.preserve hen, inv.sound.remove (inv.removesLast hlast) hen, ?_,
    fun k hk => ?_, inv.refs, inv.leaving, fun h => absurd h habsent⟩
  · rw [hklist, hnum, List.length_dropLast, inv.length]
  · rw [hnum] at hk
    rw [hcores, hklist, inv.entries k (by omega), List.getElem?_dropLast, if_pos]
    rw [inv.length]
    exact hk

theorem Living.step {a : Action} (inv : Living s) (last : UnbindsLast s a)
    (h : enabled s a = true) : Living (effect s a) := by
  cases a with
  | load device driver =>
      have habs : s.life = .absent := of_decide_eq_true h
      have hklist := inv.absent habs
      simp only [effect, rocketRegister]
      split
      · exact inv
      · cases driver with
        | some e => exact ⟨inv.sized, inv.sound, inv.length, inv.entries, inv.refs, inv.leaving,
            inv.absent⟩
        | none => exact ⟨inv.sized, inv.sound, inv.length, inv.entries, inv.refs,
            fun hl => (by cases hl), fun hl => (by cases hl)⟩
  | probe d =>
      obtain ⟨hlife, hen⟩ := Bool.and_eq_true_iff.mp h
      exact inv.bind (of_decide_eq_true hlife) hen
  | unbind d =>
      obtain ⟨hlife, -⟩ := Bool.and_eq_true_iff.mp h
      exact inv.unbind (last d rfl) (by simp [of_decide_eq_true hlife])
  | openFile f answer =>
      obtain ⟨-, hf⟩ := Bool.and_eq_true_iff.mp h
      simp only [effect, rocketOpen]
      split
      · exact inv
      · rename_i hlife
        cases answer with
        | some e => exact inv
        | none =>
            refine ⟨inv.sized, inv.sound, inv.length, inv.entries, ?_, fun hl => ?_, inv.absent⟩
            · rw [Finset.card_insert_of_notMem (of_decide_eq_true hf), inv.refs]
            · exact absurd (hl.symm.trans (not_not.mp hlife)) (by decide)
  | postclose f =>
      have hf : f ∈ s.files := of_decide_eq_true h
      refine ⟨inv.sized, inv.sound, inv.length, inv.entries, ?_, fun hl => ?_, inv.absent⟩
      · simp only [effect, rocketPostclose]
        rw [Finset.card_erase_of_mem hf, inv.refs]
      · simp [effect, rocketPostclose, inv.leaving hl]
  | unload =>
      obtain ⟨-, hrefs⟩ : s.life = .loaded ∧ s.refs = 0 := of_decide_eq_true h
      exact ⟨inv.sized, inv.sound, inv.length, inv.entries, inv.refs, fun _ => hrefs,
        fun hl => by cases hl⟩
  | detach d =>
      obtain ⟨hlife, hlast⟩ : s.life = .leaving ∧ s.klist.getLast? = some d := of_decide_eq_true h
      exact inv.unbind hlast (by simp [hlife])
  | unregister =>
      obtain ⟨-, hklist⟩ : s.life = .leaving ∧ s.klist = [] := of_decide_eq_true h
      refine ⟨Table.Sized.initial _, Table.TableSound.initial _, ?_, fun i hi => ?_, inv.refs,
        fun hl => (by cases hl), fun _ => hklist⟩
      · simp [effect, hklist, Table.State.init]
      · simp [effect, Table.State.init] at hi

theorem Living.initial (devs : Finset Nat) : Living (State.init devs) where
  sized := Table.Sized.initial devs
  sound := Table.TableSound.initial devs
  length := rfl
  entries := fun i hi => by simp [State.init, Table.State.init] at hi
  refs := rfl
  leaving := fun _ => rfl
  absent := fun _ => rfl

theorem Living.of_run {t : State} {acts : List Action} (inv : Living s)
    (run : Runs lifecycle s acts t) (last : Along lifecycle UnbindsLast s acts) : Living t := by
  refine invariant_along Living (fun s a t inv hlast hstep => ?_) last run inv
  obtain ⟨h, rfl⟩ := lifecycle_eq_some.mp hstep
  exact inv.step hlast h

/-- The exit has a step to take until the module is gone, and each brings it nearer. -/
theorem Living.reach_absent (inv : Living s) (hlife : s.life = .leaving) :
    CanReach lifecycle (fun a => a.ofExit = true)
      (fun t => t.life = .absent ∧ t.table.bound = ∅ ∧ t.table.registered = false ∧
        t.rknn = false) s := by
  have emptied : CanReach lifecycle (fun a => a.ofExit = true)
      (fun t => (Living t ∧ t.life = .leaving) ∧ t.klist = []) s := by
    refine canReach_of_measure (fun t => Living t ∧ t.life = .leaving)
      (fun t => t.klist.length) ?_ ⟨inv, hlife⟩
    rintro t ⟨inv, hlife⟩ hmore
    obtain ⟨d, hlast⟩ : ∃ d, t.klist.getLast? = some d :=
      ⟨_, List.getLast?_eq_some_getLast hmore⟩
    refine ⟨.detach d, t.unbind d, rfl, lifecycle_eq_some.mpr ⟨decide_eq_true ⟨hlife, hlast⟩, rfl⟩,
      ⟨inv.unbind hlast (by simp [hlife]), hlife⟩, ?_⟩
    rw [show (t.unbind d).klist = t.klist.dropLast from inv.erase_last hlast, List.length_dropLast]
    have := List.length_pos_iff.mpr hmore
    omega
  refine emptied.bind ?_
  rintro t ⟨⟨-, hlife⟩, hnone⟩
  exact .next (a := .unregister) rfl
    (lifecycle_eq_some.mpr ⟨decide_eq_true ⟨hlife, hnone⟩, rfl⟩) (.here ⟨rfl, rfl, rfl, rfl⟩)

end Step

/-- In every run in which only the device bound last is unbound by hand, the table of cores is
right, the module is referenced by the open files and no others, a device that the exit unbinds
is the one at the end of the table and no file is open then; and the exit is never stuck. -/
theorem module_exit_sound {devs : Finset Nat} {acts : List Action} {s : State}
    (run : Runs lifecycle (State.init devs) acts s)
    (last : Along lifecycle UnbindsLast (State.init devs) acts) :
    Table.TableSound s.table ∧ s.refs = s.files.card ∧
      (∀ d, enabled s (.detach d) = true →
        d ∈ s.table.bound ∧ Table.RemovesLast s.table (.remove d) ∧ s.files = ∅) ∧
      (s.life = .leaving → CanReach lifecycle (fun a => a.ofExit = true)
        (fun t => t.life = .absent ∧ t.table.bound = ∅ ∧ t.table.registered = false ∧
          t.rknn = false) s) := by
  have inv := (Living.initial devs).of_run run last
  refine ⟨inv.sound, inv.refs, fun d h => ?_, inv.reach_absent⟩
  obtain ⟨hlife, hlast⟩ : s.life = .leaving ∧ s.klist.getLast? = some d := of_decide_eq_true h
  refine ⟨inv.mem_bound hlast, inv.removesLast hlast, Finset.card_eq_zero.mp ?_⟩
  rw [← inv.refs, inv.leaving hlife]

/-- Three cores are bound and the last of them is unbound by hand, a file is opened and closed,
and the module is told to leave. -/
def openedOnce : List Action :=
  [.load none none, .probe 4, .probe 2, .probe 6, .openFile 0 none, .unbind 6, .postclose 0,
    .unload]

theorem openedOnce_accepted :
    ((exec lifecycle (State.init {2, 4, 6}) openedOnce).map fun s =>
      decide (s.life = .leaving ∧ s.klist = [4, 2])) = some true := by
  decide

theorem module_exit_sound_openedOnce : ∃ s,
    Runs lifecycle (State.init {2, 4, 6}) openedOnce s ∧ Table.RemovesLast s.table (.remove 2) ∧
    CanReach lifecycle (fun a => a.ofExit = true) (fun t => t.life = .absent) s := by
  obtain ⟨s, run, test⟩ := runs_of_test openedOnce_accepted
  obtain ⟨hlife, hklist⟩ := of_decide_eq_true test
  obtain ⟨-, -, hdetach, hexit⟩ := module_exit_sound run
    (along_of_decide (by decide))
  refine ⟨s, run, (hdetach 2 (decide_eq_true ⟨hlife, by rw [hklist]; rfl⟩)).2.1, ?_⟩
  exact (hexit hlife).bind fun t ht => .here ht.1

/-- Some load of the run got its device and then failed to register the driver. -/
def FailedRegister (acts : List Action) : Prop := ∃ e, Action.load none (some e) ∈ acts

/-- What a run has left of the platform device: an absent module has nothing bound, and its device
is registered if some load failed half-way, after which the module stays absent. -/
structure Registration (acts : List Action) (s : State) : Prop where
  bare : s.life = .absent → s.table.bound = ∅ ∧ s.table.registered = false
  taken : FailedRegister acts → s.life = .absent ∧ s.rknn = true
  free : ¬ FailedRegister acts → s.life = .absent → s.rknn = false

section Registration
variable {acts : List Action} {s : State} {a : Action}

theorem failedRegister_append :
    FailedRegister (acts ++ [a]) ↔ FailedRegister acts ∨ ∃ e, a = .load none (some e) := by
  simp only [FailedRegister, List.mem_append, List.mem_singleton, eq_comm (a := a), exists_or]

theorem Registration.initial (devs : Finset Nat) : Registration [] (State.init devs) where
  bare := fun _ => ⟨rfl, rfl⟩
  taken := fun h => by simp [FailedRegister] at h
  free := fun _ _ => rfl

/-- A load goes one of three ways, the second of which leaves the device behind. -/
theorem load_cases (s : State) (device driver : Option Errno) :
    (∃ e, rocketRegister s device driver = (some e, s) ∧
      (s.rknn = true ∨ device ≠ none)) ∨
    (∃ e, s.rknn = false ∧ device = none ∧ driver = some e ∧
      rocketRegister s device driver = (some e, { s with rknn := true })) ∨
    (s.rknn = false ∧ device = none ∧ driver = none ∧
      rocketRegister s device driver = (none, { s with rknn := true, life := .loaded })) := by
  cases hr : s.rknn <;> cases device <;> cases driver <;> simp [rocketRegister, hr]

theorem Registration.load (inv : Registration acts s) {device driver : Option Errno}
    (h : enabled s (.load device driver) = true) :
    Registration (acts ++ [.load device driver]) (effect s (.load device driver)) := by
  have hlife : s.life = .absent := of_decide_eq_true h
  rcases load_cases s device driver with ⟨e, heq, hwhy⟩ | ⟨e, hfree, rfl, rfl, heq⟩ |
    ⟨hfree, rfl, rfl, heq⟩
  · -- the device is refused, and the state stays as it is
    have hsame : effect s (.load device driver) = s := congrArg Prod.snd heq
    rw [hsame]
    refine ⟨inv.bare, fun hnow => ?_, fun hnow => inv.free fun hold => hnow ?_⟩
    · rcases failedRegister_append.mp hnow with hold | ⟨e, he⟩
      · exact inv.taken hold
      · obtain ⟨rfl, -⟩ := Action.load.inj he
        exact ⟨hlife, hwhy.resolve_right (by simp)⟩
    · exact failedRegister_append.mpr (.inl hold)
  · -- the driver is refused
    have hleft : effect s (.load none (some e)) = { s with rknn := true } :=
      congrArg Prod.snd heq
    rw [hleft]
    exact ⟨inv.bare, fun _ => ⟨hlife, rfl⟩,
      fun hnot => absurd (failedRegister_append.mpr (.inr ⟨e, rfl⟩)) hnot⟩
  · have hloaded : effect s (.load none none) = { s with rknn := true, life := .loaded } :=
      congrArg Prod.snd heq
    rw [hloaded]
    refine ⟨nofun, fun hnow => ?_, fun _ => nofun⟩
    rcases failedRegister_append.mp hnow with hold | ⟨e, he⟩
    · rw [(inv.taken hold).2] at hfree
      cases hfree
    · cases he

/-- While the module is there no load of the run has failed half-way. -/
theorem Registration.of_present (inv : Registration acts s) (hbefore : s.life ≠ .absent)
    (hafter : (effect s a).life ≠ .absent) (hother : ∀ e, a ≠ .load none (some e)) :
    Registration (acts ++ [a]) (effect s a) := by
  refine ⟨fun ha => absurd ha hafter, fun hnow => ?_, fun _ ha => absurd ha hafter⟩
  rcases failedRegister_append.mp hnow with hold | ⟨e, he⟩
  · exact absurd (inv.taken hold).1 hbefore
  · exact absurd he (hother e)

theorem Registration.step (inv : Registration acts s) (h : enabled s a = true) :
    Registration (acts ++ [a]) (effect s a) := by
  cases a with
  | load device driver => exact inv.load h
  | openFile f answer =>
      have hreg := (Bool.and_eq_true_iff.mp h).1
      have hlife : s.life ≠ .absent := fun ha => by simp [(inv.bare ha).2] at hreg
      refine inv.of_present hlife ?_ nofun
      cases answer <;> simp only [effect, rocketOpen] <;> split <;> exact hlife
  | postclose f =>
      have hkept : FailedRegister (acts ++ [.postclose f]) ↔ FailedRegister acts :=
        failedRegister_append.trans (or_iff_left nofun)
      exact ⟨inv.bare, fun hnow => inv.taken (hkept.mp hnow),
        fun hnow => inv.free (mt hkept.mpr hnow)⟩
  | unregister =>
      obtain ⟨hlife, -⟩ : s.life = .leaving ∧ s.klist = [] := of_decide_eq_true h
      refine ⟨fun _ => ⟨rfl, rfl⟩, fun hnow => ?_, fun _ _ => rfl⟩
      rcases failedRegister_append.mp hnow with hold | ⟨e, he⟩
      · rw [(inv.taken hold).1] at hlife
        cases hlife
      · cases he
  | probe d | unbind d =>
      have hlife : s.life = .loaded := of_decide_eq_true (Bool.and_eq_true_iff.mp h).1
      exact inv.of_present (by simp [hlife]) (by simp [effect, State.bind, State.unbind, hlife])
        nofun
  | unload =>
      obtain ⟨hlife, -⟩ : s.life = .loaded ∧ s.refs = 0 := of_decide_eq_true h
      exact inv.of_present (by simp [hlife]) (by simp [effect]) nofun
  | detach d =>
      obtain ⟨hlife, -⟩ : s.life = .leaving ∧ s.klist.getLast? = some d := of_decide_eq_true h
      exact inv.of_present (by simp [hlife]) (by simp [effect, State.unbind, hlife]) nofun

end Registration

/-- Once a load has registered the device and failed to register the driver, the module stays
absent with nothing bound, whatever comes next; and an absent module can be loaded, the kernel
willing, exactly as long as no load has failed there. -/
theorem load_blocked_iff_failedRegister {devs : Finset Nat} {acts : List Action} {s : State}
    (run : Runs lifecycle (State.init devs) acts s) :
    (FailedRegister acts → s.life = .absent ∧ s.table.bound = ∅) ∧
      (s.life = .absent →
        ((∀ device driver, (rocketRegister s device driver).1 ≠ none) ↔
          FailedRegister acts)) := by
  have inv : Registration acts s := history Registration (Registration.initial devs)
    (fun done u a v _ inv hstep => by
      obtain ⟨h, rfl⟩ := lifecycle_eq_some.mp hstep
      exact inv.step h) run
  refine ⟨fun hfailed => ?_, fun hlife => ⟨fun hall => ?_, fun hfailed device driver => ?_⟩⟩
  · have hlife := (inv.taken hfailed).1
    exact ⟨hlife, (inv.bare hlife).1⟩
  · by_contra hnot
    exact hall none none (by simp [rocketRegister, inv.free hnot hlife])
  · simp [rocketRegister, (inv.taken hfailed).2]

/-- The module comes, binds a core and goes. -/
def comesAndGoes : List Action := [.load none none, .probe 4, .unbind 4, .unload, .unregister]

/-- The driver is refused at the next load, and one more is tried. -/
def refusedLater : List Action := comesAndGoes ++ [.load none (some .nomem), .load none none]

theorem comesAndGoes_accepted :
    ((exec lifecycle (State.init {2, 4}) comesAndGoes).map fun s =>
      decide (s.life = .absent)) = some true ∧
    ((exec lifecycle (State.init {2, 4}) refusedLater).map fun s =>
      decide (s.life = .absent)) = some true := by
  decide

theorem load_blocked_iff_failedRegister_refusedLater :
    (∃ s, Runs lifecycle (State.init {2, 4}) comesAndGoes s ∧
      ¬ ∀ device driver, (rocketRegister s device driver).1 ≠ none) ∧
    ∃ s, Runs lifecycle (State.init {2, 4}) refusedLater s ∧ s.table.bound = ∅ ∧
      ∀ device driver, (rocketRegister s device driver).1 ≠ none := by
  obtain ⟨s, first, hfirst⟩ := runs_of_test comesAndGoes_accepted.1
  obtain ⟨t, later, hlater⟩ := runs_of_test comesAndGoes_accepted.2
  obtain ⟨-, free⟩ := load_blocked_iff_failedRegister first
  obtain ⟨bare, blocked⟩ := load_blocked_iff_failedRegister later
  have hfailed : FailedRegister refusedLater := ⟨.nomem, by simp [refusedLater]⟩
  refine ⟨⟨s, first, fun hall => ?_⟩, t, later, (bare hfailed).2,
    (blocked (of_decide_eq_true hlater)).mpr hfailed⟩
  simpa [FailedRegister, comesAndGoes] using (free (of_decide_eq_true hfirst)).mp hall

end Rkopnu.ModuleLife
