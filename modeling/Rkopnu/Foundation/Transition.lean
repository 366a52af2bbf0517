import Mathlib.Data.List.Basic
import Mathlib.Logic.Function.Basic

/-!
# Deterministic labelled transition systems

A system is a step function on states that may refuse an action. A run is the
list of its actions, and every state it passes through is recovered by
replaying the list. Properties of a run are stated about the replayed states
(`Throughout`) and about the steps taken between them (`Along`).

## Implementation notes

Nondeterminism of the environment is carried by the action itself, so a run
has exactly one final state and no history variable is needed for it.
-/

namespace Rkopnu.Transition

variable {σ τ α β : Type*}

/-- One action is either refused or leads to exactly one next state. -/
abbrev System (σ α : Type*) := σ → α → Option σ

/-- Replay a list of actions; one refused action refuses the whole run. -/
def exec (step : System σ α) : σ → List α → Option σ
  | s, [] => some s
  | s, a :: rest => (step s a).bind fun t => exec step t rest

/-- The run `acts` is accepted from `s` and ends in `t`. -/
def Runs (step : System σ α) (s : σ) (acts : List α) (t : σ) : Prop :=
  exec step s acts = some t

/-- Every step of the run meets a condition on the state before it. -/
def Along (step : System σ α) (P : σ → α → Prop) : σ → List α → Prop
  | _, [] => True
  | s, a :: rest => P s a ∧ ∀ t, step s a = some t → Along step P t rest

/-- Every state of the run, the first and the last included, has a property. -/
def Throughout (step : System σ α) (P : σ → Prop) : σ → List α → Prop
  | s, [] => P s
  | s, a :: rest => P s ∧ ∀ t, step s a = some t → Throughout step P t rest

/-- The sum over the steps of a run of a number read off each step. -/
def total (step : System σ α) (f : σ → α → Nat) : σ → List α → Nat
  | _, [] => 0
  | s, a :: rest => f s a + (step s a).elim 0 fun t => total step f t rest

/-- Replay a list of actions, testing every step in the state before it. -/
def check (step : System σ α) (test : σ → α → Bool) : σ → List α → Bool
  | _, [] => true
  | s, a :: rest => test s a && (step s a).all fun t => check step test t rest

section Replay
variable {step : System σ α}

@[simp] theorem runs_nil {s t : σ} : Runs step s [] t ↔ s = t :=
  ⟨Option.some.inj, congrArg some⟩

theorem runs_cons {s u : σ} {a : α} {rest : List α} :
    Runs step s (a :: rest) u ↔ ∃ t, step s a = some t ∧ Runs step t rest u :=
  Option.bind_eq_some_iff

theorem runs_single {s t : σ} {a : α} : Runs step s [a] t ↔ step s a = some t := by
  simp [Runs, exec]

theorem Runs.append {s t u : σ} {front back : List α} (h : Runs step s front t)
    (k : Runs step t back u) : Runs step s (front ++ back) u := by
  induction front generalizing s with
  | nil => simpa [runs_nil.mp h] using k
  | cons a rest ih =>
      obtain ⟨v, hv, hrest⟩ := runs_cons.mp h
      exact runs_cons.mpr ⟨v, hv, ih hrest⟩

/-- A replayed run whose last state passes a test. -/
theorem runs_of_test {s : σ} {acts : List α} {test : σ → Bool}
    (h : (exec step s acts).map test = some true) : ∃ t, Runs step s acts t ∧ test t = true := by
  obtain ⟨t, ht, htest⟩ := Option.map_eq_some_iff.mp h
  exact ⟨t, ht, htest⟩

/-- What a replay computes of its last state. -/
theorem Runs.map_eq {s t : σ} {acts : List α} {β : Type*} {f : σ → β} {v : β}
    (run : Runs step s acts t) (h : (exec step s acts).map f = some v) : f t = v := by
  rw [show exec step s acts = some t from run] at h
  exact Option.some.inj h

end Replay

section Invariants
variable {step : System σ α}

/-- The run rule with a condition on the steps: what one admitted step keeps,
a run of admitted steps keeps. -/
theorem invariant_along {P : σ → α → Prop} (Inv : σ → Prop)
    (keep : ∀ s a t, Inv s → P s a → step s a = some t → Inv t)
    {s t : σ} {acts : List α} (along : Along step P s acts)
    (run : Runs step s acts t) (start : Inv s) : Inv t := by
  induction acts generalizing s with
  | nil => exact runs_nil.mp run ▸ start
  | cons a rest ih =>
      obtain ⟨u, hu, hrest⟩ := runs_cons.mp run
      exact ih (along.2 u hu) hrest (keep s a u start along.1 hu)

/-- The run rule without a condition on the steps. -/
theorem invariant (Inv : σ → Prop)
    (keep : ∀ s a t, Inv s → step s a = some t → Inv t)
    {s t : σ} {acts : List α} (run : Runs step s acts t) (start : Inv s) : Inv t := by
  induction acts generalizing s with
  | nil => exact runs_nil.mp run ▸ start
  | cons a rest ih =>
      obtain ⟨u, hu, hrest⟩ := runs_cons.mp run
      exact ih hrest (keep s a u start hu)

/-- The run rule for what a run has done so far: the invariant speaks of the
actions already taken and of the state they led to. -/
theorem history (Inv : List α → σ → Prop) {s : σ} (start : Inv [] s)
    (keep : ∀ done u a v, Runs step s done u → Inv done u → step u a = some v →
      Inv (done ++ [a]) v)
    {t : σ} {acts : List α} (run : Runs step s acts t) : Inv acts t := by
  have extend : ∀ rest done u, Runs step s done u → Inv done u → Runs step u rest t →
      Inv (done ++ rest) t := by
    intro rest
    induction rest with
    | nil =>
        intro done u _ hInv hrest
        simpa [runs_nil.mp hrest] using hInv
    | cons a rest ih =>
        intro done u hdone hInv hrest
        obtain ⟨v, hv, hmore⟩ := runs_cons.mp hrest
        have hlonger := ih (done ++ [a]) v (hdone.append (runs_single.mpr hv))
          (keep done u a v hdone hInv hv) hmore
        simpa using hlonger
  simpa using extend acts [] s (runs_nil.mpr rfl) start run

/-- An invariant kept by the admitted steps puts its consequences in every
state of a run of admitted steps. -/
theorem throughout_of_along {P : σ → α → Prop} {Q : σ → Prop} (Inv : σ → Prop)
    (keep : ∀ s a t, Inv s → P s a → step s a = some t → Inv t)
    (use : ∀ s, Inv s → Q s) {s : σ} {acts : List α}
    (along : Along step P s acts) (start : Inv s) : Throughout step Q s acts := by
  induction acts generalizing s with
  | nil => exact use s start
  | cons a rest ih =>
      exact ⟨use s start, fun t ht => ih (along.2 t ht) (keep s a t start along.1 ht)⟩

/-- A property of every state passes back to the steps when a bad step would
leave the property behind it. The run must be accepted, since the step
that breaks the property has to be taken. -/
theorem along_of_throughout {P : σ → α → Prop} {Q : σ → Prop} (Inv : σ → Prop)
    (keep : ∀ s a t, Inv s → step s a = some t → Inv t)
    (reveal : ∀ s a t, Inv s → Q s → step s a = some t → Q t → P s a)
    {s t : σ} {acts : List α} (run : Runs step s acts t)
    (all : Throughout step Q s acts) (start : Inv s) : Along step P s acts := by
  induction acts generalizing s with
  | nil => trivial
  | cons a rest ih =>
      obtain ⟨u, hu, hrest⟩ := runs_cons.mp run
      have hQu : Q u := by
        cases rest with
        | nil => exact all.2 u hu
        | cons b more => exact (all.2 u hu).1
      refine ⟨reveal s a u start all.1 hu hQu, fun v hv => ?_⟩
      obtain rfl : u = v := Option.some.inj (hu.symm.trans hv)
      exact ih hrest (all.2 u hu) (keep s a u start hu)

/-- When a step out of a state with a property keeps the property exactly if it meets a
condition, the property holds throughout exactly the runs along which the condition does. -/
theorem throughout_iff_along {P : σ → α → Prop} {Q : σ → Prop} (Inv : σ → Prop)
    (keep : ∀ s a t, Inv s → step s a = some t → Inv t)
    (exact : ∀ s a t, Inv s → Q s → step s a = some t → (Q t ↔ P s a))
    {s t : σ} {acts : List α} (run : Runs step s acts t) (start : Inv s) (first : Q s) :
    Throughout step Q s acts ↔ Along step P s acts := by
  constructor
  · intro all
    exact along_of_throughout Inv keep (fun s a t inv hs h ht => (exact s a t inv hs h).mp ht)
      run all start
  · intro along
    refine throughout_of_along (fun s => Inv s ∧ Q s) (fun s a t h hP hstep => ?_)
      (fun s h => h.2) along ⟨start, first⟩
    exact ⟨keep s a t h.1 hstep, (exact s a t h.1 h.2 hstep).mpr hP⟩

/-- A mark set by some step and never removed is seen at the end of the run;
without the mark at the end, no step of the run set it. -/
theorem along_of_unmarked {P : σ → α → Prop} (Inv Mark : σ → Prop)
    (keep : ∀ s a t, Inv s → step s a = some t → Inv t)
    (stays : ∀ s a t, Inv s → step s a = some t → Mark s → Mark t)
    (sets : ∀ s a t, Inv s → step s a = some t → ¬ P s a → Mark t)
    {s t : σ} {acts : List α} (run : Runs step s acts t) (start : Inv s)
    (clean : ¬ Mark t) : Along step P s acts := by
  have both : ∀ x a y, Inv x ∧ Mark x → step x a = some y → Inv y ∧ Mark y :=
    fun x a y hx hy => ⟨keep x a y hx.1 hy, stays x a y hx.1 hy hx.2⟩
  have persists : ∀ {v : σ} {more : List α}, Runs step v more t → Inv v → ¬ Mark v := by
    intro v more hv hInv hm
    exact clean (invariant (fun v => Inv v ∧ Mark v) both hv ⟨hInv, hm⟩).2
  induction acts generalizing s with
  | nil => trivial
  | cons a rest ih =>
      obtain ⟨u, hu, hrest⟩ := runs_cons.mp run
      have hu' := keep s a u start hu
      refine ⟨?_, fun v hv => ?_⟩
      · by_contra hP
        exact persists hrest hu' (sets s a u start hu hP)
      · obtain rfl : u = v := Option.some.inj (hu.symm.trans hv)
        exact ih hrest hu'

/-- A condition that every listed action meets in every state. -/
theorem along_of_actions {P : σ → α → Prop} {s : σ} {acts : List α}
    (h : ∀ a ∈ acts, ∀ s, P s a) : Along step P s acts := by
  induction acts generalizing s with
  | nil => trivial
  | cons a rest ih =>
      exact ⟨h a (by simp) s, fun t _ => ih fun b hb => h b (by simp [hb])⟩

/-- A replay that passes a test of the condition meets the condition. -/
theorem along_of_check {P : σ → α → Prop} {test : σ → α → Bool}
    (sound : ∀ s a, test s a = true → P s a) {s : σ} {acts : List α}
    (h : check step test s acts = true) : Along step P s acts := by
  induction acts generalizing s with
  | nil => trivial
  | cons a rest ih =>
      simp only [check, Bool.and_eq_true, Option.all_eq_true] at h
      exact ⟨sound s a h.1, fun t ht => ih (h.2 t ht)⟩

/-- A decidable condition is its own check. -/
theorem along_of_decide {P : σ → α → Prop} [∀ s a, Decidable (P s a)] {s : σ} {acts : List α}
    (h : check step (fun s a => decide (P s a)) s acts = true) : Along step P s acts :=
  along_of_check (fun _ _ => of_decide_eq_true) h

/-- A condition that every admitted step of an invariant state meets, every step of
an accepted run of admitted steps meets. -/
theorem along_of_along {P Q : σ → α → Prop} (Inv : σ → Prop)
    (keep : ∀ s a t, Inv s → P s a → step s a = some t → Inv t)
    (use : ∀ s a t, Inv s → P s a → step s a = some t → Q s a)
    {s t : σ} {acts : List α} (run : Runs step s acts t) (along : Along step P s acts)
    (start : Inv s) : Along step Q s acts := by
  induction acts generalizing s with
  | nil => trivial
  | cons a rest ih =>
      obtain ⟨u, hu, hrest⟩ := runs_cons.mp run
      refine ⟨use s a u start along.1 hu, fun v hv => ?_⟩
      obtain rfl : u = v := Option.some.inj (hu.symm.trans hv)
      exact ih hrest (along.2 u hu) (keep s a u start along.1 hu)

theorem Along.mono {P Q : σ → α → Prop} (h : ∀ s a, P s a → Q s a) {s : σ}
    {acts : List α} (along : Along step P s acts) : Along step Q s acts := by
  induction acts generalizing s with
  | nil => trivial
  | cons a rest ih => exact ⟨h s a along.1, fun t ht => ih (along.2 t ht)⟩

/-- Two conditions on the steps of a run are one. -/
theorem Along.and {P Q : σ → α → Prop} {s : σ} {acts : List α} (h : Along step P s acts)
    (k : Along step Q s acts) : Along step (fun s a => P s a ∧ Q s a) s acts := by
  induction acts generalizing s with
  | nil => trivial
  | cons a rest ih => exact ⟨⟨h.1, k.1⟩, fun t ht => ih (h.2 t ht) (k.2 t ht)⟩

/-- A condition along a run and along what follows it. -/
theorem Along.append {P : σ → α → Prop} {s u : σ} {front back : List α}
    (h : Along step P s front) (run : Runs step s front u) (k : Along step P u back) :
    Along step P s (front ++ back) := by
  induction front generalizing s with
  | nil => simpa [runs_nil.mp run] using k
  | cons a rest ih =>
      obtain ⟨t, ht, hrest⟩ := runs_cons.mp run
      refine ⟨h.1, fun v hv => ?_⟩
      obtain rfl : t = v := Option.some.inj (ht.symm.trans hv)
      exact ih (h.2 t ht) hrest

/-- The condition holds of every single step of the run. -/
theorem Along.of_split {P : σ → α → Prop} {s u : σ} {front back : List α} {a : α}
    (along : Along step P s (front ++ a :: back)) (run : Runs step s front u) : P u a := by
  induction front generalizing s with
  | nil => exact runs_nil.mp run ▸ along.1
  | cons b rest ih =>
      obtain ⟨v, hv, hrest⟩ := runs_cons.mp run
      exact ih (along.2 v hv) hrest

theorem Throughout.last {P : σ → Prop} {s t : σ} {acts : List α}
    (all : Throughout step P s acts) (run : Runs step s acts t) : P t := by
  induction acts generalizing s with
  | nil => exact runs_nil.mp run ▸ all
  | cons a rest ih =>
      obtain ⟨u, hu, hrest⟩ := runs_cons.mp run
      exact ih (all.2 u hu) hrest

end Invariants

section Totals
variable {step : System σ α} {Inv : σ → Prop}

/-- A counter in the state that every step raises by a number read off the step
counts the total. -/
theorem count_eq_total (count : σ → Nat) (f : σ → α → Nat)
    (law : ∀ s a t, step s a = some t → count t = count s + f s a)
    {s t : σ} {acts : List α} (run : Runs step s acts t) :
    count t = count s + total step f s acts := by
  induction acts generalizing s with
  | nil => simp [runs_nil.mp run, total]
  | cons a rest ih =>
      obtain ⟨u, hu, hrest⟩ := runs_cons.mp run
      have hmore := ih hrest
      have hlaw := law s a u hu
      simp only [total, hu, Option.elim_some]
      omega

/-- The same for a run of admitted steps from an invariant state. -/
theorem count_eq_total_along {P : σ → α → Prop} (count : σ → Nat) (f : σ → α → Nat)
    (keep : ∀ s a t, Inv s → P s a → step s a = some t → Inv t)
    (law : ∀ s a t, Inv s → P s a → step s a = some t → count t = count s + f s a)
    {s t : σ} {acts : List α} (run : Runs step s acts t) (along : Along step P s acts)
    (start : Inv s) : count t = count s + total step f s acts := by
  induction acts generalizing s with
  | nil => simp [runs_nil.mp run, total]
  | cons a rest ih =>
      obtain ⟨u, hu, hrest⟩ := runs_cons.mp run
      have hmore := ih hrest (along.2 u hu) (keep s a u start along.1 hu)
      have hlaw := law s a u start along.1 hu
      simp only [total, hu, Option.elim_some]
      omega

/-- What is held at the end of a run and what was dropped in it add up to what
was held at its start and what was taken in it. -/
theorem balance (held : σ → Nat) (take drop : σ → α → Nat)
    (keep : ∀ s a t, Inv s → step s a = some t → Inv t)
    (law : ∀ s a t, Inv s → step s a = some t → held t + drop s a = held s + take s a)
    {s t : σ} {acts : List α} (run : Runs step s acts t) (start : Inv s) :
    held t + total step drop s acts = held s + total step take s acts := by
  induction acts generalizing s with
  | nil => simp [runs_nil.mp run, total]
  | cons a rest ih =>
      obtain ⟨u, hu, hrest⟩ := runs_cons.mp run
      have hmore := ih hrest (keep s a u start hu)
      have hlaw := law s a u start hu
      simp only [total, hu, Option.elim_some]
      omega

/-- What each step takes off an allowance, the whole run takes off it. -/
theorem total_add_left (left : σ → Nat) (take : σ → α → Nat)
    (keep : ∀ s a t, Inv s → step s a = some t → Inv t)
    (law : ∀ s a t, Inv s → step s a = some t → take s a + left t ≤ left s)
    {s t : σ} {acts : List α} (run : Runs step s acts t) (start : Inv s) :
    total step take s acts + left t ≤ left s := by
  induction acts generalizing s with
  | nil => simp [runs_nil.mp run, total]
  | cons a rest ih =>
      obtain ⟨u, hu, hrest⟩ := runs_cons.mp run
      have hmore := ih hrest (keep s a u start hu)
      have hlaw := law s a u start hu
      simp only [total, hu, Option.elim_some]
      omega

end Totals

section Watching
variable {step : System σ α} {note : σ → α → β → β}

/-- The system with an observer beside it, whose notes every step extends in view of the
state before it. -/
def watched (step : System σ α) (note : σ → α → β → β) : System (σ × β) α := fun x a =>
  (step x.1 a).map fun t => (t, note x.1 a x.2)

theorem watched_eq_some {x y : σ × β} {a : α} :
    watched step note x a = some y ↔ step x.1 a = some y.1 ∧ note x.1 a x.2 = y.2 := by
  obtain ⟨t, b⟩ := y
  simp [watched]

/-- The observer refuses nothing. -/
theorem Runs.watched {s t : σ} {acts : List α} (run : Runs step s acts t) (b : β) :
    ∃ c, Runs (watched step note) (s, b) acts (t, c) := by
  induction acts generalizing s b with
  | nil => exact ⟨b, runs_nil.mpr (by rw [runs_nil.mp run])⟩
  | cons a rest ih =>
      obtain ⟨u, hu, hrest⟩ := runs_cons.mp run
      obtain ⟨c, hc⟩ := ih hrest (note s a b)
      exact ⟨c, runs_cons.mpr ⟨(u, note s a b), watched_eq_some.mpr ⟨hu, rfl⟩, hc⟩⟩

/-- A condition on the steps that does not look at the notes. -/
theorem along_watched {P : σ → α → Prop} {x : σ × β} {acts : List α} :
    Along (watched step note) (fun y a => P y.1 a) x acts ↔ Along step P x.1 acts := by
  induction acts generalizing x with
  | nil => exact Iff.rfl
  | cons a rest ih =>
      refine and_congr Iff.rfl ⟨fun h t ht => ?_, fun h y hy => ?_⟩
      · exact ih.mp (h (t, note x.1 a x.2) (watched_eq_some.mpr ⟨ht, rfl⟩))
      · exact ih.mpr (h y.1 (watched_eq_some.mp hy).1)

end Watching

section Simulation
variable {fine : System σ α} {coarse : System τ β}

/-- A simulation answers each fine step from an invariant state by a coarse
run between the images. -/
structure Simulation (fine : System σ α) (coarse : System τ β) (Inv : σ → Prop) where
  /-- The abstraction of a state. -/
  image : σ → τ
  /-- The coarse actions answering one fine action. -/
  answer : σ → α → List β
  keep : ∀ s a t, Inv s → fine s a = some t → Inv t
  follows : ∀ s a t, Inv s → fine s a = some t →
    Runs coarse (image s) (answer s a) (image t)

/-- Every fine run is answered by a coarse run between the images of its ends, along
which a condition holds that each answer meets. -/
theorem Simulation.runs {Inv : σ → Prop} (sim : Simulation fine coarse Inv)
    {P : τ → β → Prop}
    (meets : ∀ s a, Inv s → Along coarse P (sim.image s) (sim.answer s a))
    {s t : σ} {acts : List α} (run : Runs fine s acts t) (start : Inv s) :
    ∃ answers, Runs coarse (sim.image s) answers (sim.image t) ∧
      Along coarse P (sim.image s) answers := by
  induction acts generalizing s with
  | nil => exact ⟨[], by simp [runs_nil.mp run], trivial⟩
  | cons a rest ih =>
      obtain ⟨u, hu, hrest⟩ := runs_cons.mp run
      obtain ⟨more, hmore, hmeets⟩ := ih hrest (sim.keep s a u start hu)
      have first := sim.follows s a u start hu
      exact ⟨sim.answer s a ++ more, first.append hmore, (meets s a start).append first hmeets⟩

end Simulation

section Components
variable {ι γ : Type*} [DecidableEq ι]

/-- A step that writes one component moves it, and every other component stays. -/
theorem component_moved {R : ι → γ → γ → Prop} {f g : ι → γ} {i j : ι} {p q : γ} (hp : f i = p)
    (hg : g = Function.update f i q) (hmove : R i p q) : R j (f j) (g j) ∨ j ≠ i ∧ g j = f j := by
  by_cases hj : j = i
  · subst hj
    left
    rwa [hg, Function.update_self, hp]
  · exact Or.inr ⟨hj, by rw [hg, Function.update_of_ne hj]⟩

end Components

end Rkopnu.Transition
