import Rkopnu.Memory.Teardown

/-!
# What a failed `MEM_CREATE` leaves behind

The labels at the end of `rkopnu_ioctl_mem_create` undo what the call has done so far. A
call changes only what is its own, whatever runs beside it, and on its error return
nothing of its own is left, with one exception: a map of 2^31 bytes or more, which
succeeded and is taken for a failure, stays in the page table.
-/

namespace Rkopnu.Memory

open Function (update)
open Transition Paging

/-- The call has not come to `iommu_map_sgtable`. -/
def Pc.beforeMap : Pc → Bool
  | .idle | .shmem | .domain | .pages | .insert | .map => true
  | _ => false

/-- The BO has no domain. -/
def Pc.domainless : Pc → Bool
  | .idle | .shmem | .domain | .freeObject _ | .failed _ => true
  | _ => false

section Moves
variable {ap : Aperture} {s : State} {a : Action} {b : Nat}

/-- The step takes the BO to its next point, or leaves it where it is. -/
def Stepped (s : State) (a : Action) (b : Nat) : Prop :=
  Pc.Moves s a b (s.pc b) ((effect s a).pc b) ∨ (effect s a).pc b = s.pc b

theorem Listed.pc_effect (inv : Listed s) (h : enabled ap s a = true) (b : Nat) :
    Stepped s a b :=
  (inv.bo_effect h b).imp_right State.SameBo.pc

theorem beforeMap_of_stepped (step : Stepped s a b)
    (h : ((effect s a).pc b).beforeMap = true) : (s.pc b).beforeMap = true := by
  rcases step with hmove | hstay
  · generalize s.pc b = p at hmove ⊢
    generalize (effect s a).pc b = q at hmove h
    cases hmove <;> first | rfl | cases h
  · rwa [hstay] at h

theorem map_leaves_beforeMap (s : State) (b d : Nat) (ok : Bool) :
    ((effect s (.map b d ok)).pc b).beforeMap = false := by
  simp only [effect, Function.update_self]
  split <;> rfl

end Moves

/-- What is known of every BO in every run, whatever the sizes of the maps. -/
structure Tabled (ap : Aperture) (s : State) : Prop extends Kept s where
  bounds : Fitted ap s
  bound : Domained s
  undomained : ∀ b, (s.pc b).domainless = true → s.domain b = none
  unentered : ∀ b, (s.pc b).beforeMap = true → ∀ e x i, s.table e x ≠ some (b, i)
  backed : ∀ b d, (s.pc b).mapped = true → s.domain b = some d → Backed s b d

section Tables
variable {ap : Aperture} {s : State} {a : Action}

/-- The entries of the page tables after a step. -/
def EntryAfter (s : State) (a : Action) (e x c i : Nat) : Prop :=
  match a with
  | .map b d true => s.table e x = some (c, i) ∨
      c = b ∧ e = d ∧ i < s.pageCount b ∧ x = s.start b / pageSize + i
  | .unmap b _ _ | .freeUnmap b _ => c ≠ b ∧ s.table e x = some (c, i)
  | _ => s.table e x = some (c, i)

/-- A map adds the pages of its BO, an unmap removes them, and nothing else changes. -/
theorem Tabled.table_effect (inv : Tabled ap s) (h : enabled ap s a = true) (e x c i : Nat) :
    (effect s a).table e x = some (c, i) ↔ EntryAfter s a e x c i := by
  cases a with
  | map b d ok =>
      cases ok with
      | false => exact Iff.rfl
      | true => exact table_mapped ((of_decide_eq_true h).2.2 rfl) e x c i
  | unmap b d r =>
      obtain ⟨hpc, hd⟩ := of_decide_eq_true h
      exact (inv.backed b d (by rw [hpc]; rfl) hd).table_unmapped e x c i
  | freeUnmap b d =>
      obtain ⟨hpc, hd⟩ := of_decide_eq_true h
      exact (inv.backed b d (by rw [hpc]; rfl) hd).table_unmapped e x c i
  | _ => exact Iff.rfl

theorem entry_of_entryAfter {e x c i : Nat} (h : EntryAfter s a e x c i) :
    s.table e x = some (c, i) ∨ ∃ d, a = .map c d true := by
  unfold EntryAfter at h
  split at h
  · exact h.imp_right fun ⟨hc, _⟩ => ⟨_, by rw [hc]⟩
  · exact Or.inl h.2
  · exact Or.inl h.2
  · exact Or.inl h

theorem Tabled.keep_unentered (inv : Tabled ap s) (h : enabled ap s a = true) (b : Nat)
    (hb : ((effect s a).pc b).beforeMap = true) (e x i : Nat) :
    (effect s a).table e x ≠ some (b, i) := by
  intro hentry
  rcases entry_of_entryAfter ((inv.table_effect h e x b i).mp hentry) with hold | ⟨d, rfl⟩
  · exact inv.unentered b (beforeMap_of_stepped (inv.pc_effect h b) hb) e x i hold
  · simp [map_leaves_beforeMap] at hb

theorem Tabled.keep_undomained (inv : Tabled ap s) (h : enabled ap s a = true) (b : Nat)
    (hb : ((effect s a).pc b).domainless = true) : (effect s a).domain b = none := by
  have hold := inv.undomained b
  rcases inv.bo_effect h b with hmove | same
  · generalize s.pc b = p at hmove hold
    generalize (effect s a).pc b = q at hmove hb
    cases hmove with
    | memCreate | shmem | shmemFail | domainFail | freeObject => exact hold rfl
    | putDomain => exact Function.update_self _ _ _
    | _ => cases hb
  · rw [same.domain]
    exact hold (same.pc ▸ hb)

/-- While a BO is mapped its record does not change. -/
theorem Listed.record_of_mapped (inv : Listed s) (h : enabled ap s a = true) {b : Nat}
    (hb : (s.pc b).mapped = true) :
    (effect s a).start b = s.start b ∧ (effect s a).boSize b = s.boSize b ∧
      (effect s a).size b = s.size b ∧ (effect s a).domain b = s.domain b := by
  rcases inv.bo_effect h b with hmove | same
  · generalize s.pc b = p at hmove hb
    generalize (effect s a).pc b = q at hmove
    cases hmove with
    | handleCreate | handleFail | reply | replyDead | unmap | put | deleteHandle | freeUnmap =>
        exact ⟨rfl, rfl, rfl, rfl⟩
    | _ => cases hb
  · exact ⟨same.start, same.boSize, same.size, same.domain⟩

/-- A BO that is and stays mapped keeps its entries. -/
theorem Tabled.entries_of_mapped (inv : Tabled ap s) (h : enabled ap s a = true) {b : Nat}
    (hb : (s.pc b).mapped = true) (hb' : ((effect s a).pc b).mapped = true) (e x i : Nat) :
    (effect s a).table e x = some (b, i) ↔ s.table e x = some (b, i) := by
  rw [inv.table_effect h e x b i]
  cases a with
  | map c d ok =>
      have hc : s.pc c = .map := (of_decide_eq_true h).1
      have hne : b ≠ c := by
        rintro rfl
        simp [hc, Pc.mapped] at hb
      cases ok <;> simp [EntryAfter, hne]
  | unmap c d r =>
      have hne : b ≠ c := by
        rintro rfl
        simp [effect, Pc.mapped] at hb'
      simp [EntryAfter, hne]
  | freeUnmap c d =>
      have hne : b ≠ c := by
        rintro rfl
        simp [effect, Pc.mapped] at hb'
      simp [EntryAfter, hne]
  | _ => exact Iff.rfl

/-- A map that is not refused came to less than 2^31 bytes, the size of the object. -/
theorem intOf_of_accepted {size : U64} {n : Nat} (hle : size.toNat ≤ n)
    (hlt : n < size.toNat + pageSize) (accepted : mapRefused (intOf n) size = false) :
    n < 2 ^ 31 ∧ intOf n = n := by
  simp only [mapRefused, decide_eq_false_iff_not, not_or, Int.not_lt,
    Nat.not_lt] at accepted
  obtain ⟨hpos, hsize⟩ := accepted
  have hsmall : n < 2 ^ 31 := by
    have hword : intOf n = if 2 * (n % 2 ^ 32) < 2 ^ 32 then ((n % 2 ^ 32 : Nat) : Int)
        else ((n % 2 ^ 32 : Nat) : Int) - (2 ^ 32 : Nat) := by
      simp only [intOf, BitVec.toInt_eq_toNat_cond, BitVec.toNat_ofNat]
    have hpage : pageSize = 4096 := rfl
    split at hword <;> omega
  exact ⟨hsmall, intOf_small hsmall⟩

/-- The size of a BO with a node, in whole pages: at least one page, and less than a page
more than was asked for. -/
theorem Tabled.pageAlign_bounds (inv : Tabled ap s) {b : Nat} (hb : (s.pc b).inMm = true) :
    (s.size b).toNat ≤ pageAlign (s.size b) ∧
      pageAlign (s.size b) < (s.size b).toNat + pageSize ∧ 0 < s.pageCount b := by
  have hpos := (inv.bounds b hb).1
  rw [State.pageCount, (Fitted.fits inv.bounds hb).1]
  refine ⟨le_roundUp pageSize_pos _, roundUp_lt pageSize_pos _, ?_⟩
  exact Nat.div_pos (Nat.le_of_dvd (roundUp_pos pageSize_pos hpos) (dvd_roundUp _ _)) pageSize_pos

theorem Tabled.intOf_of_accepted (inv : Tabled ap s) {b : Nat} (hb : s.pc b = .map)
    (accepted : mapRefused (intOf (pageAlign (s.size b))) (s.size b) = false) :
    pageAlign (s.size b) < 2 ^ 31 ∧ intOf (pageAlign (s.size b)) = pageAlign (s.size b) := by
  obtain ⟨hle, hlt, -⟩ := inv.pageAlign_bounds (b := b) (by rw [hb]; rfl)
  exact Memory.intOf_of_accepted hle hlt accepted

/-- An accepted map backs its BO. -/
theorem Tabled.backed_of_map (inv : Tabled ap s) {b d : Nat}
    (h : enabled ap s (.map b d true) = true)
    (accepted : mapRefused (intOf (pageAlign (s.size b))) (s.size b) = false) :
    Backed (effect s (.map b d true)) b d := by
  have hpc : s.pc b = .map := (of_decide_eq_true h).1
  have hcount := (inv.intOf_of_accepted hpc accepted).2
  refine ⟨(inv.bounds b (by rw [hpc]; rfl)).2.1, ?_, fun e x i => ?_⟩
  · simp only [effect, accepted, and_self, if_true, Function.update_self]
    rw [hcount, Int.toNat_natCast]
  · have hnone := inv.unentered b (by rw [hpc]; rfl) e x i
    rw [inv.table_effect h e x b i]
    simp only [EntryAfter, hnone, false_or, true_and]
    rfl

theorem Tabled.keep_backed (inv : Tabled ap s) (h : enabled ap s a = true) (b d : Nat)
    (hb : ((effect s a).pc b).mapped = true) (hd : (effect s a).domain b = some d) :
    Backed (effect s a) b d := by
  by_cases hbefore : (s.pc b).mapped = true
  · obtain ⟨hstart, hbo, hsize, hdom⟩ := inv.record_of_mapped h hbefore
    obtain ⟨haligned, hrounded, hentries⟩ := inv.backed b d hbefore (hdom ▸ hd)
    have hcount : (effect s a).pageCount b = s.pageCount b := by
      rw [State.pageCount, hsize, State.pageCount]
    refine ⟨hstart ▸ haligned, by rw [hbo, hsize, hrounded], fun e x i => ?_⟩
    rw [inv.entries_of_mapped h hbefore hb, hstart, hcount]
    exact hentries e x i
  · rcases inv.pc_effect h b with hmove | hstay
    · generalize hp : s.pc b = p at hmove hbefore
      generalize (effect s a).pc b = q at hmove hb
      cases hmove with
      | mapAccept accepted =>
          rename_i d'
          have hdom : s.domain b = some d' := (of_decide_eq_true h).2.1
          obtain rfl : d' = d := Option.some.inj (hdom.symm.trans hd)
          exact inv.backed_of_map h accepted
      | _ => first | exact absurd rfl hbefore | cases hb
    · exact absurd (hstay ▸ hb) hbefore

theorem Tabled.preserve (inv : Tabled ap s) (h : enabled ap s a = true) :
    Tabled ap (effect s a) where
  toKept := inv.toKept.preserve h
  bounds := keep_bounds inv.toListed inv.bounds h
  bound := keep_bound inv.toListed inv.bound h
  undomained := inv.keep_undomained h
  unentered := inv.keep_unentered h
  backed := inv.keep_backed h

theorem Tabled.initial : Tabled ap State.init where
  toKept := Kept.initial
  bounds := fun b h => by simp [State.init, Pc.inMm] at h
  bound := fun b h => by simp [State.init, Pc.inMm] at h
  undomained := fun b _ => rfl
  unentered := fun b _ e x i => by simp [State.init]
  backed := fun b d h => by simp [State.init, Pc.mapped] at h

end Tables

/-- The `MEM_CREATE` call whose code the step runs. -/
def Action.creates (s : State) : Action → Option Nat
  | .memCreate _ _ => some s.bos
  | .shmem b _ | .domainGet b | .domainFail b _ | .pages b _ | .insert b _ _
  | .insertFail b _ _ | .map b _ _ | .handleCreate b _ | .reply b | .unmap b _ _
  | .removeNode b _ _ | .putDomain b _ | .freeObject b _ => some b
  | _ => none

/-- The two states have the same allocators, page tables, references on domains and handles,
call `b` apart; a pool slot may have been filled. -/
structure SameBut (b : Nat) (s t : State) : Prop where
  node : ∀ c, c ≠ b → t.node c = s.node c ∧ t.start c = s.start c
  table : ∀ e x c i, c ≠ b → (t.table e x = some (c, i) ↔ s.table e x = some (c, i))
  domain : ∀ c, c ≠ b → t.domain c = s.domain c
  handle : ∀ c, c ≠ b → t.handle c = s.handle c
  slot : ∀ i d, s.slot i = some d → t.slot i = some d

/-- A step of call `b` changes nothing but what is its own. -/
def KeepsToItself (b : Nat) (s : State) (a : Action) : Prop :=
  a.creates s = some b → SameBut b s (effect s a)

/-- The call has no node in an allocator, no page in a page table, no reference on a domain
and no handle. -/
structure State.Unwound (s : State) (b : Nat) : Prop where
  node : s.node b = none
  unmapped : ∀ e x i, s.table e x ≠ some (b, i)
  domain : s.domain b = none
  handle : s.handle b = false

/-- If the map of call `b` succeeds it comes to less than 2^31 bytes. -/
def MapFits (b : Nat) (s : State) (a : Action) : Prop :=
  ∀ d, a = .map b d true → pageAlign (s.size b) < 2 ^ 31

section Unwinding
variable {ap : Aperture} {s : State} {a : Action} {b : Nat}

theorem boOf_of_creates (hown : a.creates s = some b) : a.boOf s = some b := by
  cases a <;> first | exact hown | cases hown

/-- The call makes a handle for its own BO only. -/
theorem refOf_of_creates (hown : a.creates s = some b) {c : Nat} (hc : c ≠ b) :
    a.refOf ≠ some c := by
  intro href
  cases a with
  | handleCreate i e => exact hc (Option.some.inj (href.symm.trans hown))
  | get i | put i | importHandle i | deleteHandle i => cases hown
  | _ => cases href

/-- The call maps and unmaps its own pages only. -/
theorem entryAfter_of_creates (hown : a.creates s = some b) {e x c i : Nat} (hc : c ≠ b) :
    EntryAfter s a e x c i ↔ s.table e x = some (c, i) := by
  cases a with
  | map m d ok =>
      obtain rfl : m = b := Option.some.inj hown
      cases ok <;> simp [EntryAfter, hc]
  | unmap m d r =>
      obtain rfl : m = b := Option.some.inj hown
      simp [EntryAfter, hc]
  | freeUnmap m d => cases hown
  | _ => exact Iff.rfl

/-- The call fills the pool slot of its domain at most. -/
theorem slot_of_creates (hown : a.creates s = some b) {i d : Nat} (hi : s.slot i = some d) :
    (effect s a).slot i = some d := by
  cases a with
  | domainGet c =>
      by_cases hslot : i = s.slotId c
      · subst hslot
        simp [effect, State.domainGet, State.slotDomain, hi]
      · simpa [effect, State.domainGet, Function.update_of_ne hslot] using hi
  | submit id | takedown j e => cases hown
  | _ => exact hi

/-- Every step of a call keeps to what is the call's own. -/
theorem Tabled.keepsToItself (inv : Tabled ap s) (h : enabled ap s a = true) :
    KeepsToItself b s a := by
  intro hown
  have same : ∀ c, c ≠ b → s.SameBo (effect s a) c := by
    intro c hc
    refine sameBo_of_ne ?_
    rw [boOf_of_creates hown]
    exact fun heq => hc (Option.some.inj heq).symm
  exact {
    node := fun c hc => ⟨(same c hc).node, (same c hc).start⟩
    table := fun e x c i hc => (inv.table_effect h e x c i).trans (entryAfter_of_creates hown hc)
    domain := fun c hc => (same c hc).domain
    handle := fun c hc => (refs_of_other (refOf_of_creates hown hc)).1
    slot := fun i d hi => slot_of_creates hown hi }

/-- A BO that is not mapped has no page in a page table. -/
def Tidy (b : Nat) (s : State) : Prop :=
  (s.pc b).mapped = false → ∀ e x i, s.table e x ≠ some (b, i)

/-- A BO that is not mapped has left a page in a page table. -/
def Stray (b : Nat) (s : State) : Prop :=
  (s.pc b).mapped = false ∧ ∃ e x i, s.table e x = some (b, i)

/-- A BO stops being mapped where its pages are unmapped. -/
theorem no_entry_of_unmapped (step : Stepped s a b) (hb : (s.pc b).mapped = true)
    (hb' : ((effect s a).pc b).mapped = false) {e x i : Nat} : ¬ EntryAfter s a e x b i := by
  rcases step with hmove | hstay
  · generalize s.pc b = p at hmove hb
    generalize (effect s a).pc b = q at hmove hb'
    cases hmove with
    | unmap => exact fun hentry => hentry.1 rfl
    | freeUnmap => exact fun hentry => hentry.1 rfl
    | _ => first | (cases hb; done) | cases hb'
  · simp [hstay, hb] at hb'

/-- A map that is refused came to 2^31 bytes or more. -/
theorem Tabled.accepted_of_fits (inv : Tabled ap s) (hb : s.pc b = .map)
    (fits : pageAlign (s.size b) < 2 ^ 31) :
    mapRefused (intOf (pageAlign (s.size b))) (s.size b) = false :=
  mapRefused_small (inv.pageAlign_bounds (by rw [hb]; rfl)).1 fits

theorem Tabled.keep_tidy (inv : Tabled ap s) (tidy : Tidy b s) (fits : MapFits b s a)
    (h : enabled ap s a = true) : Tidy b (effect s a) := by
  intro hb' e x i hentry
  rw [inv.table_effect h e x b i] at hentry
  by_cases hb : (s.pc b).mapped = true
  · exact no_entry_of_unmapped (inv.pc_effect h b) hb hb' hentry
  · rcases entry_of_entryAfter hentry with hold | ⟨d, rfl⟩
    · exact tidy (by simpa using hb) e x i hold
    · have hpc : s.pc b = .map := (of_decide_eq_true h).1
      have haccept := inv.accepted_of_fits hpc (fits d rfl)
      simp [effect, haccept, Pc.mapped] at hb'

/-- A page left behind is never unmapped. -/
theorem Tabled.stray_stays (inv : Tabled ap s) (stray : Stray b s) (h : enabled ap s a = true) :
    Stray b (effect s a) := by
  obtain ⟨hb, e, x, i, hentry⟩ := stray
  constructor
  · rcases inv.pc_effect h b with hmove | hstay
    · have hbefore := fun hp => inv.unentered b hp e x i hentry
      generalize s.pc b = p at hmove hb hbefore
      generalize (effect s a).pc b = q at hmove
      cases hmove with
      | mapAccept accepted => exact absurd rfl hbefore
      | _ => first | rfl | cases hb
    · rwa [hstay]
  · refine ⟨e, x, i, (inv.table_effect h e x b i).mpr ?_⟩
    cases a with
    | map c d ok =>
        cases ok with
        | true => exact Or.inl hentry
        | false => exact hentry
    | unmap c d r =>
        have hc : s.pc c = .unmap r := (of_decide_eq_true h).1
        refine ⟨?_, hentry⟩
        rintro rfl
        simp [hc, Pc.mapped] at hb
    | freeUnmap c d =>
        have hc : s.pc c = .freeUnmap := (of_decide_eq_true h).1
        refine ⟨?_, hentry⟩
        rintro rfl
        simp [hc, Pc.mapped] at hb
    | _ => exact hentry

/-- A map of 2^31 bytes or more leaves its pages behind. -/
theorem Tabled.stray_of_map (inv : Tabled ap s) (h : enabled ap s a = true)
    (big : ¬ MapFits b s a) : Stray b (effect s a) := by
  obtain ⟨d, rfl, hbig⟩ : ∃ d, a = .map b d true ∧ ¬ pageAlign (s.size b) < 2 ^ 31 := by
    simpa [MapFits] using big
  have hpc : s.pc b = .map := (of_decide_eq_true h).1
  have hrefuse : ¬ mapRefused (intOf (pageAlign (s.size b))) (s.size b) = false :=
    fun haccept => hbig (inv.intOf_of_accepted hpc haccept).1
  have hcount := (inv.pageAlign_bounds (b := b) (by rw [hpc]; rfl)).2.2
  refine ⟨by simp [effect, hrefuse, Pc.mapped], d, s.start b / pageSize, 0, ?_⟩
  exact (inv.table_effect h _ _ b 0).mpr (Or.inr ⟨rfl, rfl, hcount, rfl⟩)

/-- What a call that failed still owns can only be pages of its own. -/
theorem Tabled.unwound_of_failed (inv : Tabled ap s) {e : Errno} (failed : s.pc b = .failed e)
    (tidy : Tidy b s) : s.Unwound b where
  node := by rw [inv.node b, failed]; rfl
  unmapped := tidy (by rw [failed]; rfl)
  domain := inv.undomained b (by rw [failed]; rfl)
  handle := by
    by_contra hhandle
    have halive := inv.alive b (Or.inl (by simpa using hhandle))
    simp [failed] at halive

/-- For every `MEM_CREATE` call that has returned an error, whatever ran beside it: the call
changed nothing but what was its own and has left nothing of its own behind, exactly when
its map, if it succeeded, came to less than 2^31 bytes. -/
theorem failed_create_unwound_iff {acts : List Action} {t : State} {e : Errno}
    (run : Runs (memory ap) State.init acts t) (failed : t.pc b = .failed e) :
    (t.Unwound b ∧ Along (memory ap) (KeepsToItself b) State.init acts) ↔
      Along (memory ap) (MapFits b) State.init acts := by
  have keep : ∀ s a t, Tabled ap s → memory ap s a = some t → Tabled ap t := by
    intro s a t inv hstep
    obtain ⟨h, rfl⟩ := memory_eq_some.mp hstep
    exact inv.preserve h
  constructor
  · rintro ⟨unwound, -⟩
    refine along_of_unmarked (Tabled ap) (Stray b) keep ?_ ?_ run Tabled.initial ?_
    · intro s a t inv hstep stray
      obtain ⟨h, rfl⟩ := memory_eq_some.mp hstep
      exact inv.stray_stays stray h
    · intro s a t inv hstep big
      obtain ⟨h, rfl⟩ := memory_eq_some.mp hstep
      exact inv.stray_of_map h big
    · rintro ⟨-, e, x, i, hentry⟩
      exact unwound.unmapped e x i hentry
  · intro fits
    have last : Tabled ap t ∧ Tidy b t := by
      refine invariant_along (P := MapFits b) (fun s => Tabled ap s ∧ Tidy b s) ?_ fits run
        ⟨Tabled.initial, fun _ e x i => by simp [State.init]⟩
      rintro s a t ⟨inv, tidy⟩ ok hstep
      obtain ⟨h, rfl⟩ := memory_eq_some.mp hstep
      exact ⟨inv.preserve h, inv.keep_tidy tidy ok h⟩
    refine ⟨last.1.unwound_of_failed failed last.2, ?_⟩
    refine along_of_along (P := MapFits b) (Tabled ap) (fun s a t inv _ => keep s a t inv) ?_
      run fits Tabled.initial
    intro s a t inv _ hstep
    exact inv.keepsToItself (memory_eq_some.mp hstep).1

theorem SameBut.refl (b : Nat) (s : State) : SameBut b s s where
  node := fun _ _ => ⟨rfl, rfl⟩
  table := fun _ _ _ _ _ => Iff.rfl
  domain := fun _ _ => rfl
  handle := fun _ _ => rfl
  slot := fun _ _ hi => hi

theorem SameBut.trans {t u : State} (h : SameBut b s t) (k : SameBut b t u) : SameBut b s u where
  node := fun c hc =>
    ⟨(k.node c hc).1.trans (h.node c hc).1, (k.node c hc).2.trans (h.node c hc).2⟩
  table := fun e x c i hc => (k.table e x c i hc).trans (h.table e x c i hc)
  domain := fun c hc => (k.domain c hc).trans (h.domain c hc)
  handle := fun c hc => (k.handle c hc).trans (h.handle c hc)
  slot := fun i d hi => k.slot i d (h.slot i d hi)

/-- A call that runs undisturbed and fails has left the allocators, the page tables, the
references on the domains and the handles as they were. -/
theorem as_before_of_failed {acts own : List Action} {t : State} {e : Errno}
    (run : Runs (memory ap) State.init acts s) (call : Runs (memory ap) s own t)
    (new : b = s.bos) (undisturbed : Along (memory ap) (fun u a => a.creates u = some b) s own)
    (failed : t.pc b = .failed e) (unwound : t.Unwound b) :
    t.node = s.node ∧ t.table = s.table ∧ t.domain = s.domain ∧ t.handle = s.handle := by
  have inv : Tabled ap s := invariant (Tabled ap) (fun u a v hu hstep => by
    obtain ⟨h, rfl⟩ := memory_eq_some.mp hstep
    exact hu.preserve h) run Tabled.initial
  have same : Tabled ap t ∧ SameBut b s t := by
    refine invariant_along (fun u => Tabled ap u ∧ SameBut b s u) ?_ undisturbed call
      ⟨inv, SameBut.refl b s⟩
    rintro u a v ⟨hu, hsame⟩ hown hstep
    obtain ⟨h, rfl⟩ := memory_eq_some.mp hstep
    exact ⟨hu.preserve h, hsame.trans (hu.keepsToItself h hown)⟩
  have fresh : s.pc b = .idle := inv.fresh b (by omega)
  refine ⟨?_, ?_, ?_, ?_⟩
  · funext c
    by_cases hc : c = b
    · rw [hc, unwound.node, inv.node b, fresh]
      rfl
    · exact (same.2.node c hc).1
  · funext d x
    apply Option.ext
    rintro ⟨c, i⟩
    by_cases hc : c = b
    · subst hc
      exact iff_of_false (unwound.unmapped d x i) (inv.unentered c (by rw [fresh]; rfl) d x i)
    · exact same.2.table d x c i hc
  · funext c
    by_cases hc : c = b
    · rw [hc, unwound.domain, inv.undomained b (by rw [fresh]; rfl)]
    · exact same.2.domain c hc
  · funext c
    by_cases hc : c = b
    · have hnone : s.handle b = false := by
        by_contra hhandle
        have halive := inv.alive b (Or.inl (by simpa using hhandle))
        simp [fresh] at halive
      rw [hc, unwound.handle, hnone]
    · exact same.2.handle c hc

end Unwinding

/-- A `MEM_CREATE` of two pages whose handle cannot be made. -/
def noHandleSteps : List Action :=
  [.memCreate 4097#64 0#32, .shmem 0 none, .domainGet 0, .pages 0 none, .insert 0 0 0,
    .map 0 0 true, .handleCreate 0 (some .nomem), .unmap 0 0 .nomem, .removeNode 0 0 .nomem,
    .putDomain 0 .nomem, .freeObject 0 .nomem]

theorem noHandleSteps_accepted :
    ((exec (memory npuAperture) State.init noHandleSteps).map fun s =>
      decide (s.pc 0 = .failed .nomem)) = some true := by
  decide

theorem failed_create_unwound_iff_on_noHandleSteps :
    ∃ t, Runs (memory npuAperture) State.init noHandleSteps t ∧ t.Unwound 0 := by
  obtain ⟨t, run, failed⟩ := runs_of_test noHandleSteps_accepted
  refine ⟨t, run, ((failed_create_unwound_iff run (of_decide_eq_true failed)).mpr ?_).1⟩
  refine along_of_check (fun s a (h : mapsSmallTest s a = true) d ha => ?_) (by decide)
  exact mapsSmall_of_test s a h 0 d ha

/-- The `MEM_CREATE` of 2 GiB whose map succeeds, up to its error return. -/
theorem mapped_after_failed_create :
    ¬ ∀ (t : State) (e : Errno), Runs (memory npuAperture) State.init
        (leakedMap ++ [.putDomain 0 .nomem, .freeObject 0 .nomem]) t →
      t.pc 0 = .failed e → t.Unwound 0 := by
  intro all
  obtain ⟨s, run, hmapped, -, hpc⟩ := leakedMap_accepted
  have tail : Runs (memory npuAperture) s [.putDomain 0 .nomem, .freeObject 0 .nomem] _ :=
    runs_step (decide_eq_true hpc) (runs_step (by simp [enabled, effect]) (runs_nil.mpr rfl))
  have unwound := all _ .nomem (run.append tail) (by simp [effect])
  exact unwound.unmapped 0 0 0 hmapped

end Rkopnu.Memory
