import Rkopnu.Memory.Moves

/-!
# Where the BOs of a domain are mapped

The allocator of a domain knows a BO by the size asked for, the page table by whole
pages. Ranges start on page boundaries, so ranges that are apart stay apart in whole
pages, and a page is mapped only while the node it lies in is in the allocator. A map
of 2^31 bytes or more breaks this: its count does not fit the `int` it is kept in, the
call takes it for a failure and gives the node back without unmapping.
-/

namespace Rkopnu.Memory

open Function (update)
open Transition Paging
open Driver (domainSlot)

/-- `bo->mm` is in the allocator. -/
def Pc.inMm : Pc → Bool
  | .map | .handle | .reply | .unmap _ | .removeNode _ | .live | .freeUnmap | .freeNode => true
  | _ => false

/-- The BO is mapped. -/
def Pc.mapped : Pc → Bool
  | .handle | .reply | .unmap _ | .live | .freeUnmap => true
  | _ => false

/-- `MEM_CREATE` has handed the BO out and it is not unmapped yet. -/
def Pc.handed : Pc → Bool
  | .live | .freeUnmap => true
  | _ => false

theorem Pc.inMm_of_mapped {pc : Pc} (h : pc.mapped = true) : pc.inMm = true := by
  cases pc <;> simp_all [Pc.mapped, Pc.inMm]

theorem pageSize_pos : 0 < pageSize := by decide

/-- The map of BO `b` comes to less than 2^31 bytes. -/
def MapsSmall (s : State) (a : Action) : Prop := ∀ b d, a = .map b d true →
  pageAlign (s.size b) < 2 ^ 31

namespace State

/-- The domain's allocator, its page table and its BOs fit together. -/
structure Sound (ap : Aperture) (s : State) : Prop where
  /-- A BO is mapped in whole pages. -/
  aligned : ∀ b, (s.pc b).mapped = true → pageSize ∣ s.start b ∧ pageSize ∣ s.boSize b
  inside : ∀ b, (s.pc b).mapped = true →
    ap.start ≤ s.start b ∧ s.start b + s.boSize b ≤ ap.stop
  apart : ∀ b c, b ≠ c → (s.pc b).mapped = true → (s.pc c).mapped = true →
    s.domain b = s.domain c → Apart (s.start b) (s.boSize b) (s.start c) (s.boSize c)
  /-- Every page of a mapped BO is behind its own address. -/
  mapped : ∀ b d, (s.pc b).mapped = true → s.domain b = some d →
    ∀ i < s.boSize b / pageSize, s.table d (s.start b / pageSize + i) = some (b, i)
  /-- User space knows a BO by the range it is mapped at. -/
  replied : ∀ b, (s.pc b).handed = true → s.reply b = some ⟨s.start b, s.boSize b⟩
  /-- The free of a BO unmaps its size and touches no other page. -/
  unmaps : ∀ b d, enabled ap s (.freeUnmap b d) = true →
    (iommuUnmap (s.table d) (s.start b) (s.boSize b)).2 = s.boSize b ∧
      ∀ x, (iommuUnmap (s.table d) (s.start b) (s.boSize b)).1 x =
        if (s.table d x).map Prod.fst = some b then none else s.table d x
  /-- A range that may be handed out is not mapped anywhere. -/
  reusable : ∀ d start size, s.Allocatable ap d start size → ∀ x,
    start ≤ x * pageSize → x * pageSize < start + size → s.table d x = none

end State

/-- The nodes in the allocators are those of the BOs that have one. -/
structure Listed (s : State) : Prop where
  fresh : ∀ b, s.bos ≤ b → s.pc b = .idle
  requested : ∀ b, s.pc b = .pages ∨ s.pc b = .insert → s.boSize b = (s.size b).toNat
  /-- The node has the size asked for. -/
  node : ∀ b, s.node b = if (s.pc b).inMm then some (s.size b).toNat else none

/-- What is known of every BO in a run of maps that fit an `int`. -/
structure Placed (ap : Aperture) (s : State) : Prop extends Listed s where
  bounds : ∀ b, (s.pc b).inMm = true → 0 < (s.size b).toNat ∧ pageSize ∣ s.start b ∧
    ap.start ≤ s.start b ∧ s.start b + (s.size b).toNat ≤ ap.stop
  nodesApart : ∀ b c d, b ≠ c → (s.pc b).inMm = true → (s.pc c).inMm = true →
    s.domain b = some d → s.domain c = some d →
      Apart (s.start b) (s.size b).toNat (s.start c) (s.size c).toNat
  bound : ∀ b, s.pc b = .pages ∨ s.pc b = .insert ∨ (s.pc b).inMm = true → s.domain b ≠ none
  rounded : ∀ b, (s.pc b).mapped = true → s.boSize b = pageAlign (s.size b)
  table : ∀ d x b i, s.table d x = some (b, i) ↔ (s.pc b).mapped = true ∧
    s.domain b = some d ∧ i < s.pageCount b ∧ x = s.start b / pageSize + i
  replied : ∀ b, (s.pc b).handed = true → s.reply b = some ⟨s.start b, s.boSize b⟩

section Sizes
variable {ap : Aperture} {size : U64} {start : Nat}

/-- The size of a BO that fits its aperture is rounded up without overflow, and the
BO still fits. -/
theorem pageAlign_of_fits (hdvd : pageSize ∣ start) (hfit : start + size.toNat ≤ ap.stop) :
    pageAlign size = roundUp pageSize size.toNat ∧ start + pageAlign size ≤ ap.stop := by
  have hround := add_roundUp_le pageSize_pos hdvd ap.dvd_stop hfit
  have hlt := ap.stop_lt
  have hsame : pageAlign size = roundUp pageSize size.toNat :=
    Nat.mod_eq_of_lt (by omega)
  exact ⟨hsame, hsame ▸ hround⟩

theorem dvd_pageAlign (size : U64) : pageSize ∣ pageAlign size :=
  (Nat.dvd_mod_iff (by decide)).mpr (dvd_roundUp _ _)

/-- A count below 2^31 passes through an `int` unchanged. -/
theorem intOf_small {n : Nat} (h : n < 2 ^ 31) : intOf n = n := by
  unfold intOf
  have hnat : (BitVec.ofNat 32 n).toNat = n := by
    rw [BitVec.toNat_ofNat]
    exact Nat.mod_eq_of_lt (by omega)
  rw [BitVec.toInt_eq_toNat_of_lt (by omega), hnat]

/-- A map below 2^31 bytes that covers the BO is accepted. -/
theorem mapRefused_small (hle : size.toNat ≤ pageAlign size) (h : pageAlign size < 2 ^ 31) :
    mapRefused (intOf (pageAlign size)) size = false := by
  simp only [mapRefused, intOf_small h, decide_eq_false_iff_not]
  omega

end Sizes

section Preserve
variable {ap : Aperture} {s : State} {a : Action}

theorem Listed.bo_effect (inv : Listed s) (h : enabled ap s a = true) (b : Nat) :
    Pc.Moves s a b (s.pc b) ((effect s a).pc b) ∨ s.SameBo (effect s a) b :=
  Memory.bo_effect (inv.fresh s.bos (Nat.le_refl _)) h b

theorem keep_fresh (inv : Listed s) (h : enabled ap s a = true) :
    ∀ b, (effect s a).bos ≤ b → (effect s a).pc b = .idle := by
  intro b hb
  have hbos : s.bos ≤ (effect s a).bos := by
    cases a <;> first | exact Nat.le_refl _ | exact Nat.le_succ _
  have hidle := inv.fresh b (Nat.le_trans hbos hb)
  rcases inv.bo_effect h b with hmove | same
  · rw [hidle] at hmove
    generalize (effect s a).pc b = q at hmove
    cases hmove
    exact absurd hb (Nat.not_succ_le_self _)
  · rw [same.pc, hidle]

theorem keep_node (inv : Listed s) (h : enabled ap s a = true) : ∀ b,
    (effect s a).node b = if ((effect s a).pc b).inMm then some ((effect s a).size b).toNat
      else none := by
  intro b
  have hnode := inv.node b
  have hsize := inv.requested b
  rcases inv.bo_effect h b with hmove | same
  · generalize s.pc b = p at hmove hnode hsize
    generalize (effect s a).pc b = q at hmove
    cases hmove with
    | insert => simp [effect, Pc.inMm, hsize (Or.inr rfl)]
    | removeNode | freeNode => exact Function.update_self _ _ _
    | _ => exact hnode
  · rw [same.node, same.pc, same.size, hnode]

/-- A BO with a node after a step had it there before, or the step inserts it. -/
theorem Listed.entered (inv : Listed s) (h : enabled ap s a = true) {b : Nat}
    (hb : ((effect s a).pc b).inMm = true) :
    (∃ d start, a = .insert b d start) ∨ (s.pc b).inMm = true ∧
      (effect s a).start b = s.start b ∧ (effect s a).size b = s.size b ∧
        (effect s a).domain b = s.domain b := by
  rcases inv.bo_effect h b with hmove | same
  · generalize s.pc b = p at hmove ⊢
    generalize (effect s a).pc b = q at hmove hb
    cases hmove with
    | insert => exact Or.inl ⟨_, _, rfl⟩
    | mapAccept | mapRefuse | mapFail | handleCreate | handleFail | reply | replyDead | unmap
    | put | deleteHandle | freeUnmap => exact Or.inr ⟨rfl, rfl, rfl, rfl⟩
    | _ => cases hb
  · exact Or.inr ⟨same.pc ▸ hb, same.start, same.size, same.domain⟩

/-- A node of the allocator starts on a page boundary and lies in the aperture. -/
def Fitted (ap : Aperture) (s : State) : Prop := ∀ b, (s.pc b).inMm = true →
  0 < (s.size b).toNat ∧ pageSize ∣ s.start b ∧ ap.start ≤ s.start b ∧
    s.start b + (s.size b).toNat ≤ ap.stop

theorem keep_bounds (inv : Listed s) (bounds : Fitted ap s) (h : enabled ap s a = true) :
    Fitted ap (effect s a) := by
  intro b hb
  rcases inv.entered h hb with ⟨d, start, rfl⟩ | ⟨hbefore, hstart, hsize, -⟩
  · obtain ⟨hpc, -, hpos, hdvd, hle, hfit, -⟩ := of_decide_eq_true h
    have hasked := inv.requested b (Or.inr hpc)
    simp only [effect, Function.update_self]
    rw [← hasked]
    exact ⟨hpos, hdvd, hle, hfit⟩
  · rw [hstart, hsize]
    exact bounds b hbefore

/-- A range that the allocator may hand out is apart from every node of the domain. -/
theorem Listed.apart_of_allocatable (inv : Listed s) {d start size c : Nat}
    (h : s.Allocatable ap d start size) (hc : (s.pc c).inMm = true) (hdom : s.domain c = some d) :
    Apart start size (s.start c) (s.size c).toNat := by
  have hlt : c < s.bos := by
    by_contra hge
    simp [inv.fresh c (by omega), Pc.inMm] at hc
  have hnode := h.2.2.2.2 c hlt hdom
  simpa [inv.node c, hc] using hnode

/-- An inserted node is apart from those the domain has already. -/
theorem Listed.apart_of_insert (inv : Listed s) {b c d start e : Nat}
    (h : enabled ap s (.insert b d start) = true) (hc : (s.pc c).inMm = true)
    (hb : s.domain b = some e) (he : s.domain c = some e) :
    Apart ((effect s (.insert b d start)).start b) (s.size b).toNat (s.start c)
      (s.size c).toNat := by
  obtain ⟨hpc, hdom, halloc⟩ := of_decide_eq_true h
  obtain rfl : d = e := Option.some.inj (hdom.symm.trans hb)
  rw [inv.requested b (Or.inr hpc)] at halloc
  simp only [effect, Function.update_self]
  exact inv.apart_of_allocatable halloc hc he

theorem keep_nodesApart (inv : Placed ap s) (h : enabled ap s a = true) : ∀ b c d, b ≠ c →
    ((effect s a).pc b).inMm = true → ((effect s a).pc c).inMm = true →
    (effect s a).domain b = some d → (effect s a).domain c = some d →
      Apart ((effect s a).start b) ((effect s a).size b).toNat ((effect s a).start c)
        ((effect s a).size c).toNat := by
  intro b c e hne hb hc hdb hdc
  rcases inv.entered h hb with ⟨d, start, rfl⟩ | ⟨hbefore, hstart, hsize, hdom⟩
  · rcases inv.entered h hc with ⟨d', start', heq⟩ | ⟨hbefore, hstart, hsize, hdom⟩
    · injection heq with hbc
      exact absurd hbc hne
    · rw [hstart, hsize]
      exact inv.apart_of_insert h hbefore hdb (hdom ▸ hdc)
  · rcases inv.entered h hc with ⟨d, start, rfl⟩ | ⟨hbefore', hstart', hsize', hdom'⟩
    · rw [hstart, hsize]
      exact (inv.apart_of_insert h hbefore hdc (hdom ▸ hdb)).symm
    · rw [hstart, hsize, hstart', hsize']
      exact inv.nodesApart b c e hne hbefore hbefore' (hdom ▸ hdb) (hdom' ▸ hdc)

/-- A BO with a node has a domain. -/
def Domained (s : State) : Prop := ∀ b,
  s.pc b = .pages ∨ s.pc b = .insert ∨ (s.pc b).inMm = true → s.domain b ≠ none

theorem keep_bound (inv : Listed s) (bound : Domained s) (h : enabled ap s a = true) :
    Domained (effect s a) := by
  intro b hb
  have hbound := bound b
  rcases inv.bo_effect h b with hmove | same
  · generalize s.pc b = p at hmove hbound
    generalize (effect s a).pc b = q at hmove hb
    cases hmove with
    | domainGet => simp [effect]
    | pages | insert => exact hbound (by simp)
    | mapAccept | mapRefuse | mapFail | handleCreate | handleFail | reply | replyDead | unmap
    | put | deleteHandle | freeUnmap => exact hbound (Or.inr (Or.inr rfl))
    | _ => simp [Pc.inMm] at hb
  · rw [same.domain]
    exact hbound (same.pc ▸ hb)

theorem keep_requested (inv : Listed s) (h : enabled ap s a = true) : ∀ b,
    (effect s a).pc b = .pages ∨ (effect s a).pc b = .insert →
      (effect s a).boSize b = ((effect s a).size b).toNat := by
  intro b hb
  have hsize := inv.requested b
  rcases inv.bo_effect h b with hmove | same
  · generalize s.pc b = p at hmove hsize
    generalize (effect s a).pc b = q at hmove hb
    cases hmove with
    | domainGet => exact Function.update_self _ _ _
    | pages => exact hsize (Or.inl rfl)
    | _ => simp at hb
  · rw [same.boSize, same.size]
    exact hsize (same.pc ▸ hb)

/-- A BO whose node is in the allocator fits the aperture in whole pages. -/
theorem Fitted.fits (bounds : Fitted ap s) {b : Nat} (hb : (s.pc b).inMm = true) :
    pageAlign (s.size b) = roundUp pageSize (s.size b).toNat ∧
      s.start b + pageAlign (s.size b) ≤ ap.stop := by
  obtain ⟨-, hdvd, -, hfit⟩ := bounds b hb
  exact pageAlign_of_fits hdvd hfit

theorem Placed.fits (inv : Placed ap s) {b : Nat} (hb : (s.pc b).inMm = true) :
    pageAlign (s.size b) = roundUp pageSize (s.size b).toNat ∧
      s.start b + pageAlign (s.size b) ≤ ap.stop :=
  Fitted.fits inv.bounds hb

/-- A small map is accepted with the size of the object. -/
theorem Placed.map_accepted (inv : Placed ap s) {b d : Nat} (small : MapsSmall s (.map b d true))
    (hb : s.pc b = .map) : mapRefused (intOf (pageAlign (s.size b))) (s.size b) = false ∧
      (intOf (pageAlign (s.size b))).toNat = pageAlign (s.size b) := by
  have hlt := small b d rfl
  have hle : (s.size b).toNat ≤ pageAlign (s.size b) := by
    rw [(inv.fits (by simp [hb, Pc.inMm])).1]
    exact le_roundUp pageSize_pos _
  exact ⟨mapRefused_small hle hlt, by simp [intOf_small hlt]⟩

theorem keep_rounded (inv : Placed ap s) (small : MapsSmall s a) (h : enabled ap s a = true) :
    ∀ b, ((effect s a).pc b).mapped = true →
      (effect s a).boSize b = pageAlign ((effect s a).size b) := by
  intro b hb
  have hround := inv.rounded b
  rcases inv.bo_effect h b with hmove | same
  · generalize s.pc b = p at hmove hround
    generalize (effect s a).pc b = q at hmove hb
    cases hmove with
    | mapAccept accepted =>
        have hcount := (inv.map_accepted small (of_decide_eq_true h).1).2
        simp [effect, accepted, hcount]
    | handleCreate | handleFail | reply | replyDead | put | deleteHandle => exact hround rfl
    | _ => cases hb
  · rw [same.boSize, same.size]
    exact hround (same.pc ▸ hb)

theorem keep_replied (inv : Placed ap s) (h : enabled ap s a = true) : ∀ b,
    ((effect s a).pc b).handed = true →
      (effect s a).reply b = some ⟨(effect s a).start b, (effect s a).boSize b⟩ := by
  intro b hb
  have hreply := inv.replied b
  rcases inv.bo_effect h b with hmove | same
  · generalize s.pc b = p at hmove hreply
    generalize (effect s a).pc b = q at hmove hb
    cases hmove with
    | reply | replyDead => exact Function.update_self _ _ _
    | put | deleteHandle => exact hreply rfl
    | _ => cases hb
  · rw [same.reply, same.start, same.boSize]
    exact hreply (same.pc ▸ hb)

/-- The BO is mapped in domain `d`, in whole pages, and these are the entries of the page
tables that name it. -/
structure Backed (s : State) (b d : Nat) : Prop where
  aligned : pageSize ∣ s.start b
  rounded : s.boSize b = pageAlign (s.size b)
  entries : ∀ e x i, s.table e x = some (b, i) ↔
    e = d ∧ i < s.pageCount b ∧ x = s.start b / pageSize + i

theorem Backed.mapped_iff {b d x : Nat} (backed : Backed s b d) :
    (s.table d x).map Prod.fst = some b ↔
      s.start b / pageSize ≤ x ∧ x < s.start b / pageSize + s.pageCount b := by
  constructor
  · intro hx
    obtain ⟨⟨c, i⟩, hentry, rfl⟩ := Option.map_eq_some_iff.mp hx
    obtain ⟨-, hi, rfl⟩ := (backed.entries d x i).mp hentry
    exact ⟨Nat.le_add_right _ _, Nat.add_lt_add_left hi _⟩
  · rintro ⟨hle, hlt⟩
    have hentry := (backed.entries d x (x - s.start b / pageSize)).mpr ⟨rfl, by omega, by omega⟩
    simp [hentry]

/-- Unmapping a BO removes its pages from the table, all of them and no others. -/
theorem Backed.iommuUnmap_eq {b d : Nat} (backed : Backed s b d) :
    iommuUnmap (s.table d) (s.start b) (s.boSize b) =
      (fun x => if (s.table d x).map Prod.fst = some b then none else s.table d x,
        s.boSize b) := by
  have hdvd : pageSize ∣ s.boSize b := backed.rounded ▸ dvd_pageAlign _
  have hcount : s.boSize b / pageSize = s.pageCount b := by rw [backed.rounded, State.pageCount]
  have hmapped : ∀ i < s.pageCount b, s.table d (s.start b / pageSize + i) ≠ none := by
    intro i hi
    simp [(backed.entries d _ i).mpr ⟨rfl, hi, rfl⟩]
  simp only [iommuUnmap, backed.aligned, hdvd, and_self, if_true, hcount,
    PageTable.unmap_of_mapped hmapped, ← backed.mapped_iff]
  rw [← hcount, Nat.div_mul_cancel hdvd]

/-- The tables after the pages of one BO are gone. -/
theorem Backed.table_unmapped {b d : Nat} (backed : Backed s b d) (e x c i : Nat) :
    update s.table d (iommuUnmap (s.table d) (s.start b) (s.boSize b)).1 e x = some (c, i) ↔
      c ≠ b ∧ s.table e x = some (c, i) := by
  rw [backed.iommuUnmap_eq]
  by_cases he : e = d
  · subst he
    simp only [Function.update_self]
    split
    · rename_i hx
      simp only [reduceCtorEq, false_iff, not_and]
      rintro hne hentry
      exact hne (by simpa [hentry] using hx)
    · rename_i hx
      refine ⟨fun hentry => ⟨?_, hentry⟩, And.right⟩
      rintro rfl
      simp [hentry] at hx
  · simp only [Function.update_of_ne he]
    refine ⟨fun hentry => ⟨?_, hentry⟩, And.right⟩
    rintro rfl
    exact he ((backed.entries e x i).mp hentry).1

/-- The tables after a BO is mapped behind a free range. -/
theorem table_mapped {b d : Nat} (hfree : (s.table d).Free (s.start b / pageSize) (s.pageCount b))
    (e x c i : Nat) : update s.table d ((s.table d).map (s.start b / pageSize) (s.pageCount b)
        fun i => (b, i)) e x = some (c, i) ↔ s.table e x = some (c, i) ∨
      c = b ∧ e = d ∧ i < s.pageCount b ∧ x = s.start b / pageSize + i := by
  by_cases he : e = d
  · subst he
    simp only [Function.update_self, PageTable.map, true_and]
    split
    · rename_i hx
      have hnone : s.table e x = none := by
        have hfirst := hfree (x - s.start b / pageSize) (by omega)
        rwa [Nat.add_sub_cancel' hx.1] at hfirst
      simp only [hnone, reduceCtorEq, false_or, Option.some.injEq, Prod.mk.injEq]
      constructor
      · rintro ⟨rfl, rfl⟩
        exact ⟨rfl, by omega, by omega⟩
      · rintro ⟨rfl, -, rfl⟩
        exact ⟨rfl, by omega⟩
    · rename_i hx
      have hnot : ¬ (c = b ∧ i < s.pageCount b ∧ x = s.start b / pageSize + i) := by
        rintro ⟨-, hi, rfl⟩
        exact hx ⟨Nat.le_add_right _ _, Nat.add_lt_add_left hi _⟩
      simp [hnot]
  · simp [he]

theorem Placed.backed (inv : Placed ap s) {b d : Nat} (hb : (s.pc b).mapped = true)
    (hd : s.domain b = some d) : Backed s b d where
  aligned := (inv.bounds b (Pc.inMm_of_mapped hb)).2.1
  rounded := inv.rounded b hb
  entries := fun e x i => by
    rw [inv.table e x b i, hd]
    simp [hb, eq_comm (a := d)]

/-- What the page tables say of BOs and domains. -/
def TableExact (s : State) : Prop := ∀ d x b i, s.table d x = some (b, i) ↔
  (s.pc b).mapped = true ∧ s.domain b = some d ∧ i < s.pageCount b ∧
    x = s.start b / pageSize + i

/-- The pages of a BO are entered into the table when it is mapped. -/
theorem Placed.table_map (inv : Placed ap s) {b d : Nat} (small : MapsSmall s (.map b d true))
    (h : enabled ap s (.map b d true) = true) : TableExact (effect s (.map b d true)) := by
  simp only [enabled, decide_eq_true_eq] at h
  obtain ⟨hpc, hd, hfree⟩ := h
  have haccept := inv.map_accepted small hpc
  intro e x c i
  have hold := inv.table e x c i
  have hnew := table_mapped (hfree trivial) e x c i
  rw [show (effect s (.map b d true)).pageCount c = s.pageCount c from rfl]
  simp only [effect, haccept.1, if_true, and_self]
  rw [hnew, hold]
  by_cases hcb : c = b
  · subst hcb
    simp [hpc, hd, Pc.mapped, eq_comm (a := d)]
  · simp [hcb]

theorem State.SameBo.pageCount {t : State} {b : Nat} (same : s.SameBo t b) :
    t.pageCount b = s.pageCount b := by
  rw [State.pageCount, same.size, State.pageCount]

/-- A step that leaves the page tables neither maps nor unmaps a BO. -/
theorem Placed.keep_table_of_eq (inv : Placed ap s) (h : enabled ap s a = true)
    (htable : (effect s a).table = s.table) (hmap : ∀ b d, a ≠ .map b d true)
    (hunmap : ∀ b d r, a ≠ .unmap b d r ∧ a ≠ .freeUnmap b d) : TableExact (effect s a) := by
  intro d x b i
  rw [htable, inv.table d x b i]
  rcases inv.bo_effect h b with hmove | same
  · generalize s.pc b = p at hmove
    generalize (effect s a).pc b = q at hmove
    cases hmove with
    | mapAccept | mapRefuse => exact absurd rfl (hmap _ _)
    | unmap => exact absurd rfl (hunmap _ _ _).1
    | freeUnmap => exact absurd rfl (hunmap _ _ .inval).2
    | handleCreate | handleFail | reply | replyDead | put | deleteHandle => exact Iff.rfl
    | _ => simp [Pc.mapped]
  · rw [same.pc, same.domain, same.pageCount, same.start]

theorem keep_table (inv : Placed ap s) (small : MapsSmall s a) (h : enabled ap s a = true) :
    TableExact (effect s a) := by
  cases a with
  | map b d ok =>
      cases ok with
      | true => exact inv.table_map small h
      | false => exact inv.keep_table_of_eq h rfl (by simp) (by simp)
  | unmap b d r | freeUnmap b d =>
      intro e x c i
      simp only [enabled, decide_eq_true_eq] at h
      have hnew := (inv.backed (by simp [h.1, Pc.mapped]) h.2).table_unmapped e x c i
      have hold := inv.table e x c i
      simp only [effect, State.pageCount] at hold ⊢
      rw [hnew, hold]
      by_cases hcb : c = b
      · subst hcb
        simp [Pc.mapped]
      · simp only [Function.update_of_ne hcb, ne_eq, hcb, not_false_iff, true_and]
  | _ => exact inv.keep_table_of_eq h rfl (by simp) (by simp)

theorem Listed.preserve (inv : Listed s) (h : enabled ap s a = true) : Listed (effect s a) where
  fresh := keep_fresh inv h
  requested := keep_requested inv h
  node := keep_node inv h

theorem Placed.preserve (inv : Placed ap s) (small : MapsSmall s a)
    (h : enabled ap s a = true) : Placed ap (effect s a) where
  toListed := inv.toListed.preserve h
  bounds := keep_bounds inv.toListed inv.bounds h
  nodesApart := keep_nodesApart inv h
  bound := keep_bound inv.toListed inv.bound h
  rounded := keep_rounded inv small h
  table := keep_table inv small h
  replied := keep_replied inv h

theorem Listed.initial : Listed State.init where
  fresh := fun _ _ => rfl
  requested := fun b h => by simp [State.init] at h
  node := fun _ => rfl

theorem Placed.initial : Placed ap State.init where
  toListed := Listed.initial
  bounds := fun b h => by simp [State.init, Pc.inMm] at h
  nodesApart := fun b c d _ h => by simp [State.init, Pc.inMm] at h
  bound := fun b h => by simp [State.init, Pc.inMm] at h
  rounded := fun b h => by simp [State.init, Pc.mapped] at h
  table := fun d x b i => by simp [State.init, Pc.mapped]
  replied := fun b h => by simp [State.init, Pc.handed] at h

/-- A free range of the allocator is free in the page table. The node of a mapped BO
ends inside the BO's last page, and the range starts on a page boundary. -/
theorem Placed.reusable (inv : Placed ap s) {d start size x : Nat}
    (halloc : s.Allocatable ap d start size) (hle : start ≤ x * pageSize)
    (hlt : x * pageSize < start + size) : s.table d x = none := by
  by_contra hne
  obtain ⟨⟨b, i⟩, hentry⟩ := Option.ne_none_iff_exists'.mp hne
  obtain ⟨hb, hd, hi, rfl⟩ := (inv.table d x b i).mp hentry
  have hin := Pc.inMm_of_mapped hb
  have hdvd := (inv.bounds b hin).2.1
  have hpages := (inv.apart_of_allocatable halloc hin hd).roundUp pageSize_pos halloc.2.1 hdvd
  have hsize := le_roundUp pageSize_pos size
  rw [← (inv.fits hin).1] at hpages
  have hstart : s.start b / pageSize * pageSize = s.start b := Nat.div_mul_cancel hdvd
  have hend : (i + 1) * pageSize ≤ pageAlign (s.size b) :=
    Nat.le_trans (Nat.mul_le_mul_right pageSize hi) (Nat.div_mul_le_self _ _)
  have hpos := pageSize_pos
  rw [Nat.add_mul] at hle hlt hend
  rcases hpages with hbefore | hafter <;> omega

theorem Placed.sound (inv : Placed ap s) : s.Sound ap where
  aligned := fun b hb => by
    rw [inv.rounded b hb]
    exact ⟨(inv.bounds b (Pc.inMm_of_mapped hb)).2.1, dvd_pageAlign _⟩
  inside := fun b hb => by
    have hin := Pc.inMm_of_mapped hb
    rw [inv.rounded b hb]
    exact ⟨(inv.bounds b hin).2.2.1, (inv.fits hin).2⟩
  apart := fun b c hne hb hc hdom => by
    have hbin := Pc.inMm_of_mapped hb
    have hcin := Pc.inMm_of_mapped hc
    obtain ⟨d, hd⟩ := Option.ne_none_iff_exists'.mp (inv.bound b (Or.inr (Or.inr hbin)))
    have hnodes := inv.nodesApart b c d hne hbin hcin hd (hdom.symm.trans hd)
    rw [inv.rounded b hb, inv.rounded c hc, (inv.fits hbin).1, (inv.fits hcin).1]
    exact hnodes.roundUp pageSize_pos (inv.bounds b hbin).2.1 (inv.bounds c hcin).2.1
  mapped := fun b d hb hd i hi =>
    (inv.table d _ b i).mpr ⟨hb, hd, by rwa [inv.rounded b hb] at hi, rfl⟩
  replied := inv.replied
  unmaps := fun b d h => by
    simp only [enabled, decide_eq_true_eq] at h
    have hunmap := (inv.backed (by simp [h.1, Pc.mapped]) h.2).iommuUnmap_eq
    rw [hunmap]
    exact ⟨rfl, fun x => rfl⟩
  reusable := fun d start size halloc x hle hlt => inv.reusable halloc hle hlt

end Preserve

/-- In every run whose maps come to less than 2^31 bytes, the mapped ranges of the BOs
of a domain are apart, aligned and inside the aperture, each BO is mapped until
its own free unmaps it and nothing else, and no mapped address is handed out. -/
theorem placement_sound_of_mapsSmall {ap : Aperture} {acts : List Action}
    (small : Along (memory ap) MapsSmall State.init acts) :
    Throughout (memory ap) (State.Sound ap) State.init acts := by
  refine throughout_of_along (Placed ap) ?_ (fun s inv => inv.sound) small Placed.initial
  intro s a t inv ok hstep
  obtain ⟨h, rfl⟩ := memory_eq_some.mp hstep
  exact inv.preserve ok h

/-- The 32-bit aperture of the NPU's IOMMU. -/
def npuAperture : Aperture where
  start := 0
  stop := 2 ^ 32
  dvd_start := by decide
  dvd_stop := by decide
  stop_lt := by decide

/-- `MEM_CREATE` of BO `b` in domain 0, at `start`, up to its return. -/
def createSteps (b start : Nat) (size : U64) : List Action :=
  [.memCreate size 0#32, .shmem b none, .domainGet b, .pages b none, .insert b 0 start,
    .map b 0 true, .handleCreate b none, .reply b]

/-- `MEM_DESTROY` of BO `b` of domain 0 with no other reference on it. -/
def destroySteps (b : Nat) : List Action :=
  [.deleteHandle b, .freeUnmap b 0, .freeNode b 0, .freePut b]

/-- Two BOs of no whole number of pages; the first is freed and its hole used again. -/
def reusedHole : List Action :=
  createSteps 0 0 4097#64 ++ createSteps 1 0x2000 1#64 ++ destroySteps 0 ++
    createSteps 2 0 0x2000#64

/-- The condition on maps, as a test of one step. -/
def mapsSmallTest (s : State) : Action → Bool
  | .map b _ _ => decide (pageAlign (s.size b) < 2 ^ 31)
  | _ => true

theorem mapsSmall_of_test (s : State) (a : Action) (h : mapsSmallTest s a = true) :
    MapsSmall s a := by
  rintro b d rfl
  simpa [mapsSmallTest] using h

theorem placement_sound_of_mapsSmall_on_reusedHole :
    Throughout (memory npuAperture) (State.Sound npuAperture) State.init reusedHole :=
  placement_sound_of_mapsSmall (along_of_check mapsSmall_of_test (by decide))

/-- A `MEM_CREATE` of 2 GiB whose map succeeds, up to the return of its node. -/
def leakedMap : List Action :=
  [.memCreate 0x80000000#64 0#32, .shmem 0 none, .domainGet 0, .pages 0 none, .insert 0 0 0,
    .map 0 0 true, .removeNode 0 0 .nomem]

theorem leakedMap_accepted : ∃ s, Runs (memory npuAperture) State.init leakedMap s ∧
    s.table 0 0 = some (0, 0) ∧ s.Allocatable npuAperture 0 0 1 ∧
      s.pc 0 = .putDomain .nomem := by
  have hmap : ∀ s : State, s.pc 0 = .map → s.domain 0 = some 0 → s.table = (fun _ _ => none) →
      enabled npuAperture s (.map 0 0 true) = true := by
    intro s hpc hdom htable
    simp only [enabled, decide_eq_true_eq]
    exact ⟨hpc, hdom, fun _ i _ => by rw [htable]⟩
  refine ⟨_, runs_step (by decide) (runs_step (by decide) (runs_step (by decide)
    (runs_step (by decide) (runs_step (by decide) (runs_step (hmap _ rfl rfl rfl)
      (runs_step (by decide) (runs_nil.mpr rfl))))))), by decide, by decide, by decide⟩

/-- The 2 GiB stay mapped while the allocator may hand their addresses out. -/
theorem leaked_range_reusable :
    ¬ ∀ s, Runs (memory npuAperture) State.init leakedMap s → s.Sound npuAperture := by
  intro all
  obtain ⟨s, run, hmapped, halloc, -⟩ := leakedMap_accepted
  have hfree := (all s run).reusable 0 0 1 halloc 0 (by omega) (by omega)
  simp [hfree] at hmapped

end Rkopnu.Memory
