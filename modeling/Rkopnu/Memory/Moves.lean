import Rkopnu.Memory.Step

/-!
# Where a step leads a BO

The control flow of `rkopnu_ioctl_mem_create` and `rocket_gem_bo_free`, read off the steps
once: a step takes one BO from one label to the next and leaves every other BO as it is.
-/

namespace Rkopnu.Memory

open Function (update)

/-- The BO whose code the step runs, or one of whose references it drops. -/
def Action.boOf (s : State) : Action → Option Nat
  | .memCreate _ _ => some s.bos
  | .shmem b _ | .domainGet b | .domainFail b _ | .pages b _ | .insert b _ _
  | .insertFail b _ _ | .map b _ _ | .handleCreate b _ | .reply b | .unmap b _ _
  | .removeNode b _ _ | .putDomain b _ | .freeObject b _ | .put b | .deleteHandle b
  | .freeUnmap b _ | .freeNode b _ | .freePut b => some b
  | _ => none

/-- The step takes BO `b` from one point of its life to another. -/
inductive Pc.Moves (s : State) : Action → Nat → Pc → Pc → Prop
  | memCreate {size id} : Moves s (.memCreate size id) s.bos .idle .shmem
  | shmem {b} : Moves s (.shmem b none) b .shmem .domain
  | shmemFail {b e} : Moves s (.shmem b (some e)) b .shmem (.failed e)
  | domainGet {b} : Moves s (.domainGet b) b .domain .pages
  | domainFail {b e} : Moves s (.domainFail b e) b .domain (.freeObject e)
  | pages {b} : Moves s (.pages b none) b .pages .insert
  | pagesFail {b e} : Moves s (.pages b (some e)) b .pages (.putDomain e)
  | insert {b d start} : Moves s (.insert b d start) b .insert .map
  | insertFail {b d e} : Moves s (.insertFail b d e) b .insert (.putDomain e)
  | mapAccept {b d}
      (accepted : mapRefused (intOf (pageAlign (s.size b))) (s.size b) = false) :
      Moves s (.map b d true) b .map .handle
  | mapRefuse {b d}
      (refused : mapRefused (intOf (pageAlign (s.size b))) (s.size b) = true) :
      Moves s (.map b d true) b .map (.removeNode .nomem)
  | mapFail {b d} : Moves s (.map b d false) b .map (.removeNode .nomem)
  | handleCreate {b} : Moves s (.handleCreate b none) b .handle .reply
  | handleFail {b e} : Moves s (.handleCreate b (some e)) b .handle (.unmap e)
  | reply {b} : Moves s (.reply b) b .reply .live
  | replyDead {b} : Moves s (.reply b) b .reply .freeUnmap
  | unmap {b d e} : Moves s (.unmap b d e) b (.unmap e) (.removeNode e)
  | removeNode {b d e} : Moves s (.removeNode b d e) b (.removeNode e) (.putDomain e)
  | putDomain {b e} : Moves s (.putDomain b e) b (.putDomain e) (.freeObject e)
  | freeObject {b e} : Moves s (.freeObject b e) b (.freeObject e) (.failed e)
  | put {b} : Moves s (.put b) b .live .freeUnmap
  | deleteHandle {b} : Moves s (.deleteHandle b) b .live .freeUnmap
  | freeUnmap {b d} : Moves s (.freeUnmap b d) b .freeUnmap .freeNode
  | freeNode {b d} : Moves s (.freeNode b d) b .freeNode .freePut
  | freePut {b} : Moves s (.freePut b) b .freePut .freed

/-- Of BO `b` nothing has changed but the references on it. -/
structure State.SameBo (s t : State) (b : Nat) : Prop where
  pc : t.pc b = s.pc b
  size : t.size b = s.size b
  domain : t.domain b = s.domain b
  boSize : t.boSize b = s.boSize b
  start : t.start b = s.start b
  node : t.node b = s.node b
  reply : t.reply b = s.reply b

section Effect
variable {ap : Aperture} {s : State} {a : Action} {i b : Nat}

/-- A step that moves a BO is a step of that BO's code. -/
theorem Pc.Moves.boOf {p q : Pc} (hmove : Pc.Moves s a b p q) : a.boOf s = some b := by
  cases hmove <;> rfl

/-- Every other BO stays as it is. -/
theorem sameBo_of_ne (h : a.boOf s ≠ some b) : s.SameBo (effect s a) b := by
  have hne : ∀ {i : Nat}, a.boOf s = some i → b ≠ i := by
    rintro i hi rfl
    exact h hi
  cases a with
  | memCreate size id =>
      have hb := hne rfl
      constructor <;> simp [effect, hb]
  | domainGet i =>
      have hb := hne rfl
      constructor <;> simp [effect, State.domainGet, hb]
  | map i d ok =>
      have hb := hne rfl
      refine ⟨by simp [effect, hb], rfl, rfl, ?_, rfl, rfl, rfl⟩
      simp only [effect]
      split
      · exact Function.update_of_ne hb _ _
      · rfl
  | put i | deleteHandle i =>
      have hb := hne rfl
      refine ⟨?_, rfl, rfl, rfl, rfl, rfl, rfl⟩
      simp only [effect]
      split
      · exact Function.update_of_ne hb _ _
      · rfl
  | shmem i e | domainFail i e | pages i e | insert i d start | insertFail i d e
  | handleCreate i e | reply i | unmap i d e | removeNode i d e | putDomain i e
  | freeObject i e | freeUnmap i d | freeNode i d | freePut i =>
      have hb := hne rfl
      constructor <;> simp [effect, hb]
  | _ => exact ⟨rfl, rfl, rfl, rfl, rfl, rfl, rfl⟩

theorem bo_moved {p q : Pc} (ha : a.boOf s = some i) (hp : s.pc i = p)
    (hq : (effect s a).pc = update s.pc i q) (hmove : Pc.Moves s a i p q) :
    Pc.Moves s a b (s.pc b) ((effect s a).pc b) ∨ s.SameBo (effect s a) b := by
  refine (Transition.component_moved (R := Pc.Moves s a) hp hq hmove).imp_right fun hother => ?_
  refine sameBo_of_ne ?_
  rw [ha]
  exact fun heq => hother.1 (Option.some.inj heq).symm

/-- A step takes a BO to its next label, or leaves it as it is. -/
theorem bo_effect (fresh : s.pc s.bos = .idle) (h : enabled ap s a = true) (b : Nat) :
    Pc.Moves s a b (s.pc b) ((effect s a).pc b) ∨ s.SameBo (effect s a) b := by
  cases a with
  | memCreate size id => exact bo_moved rfl fresh rfl .memCreate
  | shmem i e =>
      cases e with
      | none => exact bo_moved rfl (of_decide_eq_true h) rfl .shmem
      | some e => exact bo_moved rfl (of_decide_eq_true h) rfl .shmemFail
  | domainGet i => exact bo_moved rfl (of_decide_eq_true h) rfl .domainGet
  | domainFail i e => exact bo_moved rfl (of_decide_eq_true h).1 rfl .domainFail
  | pages i e =>
      cases e with
      | none => exact bo_moved rfl (of_decide_eq_true h) rfl .pages
      | some e => exact bo_moved rfl (of_decide_eq_true h) rfl .pagesFail
  | insert i d start => exact bo_moved rfl (of_decide_eq_true h).1 rfl .insert
  | insertFail i d e => exact bo_moved rfl (of_decide_eq_true h).1 rfl .insertFail
  | map i d ok =>
      have hmap := (of_decide_eq_true h).1
      cases ok with
      | false => exact bo_moved rfl hmap (by simp [effect]) .mapFail
      | true =>
          cases hret : mapRefused (intOf (pageAlign (s.size i))) (s.size i) with
          | false => exact bo_moved rfl hmap (by simp [effect, hret]) (.mapAccept hret)
          | true => exact bo_moved rfl hmap (by simp [effect, hret]) (.mapRefuse hret)
  | handleCreate i e =>
      cases e with
      | none => exact bo_moved rfl (of_decide_eq_true h) rfl .handleCreate
      | some e => exact bo_moved rfl (of_decide_eq_true h) rfl .handleFail
  | reply i =>
      by_cases hlive : s.handle i = true ∨ 0 < s.others i
      · exact bo_moved rfl (of_decide_eq_true h) (by simp only [effect, if_pos hlive]) .reply
      · exact bo_moved rfl (of_decide_eq_true h) (by simp only [effect, if_neg hlive]) .replyDead
  | unmap i d e => exact bo_moved rfl (of_decide_eq_true h).1 rfl .unmap
  | removeNode i d e => exact bo_moved rfl (of_decide_eq_true h).1 rfl .removeNode
  | putDomain i e => exact bo_moved rfl (of_decide_eq_true h) rfl .putDomain
  | freeObject i e => exact bo_moved rfl (of_decide_eq_true h) rfl .freeObject
  | put i =>
      by_cases hlast : s.pc i = .live ∧ s.handle i = false ∧ s.others i = 1
      · exact bo_moved rfl hlast.1 (by simp only [effect, if_pos hlast]) .put
      · exact Or.inr ⟨by simp only [effect, if_neg hlast], rfl, rfl, rfl, rfl, rfl, rfl⟩
  | deleteHandle i =>
      by_cases hlast : s.pc i = .live ∧ s.others i = 0
      · exact bo_moved rfl hlast.1 (by simp only [effect, if_pos hlast]) .deleteHandle
      · exact Or.inr ⟨by simp only [effect, if_neg hlast], rfl, rfl, rfl, rfl, rfl, rfl⟩
  | freeUnmap i d => exact bo_moved rfl (of_decide_eq_true h).1 rfl .freeUnmap
  | freeNode i d => exact bo_moved rfl (of_decide_eq_true h).1 rfl .freeNode
  | freePut i => exact bo_moved rfl (of_decide_eq_true h) rfl .freePut
  | _ => exact Or.inr ⟨rfl, rfl, rfl, rfl, rfl, rfl, rfl⟩

end Effect

end Rkopnu.Memory
