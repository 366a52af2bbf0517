import Rkopnu.Driver.Step
import Rkopnu.Foundation.Paging

/-!
# Buffer objects and the address space of the NPU

A file's BOs live in the IOMMU domains of its pool. Each domain has an allocator of
address ranges, a `drm_mm` under `mm_lock`, and a page table. `MEM_CREATE` gets a
range, maps the BO behind it and hands out a handle; the last reference on a BO
unmaps it and gives the range back. When the file is closed its domains are taken
down.

## Implementation notes

A BO is named by the `MEM_CREATE` call that makes it, and page `i` of BO `b` is
`(b, i)`. A domain is named by the number of domains created before it. Which
threads race for a pool slot is the subject of `Pool`; here `rocket_iommu_domain_get`
is one step. The references on a BO other than its handle and its creator's (dma-bufs,
lookups, handles of other files) are counted together. `drm_mm` and the IOMMU are
not part of the repository: `drm_mm` may pick any range that is free and page
aligned, and a mapping may fail at any time and fails on a mapped page.
-/

namespace Rkopnu.Memory

open Function (update)
open Transition Paging
open Driver (domainSlot maxIommuDomains)

/-- `PAGE_SIZE`. -/
def pageSize : Nat := 4096

/-- `PAGE_ALIGN` of a 64-bit size. -/
def pageAlign (size : U64) : Nat := roundUp pageSize size.toNat % 2 ^ 64

/-- The addresses a domain manages, `aperture_start` and `aperture_end + 1`. -/
structure Aperture where
  start : Nat
  stop : Nat
  dvd_start : pageSize ∣ start
  dvd_stop : pageSize ∣ stop
  stop_lt : stop < 2 ^ 64

/-- What `RKNPU_MEM_CREATE` writes back: `dma_addr` and `size`. -/
structure MemReply where
  dmaAddr : Nat
  size : Nat
  deriving DecidableEq, Repr

/-- Where a BO stands. -/
inductive Pc
  | idle
  -- rkopnu_ioctl_mem_create
  /-- Before `drm_gem_shmem_create`. -/
  | shmem
  /-- Before `rocket_iommu_domain_get`. -/
  | domain
  /-- Before `drm_gem_shmem_get_pages_sgt`. -/
  | pages
  /-- Before `drm_mm_insert_node_generic`. -/
  | insert
  /-- Before `iommu_map_sgtable`. -/
  | map
  /-- Before `drm_gem_handle_create`. -/
  | handle
  /-- Before the arguments are written back. -/
  | reply
  /-- At `err_unmap`. -/
  | unmap (e : Errno)
  /-- At `err_remove_node`. -/
  | removeNode (e : Errno)
  /-- At `err_put_domain`. -/
  | putDomain (e : Errno)
  /-- At `err`. -/
  | freeObject (e : Errno)
  /-- `MEM_CREATE` has returned an error. -/
  | failed (e : Errno)
  /-- `MEM_CREATE` has returned the BO and a reference on it exists. -/
  | live
  -- rocket_gem_bo_free
  /-- Before `iommu_unmap`. -/
  | freeUnmap
  /-- Before `drm_mm_remove_node`. -/
  | freeNode
  /-- Before `rocket_iommu_domain_put`. -/
  | freePut
  | freed
  deriving DecidableEq, Repr

/-- Where the file stands; `closing i` is `rocket_iommu_domains_close` before slot `i`. -/
inductive FilePc
  | opened
  /-- `drm_gem_release` drops the file's handles. -/
  | releasing
  | closing (i : Nat)
  | closed
  deriving DecidableEq, Repr

structure State where
  /-- How many `MEM_CREATE` calls there have been. -/
  bos : Nat
  pc : Nat → Pc
  /-- `args->size`. -/
  size : Nat → U64
  /-- The pool slot of `args->iommu_domain_id`. -/
  slotId : Nat → Nat
  /-- `bo->domain`. -/
  domain : Nat → Option Nat
  /-- `bo->size`. -/
  boSize : Nat → Nat
  /-- `bo->mm.start`. -/
  start : Nat → Nat
  /-- The size of `bo->mm` while it is in the `drm_mm` of the domain. -/
  node : Nat → Option Nat
  /-- The file has a handle to the BO. -/
  handle : Nat → Bool
  /-- The references on the BO besides the handle's and the creator's. -/
  others : Nat → Nat
  reply : Nat → Option MemReply
  /-- The page table of a domain. -/
  table : Nat → PageTable (Nat × Nat)
  /-- How many domains have been created. -/
  doms : Nat
  /-- `rocket_priv->domains`. -/
  slot : Nat → Option Nat
  /-- `drm_mm_takedown` and `mutex_destroy` have run on the domain. -/
  torn : Nat → Bool
  file : FilePc

/-- The file is open and has no BO and no domain. -/
def State.init : State where
  bos := 0
  pc := fun _ => .idle
  size := fun _ => 0#64
  slotId := fun _ => 0
  domain := fun _ => none
  boSize := fun _ => 0
  start := fun _ => 0
  node := fun _ => none
  handle := fun _ => false
  others := fun _ => 0
  reply := fun _ => none
  table := fun _ _ => none
  doms := 0
  slot := fun _ => none
  torn := fun _ => false
  file := .opened

inductive Action
  -- rkopnu_ioctl_mem_create
  | memCreate (size : U64) (id : U32)
  | shmem (b : Nat) (e : Option Errno)
  | domainGet (b : Nat)
  | domainFail (b : Nat) (e : Errno)
  | pages (b : Nat) (e : Option Errno)
  | insert (b d start : Nat)
  | insertFail (b d : Nat) (e : Errno)
  | map (b d : Nat) (ok : Bool)
  | handleCreate (b : Nat) (e : Option Errno)
  | reply (b : Nat)
  | unmap (b d : Nat) (e : Errno)
  | removeNode (b d : Nat) (e : Errno)
  | putDomain (b : Nat) (e : Errno)
  | freeObject (b : Nat) (e : Errno)
  -- references
  /-- A dma-buf, a lookup or an import takes a reference. -/
  | get (b : Nat)
  | put (b : Nat)
  /-- A dma-buf is imported into the file again. -/
  | importHandle (b : Nat)
  /-- `rkopnu_ioctl_mem_destroy`, or `drm_gem_release` at close. -/
  | deleteHandle (b : Nat)
  -- rocket_gem_bo_free
  | freeUnmap (b d : Nat)
  | freeNode (b d : Nat)
  | freePut (b : Nat)
  /-- `rkopnu_ioctl_submit` gets a domain for its job. -/
  | submit (id : U32)
  -- close
  | release
  | postclose
  | takedown (i d : Nat)
  | skip (i : Nat)
  | closed (i : Nat)

/-- `rkopnu_ioctl_mem_create` has not returned. -/
def Pc.creating : Pc → Bool
  | .shmem | .domain | .pages | .insert | .map | .handle | .reply | .unmap _ | .removeNode _
  | .putDomain _ | .freeObject _ => true
  | _ => false

/-- `int ret = iommu_map_sgtable(...)`, for a 64-bit byte count. -/
def intOf (count : Nat) : Int := (BitVec.ofNat 32 count).toInt

/-- `ret < 0 || (u64)ret < args->size`. -/
def mapRefused (ret : Int) (size : U64) : Bool := decide (ret < 0 ∨ ret.toNat < size.toNat)

/-- `iommu_unmap`: the table left and the bytes unmapped. -/
def iommuUnmap (t : PageTable (Nat × Nat)) (iova size : Nat) : PageTable (Nat × Nat) × Nat :=
  if pageSize ∣ iova ∧ pageSize ∣ size then
    let r := t.unmap (iova / pageSize) (size / pageSize)
    (r.1, r.2 * pageSize)
  else (t, 0)

namespace State
variable (s : State)

/-- The `drm_mm` of domain `d` may hand out this range. -/
def Allocatable (ap : Aperture) (d start size : Nat) : Prop :=
  0 < size ∧ pageSize ∣ start ∧ ap.start ≤ start ∧ start + size ≤ ap.stop ∧
    ∀ b < s.bos, s.domain b = some d →
      (s.node b).all (fun m => decide (Apart start size (s.start b) m)) = true

instance (ap : Aperture) (d start size : Nat) : Decidable (s.Allocatable ap d start size) :=
  inferInstanceAs (Decidable (_ ∧ _ ∧ _ ∧ _ ∧ _))

/-- The number of pages of BO `b`. -/
def pageCount (b : Nat) : Nat := pageAlign (s.size b) / pageSize

/-- `rocket_iommu_domain_get` for slot `i`: the domain there, or a new one. -/
def slotDomain (i : Nat) : Nat := (s.slot i).getD s.doms

/-- The pool after `rocket_iommu_domain_get`. -/
def domainGet (i : Nat) : State :=
  { s with
    slot := update s.slot i (some (s.slotDomain i))
    doms := if s.slot i = none then s.doms + 1 else s.doms }

end State

/-- The thread stands at the action. -/
def enabled (ap : Aperture) (s : State) : Action → Bool
  | .memCreate _ _ => decide (s.file = .opened)
  | .shmem b _ => decide (s.pc b = .shmem)
  | .domainGet b => decide (s.pc b = .domain)
  | .domainFail b _ => decide (s.pc b = .domain ∧ s.slot (s.slotId b) = none)
  | .pages b _ => decide (s.pc b = .pages)
  | .insert b d start => decide (s.pc b = .insert ∧ s.domain b = some d ∧
      s.Allocatable ap d start (s.boSize b))
  | .insertFail b d _ => decide (s.pc b = .insert ∧ s.domain b = some d)
  | .map b d ok => decide (s.pc b = .map ∧ s.domain b = some d ∧
      (ok = true → (s.table d).Free (s.start b / pageSize) (s.pageCount b)))
  | .handleCreate b _ => decide (s.pc b = .handle)
  | .reply b => decide (s.pc b = .reply)
  | .unmap b d e => decide (s.pc b = .unmap e ∧ s.domain b = some d)
  | .removeNode b d e => decide (s.pc b = .removeNode e ∧ s.domain b = some d)
  | .putDomain b e => decide (s.pc b = .putDomain e)
  | .freeObject b e => decide (s.pc b = .freeObject e)
  | .get b => decide (s.pc b = .reply ∨ s.pc b = .live)
  | .put b => decide (0 < s.others b)
  | .importHandle b => decide (s.file = .opened ∧ 0 < s.others b ∧ s.handle b = false ∧
      (s.pc b = .reply ∨ s.pc b = .live))
  | .deleteHandle b => decide (s.handle b = true ∧ (s.file = .opened ∨ s.file = .releasing))
  | .freeUnmap b d => decide (s.pc b = .freeUnmap ∧ s.domain b = some d)
  | .freeNode b d => decide (s.pc b = .freeNode ∧ s.domain b = some d)
  | .freePut b => decide (s.pc b = .freePut)
  | .submit _ => decide (s.file = .opened)
  | .release => decide (s.file = .opened ∧ ∀ b < s.bos, (s.pc b).creating = false)
  | .postclose => decide (s.file = .releasing ∧ ∀ b < s.bos, s.handle b = false)
  | .takedown i d => decide (s.file = .closing i ∧ i < maxIommuDomains ∧ s.slot i = some d)
  | .skip i => decide (s.file = .closing i ∧ i < maxIommuDomains ∧ s.slot i = none)
  | .closed i => decide (s.file = .closing i ∧ ¬ i < maxIommuDomains)

/-- What the piece of code does. -/
def effect (s : State) : Action → State
  | .memCreate size id => { s with
      bos := s.bos + 1
      size := update s.size s.bos size
      slotId := update s.slotId s.bos (domainSlot id)
      pc := update s.pc s.bos .shmem }
  | .shmem b e => { s with
      pc := update s.pc b (match e with
        | none => .domain
        | some e => .failed e) }
  | .domainGet b => { s.domainGet (s.slotId b) with
      domain := update s.domain b (some (s.slotDomain (s.slotId b)))
      boSize := update s.boSize b (s.size b).toNat
      pc := update s.pc b .pages }
  | .domainFail b e => { s with pc := update s.pc b (.freeObject e) }
  | .pages b e => { s with
      pc := update s.pc b (match e with
        | none => .insert
        | some e => .putDomain e) }
  | .insert b _ start => { s with
      start := update s.start b start
      node := update s.node b (some (s.boSize b))
      pc := update s.pc b .map }
  | .insertFail b _ e => { s with pc := update s.pc b (.putDomain e) }
  | .map b d ok => { s with
      table := if ok then update s.table d ((s.table d).map (s.start b / pageSize)
        (s.pageCount b) fun i => (b, i)) else s.table
      boSize := if ok ∧ mapRefused (intOf (pageAlign (s.size b))) (s.size b) = false
        then update s.boSize b (intOf (pageAlign (s.size b))).toNat else s.boSize
      pc := update s.pc b
        (if ok ∧ mapRefused (intOf (pageAlign (s.size b))) (s.size b) = false
          then .handle else .removeNode .nomem) }
  | .handleCreate b e => { s with
      handle := update s.handle b (decide (e = none))
      pc := update s.pc b (match e with
        | none => .reply
        | some e => .unmap e) }
  -- the creator's reference is the last one if the handle is gone already
  | .reply b => { s with
      reply := update s.reply b (some ⟨s.start b, s.boSize b⟩)
      pc := update s.pc b (if s.handle b = true ∨ 0 < s.others b then .live else .freeUnmap) }
  | .unmap b d e => { s with
      table := update s.table d (iommuUnmap (s.table d) (s.start b) (s.boSize b)).1
      pc := update s.pc b (.removeNode e) }
  | .removeNode b _ e => { s with
      node := update s.node b none
      pc := update s.pc b (.putDomain e) }
  | .putDomain b e => { s with
      domain := update s.domain b none
      pc := update s.pc b (.freeObject e) }
  | .freeObject b e => { s with pc := update s.pc b (.failed e) }
  | .get b => { s with others := update s.others b (s.others b + 1) }
  | .put b => { s with
      others := update s.others b (s.others b - 1)
      pc := if s.pc b = .live ∧ s.handle b = false ∧ s.others b = 1
        then update s.pc b .freeUnmap else s.pc }
  | .importHandle b => { s with handle := update s.handle b true }
  | .deleteHandle b => { s with
      handle := update s.handle b false
      pc := if s.pc b = .live ∧ s.others b = 0 then update s.pc b .freeUnmap else s.pc }
  | .freeUnmap b d => { s with
      table := update s.table d (iommuUnmap (s.table d) (s.start b) (s.boSize b)).1
      pc := update s.pc b .freeNode }
  | .freeNode b _ => { s with
      node := update s.node b none
      pc := update s.pc b .freePut }
  | .freePut b => { s with
      domain := update s.domain b none
      pc := update s.pc b .freed }
  | .submit id => s.domainGet (domainSlot id)
  | .release => { s with file := .releasing }
  | .postclose => { s with file := .closing 0 }
  | .takedown i d => { s with
      torn := update s.torn d true
      slot := update s.slot i none
      file := .closing (i + 1) }
  | .skip i => { s with file := .closing (i + 1) }
  | .closed _ => { s with file := .closed }

/-- The BOs and domains of one file as a transition system. -/
def memory (ap : Aperture) : System State Action := fun s a =>
  if enabled ap s a then some (effect s a) else none

theorem memory_eq_some {ap : Aperture} {s t : State} {a : Action} :
    memory ap s a = some t ↔ enabled ap s a = true ∧ effect s a = t := by
  unfold memory
  split <;> simp_all

/-- A run goes on with a step that can be taken. -/
theorem runs_step {ap : Aperture} {s t : State} {a : Action} {rest : List Action}
    (h : enabled ap s a = true) (run : Runs (memory ap) (effect s a) rest t) :
    Runs (memory ap) s (a :: rest) t :=
  runs_cons.mpr ⟨effect s a, memory_eq_some.mpr ⟨h, rfl⟩, run⟩

end Rkopnu.Memory
