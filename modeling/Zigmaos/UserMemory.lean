import Mathlib.Algebra.BigOperators.Fin
import Zigmaos.PageTable

/-!
# User memory

The functions of `user_memory.zig` and `unmap`. Each returns the table and the
allocator it leaves behind, also when it fails, or the panic it ends in. What a
table maps is a set of virtual pages.
-/
namespace Zigmaos.Memory

/-- The virtual pages of `trampoline_virtual_address` and `trapframe_virtual_address`. -/
def trampolinePage : ℕ := maxVirtualPage - 1
def trapframePage : ℕ := maxVirtualPage - 2

inductive Panic
  | walk
  | uvmUnmapWalk
  | uvmUnmapNotMapped
  | uvmUnmapNotALeaf
  | freewalkLeaf
  /-- `freeWalk` takes a page of data for a page table. -/
  | freewalkData
  | uvmCopyPteShouldExist
  | uvmCopyPageNotPresent
  | uvmClear
  deriving DecidableEq

namespace PageTable

def unmap (doFree : Bool) : PageTable → Allocator → (startPage numPages : ℕ) →
    Except Panic (PageTable × Allocator)
  | t, a, _, 0 => .ok (t, a)
  | t, a, v, n + 1 =>
    if maxVirtualPage ≤ v then .error .walk
    else
      match t.lookup v with
      | none => .error .uvmUnmapWalk
      | some none => .error .uvmUnmapNotMapped
      | some (some pte) =>
        if pte.isBranch then .error .uvmUnmapNotALeaf
        else unmap doFree (t.setEntry v none) (if doFree then a.freePage pte.page else a) (v + 1) n

/-- `dealloc`, with the size it returns. -/
def dealloc (t : PageTable) (a : Allocator) (oldSize newSize : ℕ) :
    Except Panic (ℕ × PageTable × Allocator) :=
  if oldSize ≤ newSize then .ok (oldSize, t, a)
  else if pageCount newSize < pageCount oldSize then
    match t.unmap true a (pageCount newSize) (pageCount oldSize - pageCount newSize) with
    | .error p => .error p
    | .ok (t, a) => .ok (newSize, t, a)
  else .ok (newSize, t, a)

/-- The loop of `alloc` from the page `v` on, with `n` pages to go. -/
def allocPages (oldSize : ℕ) (permissions : PagePermissions) (t : PageTable) (a : Allocator)
    (v : ℕ) : ℕ → Except Panic (Bool × PageTable × Allocator)
  | 0 => .ok (true, t, a)
  | n + 1 =>
    match a.allocPage with
    | (none, a) =>
      match t.dealloc a (v * pageSize) oldSize with
      | .error p => .error p
      | .ok (_, t, a) => .ok (false, t, a)
    | (some page, a) =>
      if maxVirtualPage ≤ v then .error .walk
      else
        match t.map a v page permissions true with
        | (.ok, t, a) => allocPages oldSize permissions t a (v + 1) n
        | (_, t, a) =>
          match t.dealloc (a.freePage page) (v * pageSize) oldSize with
          | .error p => .error p
          | .ok (_, t, a) => .ok (false, t, a)

/-- `none` is an error. -/
def alloc (t : PageTable) (a : Allocator) (oldSize newSize : ℕ) (permissions : PagePermissions) :
    Except Panic (Option ℕ × PageTable × Allocator) :=
  if newSize < oldSize then .ok (some oldSize, t, a)
  else
    match allocPages oldSize permissions t a (pageCount oldSize)
        (pageCount newSize - pageCount oldSize) with
    | .error p => .error p
    | .ok (done, t, a) => .ok (if done then some newSize else none, t, a)

/-- The loop of `copyPageTable` from the page `v` on, with `n` pages to go. -/
def copyPages (oldTable t : PageTable) (a : Allocator) (v : ℕ) :
    ℕ → Except Panic (Bool × PageTable × Allocator)
  | 0 => .ok (true, t, a)
  | n + 1 =>
    if maxVirtualPage ≤ v then .error .walk
    else
      match oldTable.lookup v with
      | none => .error .uvmCopyPteShouldExist
      | some none => .error .uvmCopyPageNotPresent
      | some (some pte) =>
        match a.allocPage with
        | (none, a) =>
          match t.unmap true a 0 v with
          | .error p => .error p
          | .ok (t, a) => .ok (false, t, a)
        | (some page, a) =>
          match t.map a v page pte.permissions pte.user with
          | (.ok, t, a) => copyPages oldTable t a (v + 1) n
          | (_, t, a) =>
            match t.unmap true (a.freePage page) 0 v with
            | .error p => .error p
            | .ok (t, a) => .ok (false, t, a)

def copyPageTable (oldTable newTable : PageTable) (a : Allocator) (size : ℕ) :
    Except Panic (Bool × PageTable × Allocator) :=
  copyPages oldTable newTable a 0 (pageCount size)

end PageTable

/-- A turn of the loop of `freeWalk`. -/
def Node.freeEntry {ε : Type} (child : ε → Allocator → Except Panic Allocator) (n : Node ε)
    (a : Allocator) (i : Index) : Except Panic Allocator :=
  match n.entries i with
  | none => .ok a
  | some e => child e a

/-- The loop of `freeWalk` over the entries of a page, and its end. -/
def Node.freeWalk {ε : Type} (child : ε → Allocator → Except Panic Allocator) (n : Node ε)
    (a : Allocator) : Except Panic Allocator :=
  match (List.finRange 512).foldlM (n.freeEntry child) a with
  | .error p => .error p
  | .ok a => .ok (a.freePage n.page)

namespace PageTable

def freeWalk (t : PageTable) (a : Allocator) : Except Panic Allocator :=
  Node.freeWalk (Node.freeWalk (Node.freeWalk (fun pte _ =>
    .error (if pte.isBranch then .freewalkData else .freewalkLeaf)))) t a

def free (t : PageTable) (a : Allocator) (size : ℕ) : Except Panic Allocator :=
  match (if 0 < size then t.unmap true a 0 (pageCount size) else .ok (t, a)) with
  | .error p => .error p
  | .ok (t, a) => t.freeWalk a

def freePageTable (t : PageTable) (a : Allocator) (size : ℕ) : Except Panic Allocator :=
  match t.unmap false a trampolinePage 1 with
  | .error p => .error p
  | .ok (t, a) =>
    match t.unmap false a trapframePage 1 with
    | .error p => .error p
    | .ok (t, a) => t.free a size

/-- The entry of the guard page, valid or not. -/
def clearUser (t : PageTable) (v : ℕ) : Except Panic PageTable :=
  if maxVirtualPage ≤ v then .error .walk
  else
    match t.lookup v with
    | none => .error .uvmClear
    | some pte => .ok (t.setEntry v (pte.map (fun e => { e with user := false })))

end PageTable

/-- `MappingKind.code.permissions()` and `MappingKind.data.permissions()`. -/
def PagePermissions.code : PagePermissions := ⟨true, false, true⟩
def PagePermissions.data : PagePermissions := ⟨true, true, false⟩

/-- `trampoline` and `trapframe` are the physical pages that it maps. -/
def createPagetable (trampoline trapframe : Page) (a : Allocator) :
    Except Panic (Option PageTable × Allocator) :=
  match a.allocPage with
  | (none, a) => .ok (none, a)
  | (some page, a) =>
    match PageTable.map (.empty page) a trampolinePage trampoline .code false with
    | (.ok, t, a) =>
      match t.map a trapframePage trapframe .data false with
      | (.ok, t, a) => .ok (some t, a)
      | (_, t, a) =>
        match t.unmap false a trampolinePage 1 with
        | .error p => .error p
        | .ok (t, a) =>
          match t.free a 0 with
          | .error p => .error p
          | .ok a => .ok (none, a)
    | (_, t, a) =>
      match t.free a 0 with
      | .error p => .error p
      | .ok a => .ok (none, a)

/-! ## What is mapped -/

namespace PageTable

/-- The pages of the set are mapped and no other. -/
structure Mapped (t : PageTable) (S : ℕ → Prop) : Prop where
  upper : ∀ i : Index, 256 ≤ i.val → t.entries i = none
  isSome_iff : ∀ v < maxVirtualPage, (t.leaf v).isSome ↔ S v
  permissions : ∀ v < maxVirtualPage, ∀ pte, t.leaf v = some pte → pte.isBranch = false

/-- The physical page of a virtual page, if there is one. -/
def pagesAt (t : PageTable) (v : ℕ) : Multiset Page := (t.leaf v).elim 0 (fun e => {e.page})

/-- The physical pages of `n` virtual pages from `v` on. -/
def pagesFrom (t : PageTable) (v : ℕ) : ℕ → Multiset Page
  | 0 => 0
  | n + 1 => t.pagesAt v + t.pagesFrom (v + 1) n

variable {t t' t₀ : PageTable} {a a' a₀ : Allocator} {S : ℕ → Prop} {v v₀ n : ℕ}

theorem pagesFrom_congr (h : ∀ w, v ≤ w → w < v + n → t'.pagesAt w = t.pagesAt w) :
    t'.pagesFrom v n = t.pagesFrom v n := by
  induction n generalizing v with
  | zero => rfl
  | succ n ih =>
    rw [pagesFrom, pagesFrom, h v le_rfl (by omega),
      ih (fun w hw hw' => h w (by omega) (by omega))]

theorem pagesFrom_succ_last (t : PageTable) (v n : ℕ) :
    t.pagesFrom v (n + 1) = t.pagesFrom v n + t.pagesAt (v + n) := by
  induction n generalizing v with
  | zero => simp [pagesFrom]
  | succ n ih => rw [pagesFrom, ih, pagesFrom, add_assoc v, add_comm 1 n, add_assoc]

theorem pagesFrom_add (t : PageTable) (v m n : ℕ) :
    t.pagesFrom v (m + n) = t.pagesFrom v m + t.pagesFrom (v + m) n := by
  induction m generalizing v with
  | zero => simp [pagesFrom]
  | succ m ih =>
    rw [Nat.succ_add, pagesFrom, ih, pagesFrom, add_assoc v, add_comm 1 m, add_assoc]

theorem Mapped.congr {S' : ℕ → Prop} (h : t.Mapped S) (hS : ∀ v < maxVirtualPage, S' v ↔ S v) :
    t.Mapped S' :=
  ⟨h.upper, fun v hv => (h.isSome_iff v hv).trans (hS v hv).symm, h.permissions⟩

theorem Mapped.leaf_none (h : t.Mapped S) (hv : v < maxVirtualPage) (hS : ¬ S v) :
    t.leaf v = none := by
  have := h.isSome_iff v hv
  rw [iff_false_right hS] at this
  simpa using this

theorem Mapped.lookup (h : t.Mapped S) (hv : v < maxVirtualPage) (hS : S v) :
    ∃ pte, t.leaf v = some pte ∧ t.lookup v = some (some pte) ∧ pte.isBranch = false := by
  have hsome := (h.isSome_iff v hv).mpr hS
  obtain ⟨pte, hpte⟩ := Option.isSome_iff_exists.mp hsome
  exact ⟨pte, hpte, by rw [lookup_isSome_of_leaf hsome, hpte], h.permissions v hv pte hpte⟩

/-- Assigning to an entry that `walk` reaches. -/
theorem Mapped.setEntry (h : t.Mapped S) (hv : v < maxVirtualPage) (hl : (t.lookup v).isSome)
    (e : Option PageTableEntry) (he : ∀ pte, e = some pte → pte.isBranch = false) :
    (t.setEntry v e).Mapped (fun w => if w = v then e.isSome = true else S w) := by
  refine ⟨fun i hi => ?_, fun w hw => ?_, fun w hw pte hpte => ?_⟩
  · have hg : Grown t ⟨[], fun _ => false, 0⟩ t ⟨[], fun _ => false, 0⟩ := ⟨rfl, fun _ _ h => h⟩
    exact (hg.setEntry hv e).upper i hi (h.upper i hi)
  · rw [leaf_setEntry t e hv hw hl]
    by_cases hwv : w = v
    · simp [hwv]
    · simp only [hwv, if_false]
      exact h.isSome_iff w hw
  · rw [leaf_setEntry t e hv hw hl] at hpte
    split at hpte
    · exact he pte hpte
    · exact h.permissions w hw pte hpte

/-- `unmap` of pages that are mapped. -/
theorem unmap_spec (doFree : Bool) (h : t.Mapped S) (hsub : ∀ w, v ≤ w → w < v + n → S w)
    (hle : v + n ≤ maxVirtualPage) :
    ∃ t' a', t.unmap doFree a v n = .ok (t', a') ∧ t'.Mapped (fun w => S w ∧ ¬ (v ≤ w ∧ w < v + n)) ∧
      t'.pages = t.pages ∧ a'.pages = (if doFree then t.pagesFrom v n else 0) + a.pages ∧
      ∀ w < maxVirtualPage, ¬ (v ≤ w ∧ w < v + n) → t'.leaf w = t.leaf w := by
  induction n generalizing t a v S with
  | zero =>
    refine ⟨t, a, rfl, h.congr (fun w _ => by simp), rfl, ?_, fun _ _ _ => rfl⟩
    cases doFree <;> simp [pagesFrom]
  | succ n ih =>
    have hv : v < maxVirtualPage := by omega
    obtain ⟨pte, hleaf, hlookup, hbranch⟩ := h.lookup hv (hsub v le_rfl (by omega))
    have hl : (t.lookup v).isSome := by rw [hlookup]; rfl
    have hset := h.setEntry hv hl none nofun
    obtain ⟨t', a', heq, hmapped, hpages, hapages, hother⟩ :=
      ih (a := if doFree then a.freePage pte.page else a) hset (v := v + 1)
        (fun w hw hw' => by
          have : w ≠ v := by omega
          simp only [this, if_false]
          exact hsub w (by omega) (by omega)) (by omega)
    have hfrom : (t.setEntry v none).pagesFrom (v + 1) n = t.pagesFrom (v + 1) n := by
      refine pagesFrom_congr (fun w hw hw' => ?_)
      rw [pagesAt, leaf_setEntry t none hv (by omega) hl, if_neg (by omega), pagesAt]
    refine ⟨t', a', ?_, hmapped.congr (fun w hw => ?_), ?_, ?_, fun w hw hnot => ?_⟩
    · rw [unmap, if_neg (Nat.not_le.mpr hv), hlookup]
      simpa only [hbranch, Bool.false_eq_true, if_false] using heq
    · by_cases hwv : w = v
      · simp [hwv]
      · simp only [hwv, if_false]
        constructor <;> rintro ⟨hS, hnot⟩ <;> exact ⟨hS, by omega⟩
    · rw [hpages, pages_setEntry]
    · rw [hapages, hfrom]
      cases doFree
      · rfl
      · simp only [if_true, Allocator.freePage_pages, pagesFrom, pagesAt, hleaf, Option.elim_some]
        rw [add_left_comm, add_assoc]
    · rw [hother w hw (by omega), leaf_setEntry t none hv hw hl, if_neg (by omega)]

/-! ## Growing a table and giving up -/

/-- From `v₀` to `v` the table maps fresh pages; the rest is as it was. -/
structure Extended (t₀ : PageTable) (a₀ : Allocator) (S : ℕ → Prop) (v₀ v : ℕ) (t : PageTable)
    (a : Allocator) : Prop where
  le : v₀ ≤ v
  mapped : t.Mapped (fun w => S w ∨ (v₀ ≤ w ∧ w < v))
  fresh : ∀ w, v₀ ≤ w → w < v → ¬ S w
  before : ∀ w, v₀ ≤ w → w < v → t₀.leaf w = none
  leaf_eq : ∀ w < maxVirtualPage, ¬ (v₀ ≤ w ∧ w < v) → t.leaf w = t₀.leaf w
  pages_eq : t.pages + a.pages + t.pagesFrom v₀ (v - v₀) = t₀.pages + a₀.pages

theorem Mapped.extended (h : t₀.Mapped S) (a₀ : Allocator) (v₀ : ℕ) :
    Extended t₀ a₀ S v₀ v₀ t₀ a₀ where
  le := le_rfl
  mapped := h.congr (fun w _ => or_iff_left (fun hin => by omega))
  fresh w hw hw' := absurd hw' (by omega)
  before w hw hw' := absurd hw' (by omega)
  leaf_eq _ _ _ := rfl
  pages_eq := by simp [pagesFrom]

/-- Nothing grows over the trapframe. -/
theorem Extended.le_trapframe (h : Extended t₀ a₀ S v₀ v t a) (hS : S trapframePage)
    (hv₀ : v₀ ≤ trapframePage) : v ≤ trapframePage := by
  by_contra hlt
  exact h.fresh trapframePage hv₀ (by omega) hS

theorem Mapped.grown (h : t.Mapped S) (hg : Grown t a t' a')
    (hleaf : ∀ w < maxVirtualPage, t'.leaf w = t.leaf w) : t'.Mapped S :=
  ⟨fun i hi => hg.upper i hi (h.upper i hi),
    fun w hw => by rw [hleaf w hw]; exact h.isSome_iff w hw,
    fun w hw pte hpte => h.permissions w hw pte (by rw [← hleaf w hw]; exact hpte)⟩

/-- `map` of a page that `allocPage` has returned. -/
theorem Extended.map {page : Page} {a' : Allocator} (h : Extended t₀ a₀ S v₀ v t a)
    (hv : v < maxVirtualPage) (ha : a'.pages + {page} = a.pages) {permissions : PagePermissions}
    (hp : permissions ≠ .none) (user : Bool) :
    ((t.map a' v page permissions user).1 = .ok ∧
      Extended t₀ a₀ S v₀ (v + 1) (t.map a' v page permissions user).2.1
        (t.map a' v page permissions user).2.2 ∧
      (t.map a' v page permissions user).2.1.leaf v = some ⟨permissions, user, page⟩) ∨
    ((t.map a' v page permissions user).1 ≠ .ok ∧
      Extended t₀ a₀ S v₀ v (t.map a' v page permissions user).2.1
        ((t.map a' v page permissions user).2.2.freePage page)) := by
  have hspec := t.map_spec a' hv page permissions user
  generalize t.map a' v page permissions user = r at hspec ⊢
  obtain ⟨result, t', a''⟩ := r
  simp only at hspec ⊢
  obtain ⟨hg, ⟨hok, hnone, hleaf⟩ | ⟨hfail, hleaf⟩⟩ := hspec
  · left
    have hself := hleaf v hv
    rw [if_pos rfl] at hself
    have hnotS : ¬ S v := by
      intro hS
      have := (h.mapped.isSome_iff v hv).mpr (.inl hS)
      rw [hnone] at this
      exact absurd this Bool.false_ne_true
    have hle := h.le
    refine ⟨hok, ⟨by omega, ⟨fun i hi => hg.upper i hi (h.mapped.upper i hi), fun w hw => ?_,
      fun w hw pte hpte => ?_⟩, fun w hw hw' => ?_, fun w hw hw' => ?_, fun w hw hnot => ?_, ?_⟩,
      hself⟩
    · rw [hleaf w hw]
      by_cases hwv : w = v
      · simp only [hwv, if_true, Option.isSome_some, true_iff]
        exact .inr ⟨hle, by omega⟩
      · rw [if_neg hwv, h.mapped.isSome_iff w hw]
        exact or_congr_right (by omega)
    · rw [hleaf w hw] at hpte
      split at hpte
      · obtain rfl := Option.some.inj hpte
        simpa [PageTableEntry.isBranch] using hp
      · exact h.mapped.permissions w hw pte hpte
    · by_cases hwv : w = v
      · rwa [hwv]
      · exact h.fresh w hw (by omega)
    · by_cases hwv : w = v
      · rw [hwv, ← h.leaf_eq v hv (by omega), hnone]
      · exact h.before w hw (by omega)
    · rw [hleaf w hw, if_neg (by omega)]
      exact h.leaf_eq w hw (by omega)
    · have hfrom : t'.pagesFrom v₀ (v - v₀) = t.pagesFrom v₀ (v - v₀) := by
        refine pagesFrom_congr (fun w hw hw' => ?_)
        rw [pagesAt, hleaf w (by omega), if_neg (by omega), pagesAt]
      have hat : t'.pagesAt v = {page} := by rw [pagesAt, hself]; rfl
      rw [Nat.succ_sub hle, pagesFrom_succ_last, hfrom, Nat.add_sub_of_le hle, hat, ← h.pages_eq,
        hg.pages_eq, ← ha]
      ext x
      simp only [Multiset.count_add]
      omega
  · right
    refine ⟨hfail, h.le, h.mapped.grown hg (fun w _ => hleaf w), h.fresh, h.before,
      fun w hw hnot => ?_, ?_⟩
    · rw [hleaf]
      exact h.leaf_eq w hw hnot
    · have hfrom : t'.pagesFrom v₀ (v - v₀) = t.pagesFrom v₀ (v - v₀) :=
        pagesFrom_congr (fun w _ _ => by rw [pagesAt, hleaf, pagesAt])
      have hpages := hg.pages_eq
      rw [hfrom, ← h.pages_eq, ← ha, Allocator.freePage_pages, add_left_comm, hpages]
      ext x
      simp only [Multiset.count_add]
      omega

theorem Extended.allocator (h : Extended t₀ a₀ S v₀ v t a) (ha : a'.pages = a.pages) :
    Extended t₀ a₀ S v₀ v t a' :=
  ⟨h.le, h.mapped, h.fresh, h.before, h.leaf_eq, by rw [ha]; exact h.pages_eq⟩

/-- Giving back what a table has grown by. -/
theorem Extended.undo (h : Extended t₀ a₀ S v₀ v t a) (hv : v ≤ maxVirtualPage) :
    ∃ t' a', t.unmap true a v₀ (v - v₀) = .ok (t', a') ∧ Extended t₀ a₀ S v₀ v₀ t' a' := by
  have hle := h.le
  obtain ⟨t', a', heq, hmapped, hpages, hapages, hleaf⟩ :=
    unmap_spec (n := v - v₀) (a := a) true h.mapped (fun w hw hw' => .inr ⟨hw, by omega⟩)
      (by omega)
  refine ⟨t', a', heq, le_rfl, hmapped.congr (fun w _ => ?_), fun w hw hw' => absurd hw' (by omega),
    fun w hw hw' => absurd hw' (by omega), fun w hw _ => ?_, ?_⟩
  · have := h.fresh w
    constructor
    · rintro (hS | hlt)
      · exact ⟨.inl hS, fun hin => this hin.1 (by omega) hS⟩
      · omega
    · rintro ⟨hS | hin, hnot⟩
      · exact .inl hS
      · exact absurd hin (by omega)
  · by_cases hin : v₀ ≤ w ∧ w < v
    · rw [h.before w hin.1 hin.2]
      exact hmapped.leaf_none hw (fun hnot => hnot.2 (by omega))
    · rw [hleaf w hw (by omega)]
      exact h.leaf_eq w hw hin
  · rw [hpages, hapages, if_pos rfl, ← h.pages_eq]
    rw [Nat.sub_self, pagesFrom, add_zero]
    ext x
    simp only [Multiset.count_add]
    omega

/-! ## The functions -/

theorem pageCount_mul (v : ℕ) : pageCount (v * pageSize) = v := by
  simp only [pageCount, pageSize]
  omega

theorem pageCount_le_iff {size v : ℕ} : pageCount size ≤ v ↔ size ≤ v * pageSize := by
  simp only [pageCount, pageSize]
  omega

theorem pageCount_mono {size size' : ℕ} (h : size ≤ size') : pageCount size ≤ pageCount size' := by
  rw [pageCount_le_iff]
  exact h.trans (pageCount_le_iff.mp le_rfl)

/-- `dealloc` as the errors of `alloc` use it. -/
theorem Extended.dealloc {oldSize : ℕ} (h : Extended t₀ a₀ S (pageCount oldSize) v t a)
    (hv : v ≤ maxVirtualPage) :
    ∃ size t' a', t.dealloc a (v * pageSize) oldSize = .ok (size, t', a') ∧
      Extended t₀ a₀ S (pageCount oldSize) (pageCount oldSize) t' a' := by
  have hle := h.le
  unfold PageTable.dealloc
  rw [pageCount_mul]
  split
  next hsize =>
    have : v = pageCount oldSize := by
      have := pageCount_mono hsize
      rw [pageCount_mul] at this
      omega
    exact ⟨_, t, a, rfl, this ▸ h⟩
  · split
    · obtain ⟨t', a', heq, h'⟩ := h.undo hv
      rw [heq]
      exact ⟨_, t', a', rfl, h'⟩
    · have : v = pageCount oldSize := by omega
      exact ⟨_, t, a, rfl, this ▸ h⟩

theorem trapframePage_lt : trapframePage < maxVirtualPage := by decide

theorem allocPages_spec {oldSize : ℕ} {permissions : PagePermissions}
    (hp : permissions ≠ .none) (hS : S trapframePage) (hold : pageCount oldSize ≤ trapframePage)
    (h : Extended t₀ a₀ S (pageCount oldSize) v t a) :
    ∃ done t' a', allocPages oldSize permissions t a v n = .ok (done, t', a') ∧
      Extended t₀ a₀ S (pageCount oldSize) (if done then v + n else pageCount oldSize) t' a' := by
  induction n generalizing t a v with
  | zero => exact ⟨true, t, a, rfl, h⟩
  | succ n ih =>
    have hv := h.le_trapframe hS hold
    have hmax := trapframePage_lt
    rw [allocPages]
    obtain ⟨hnone, hpages⟩ | ⟨page, hsome, hpages⟩ := a.allocPage_cases
    · rw [show a.allocPage = (none, a.allocPage.2) from Prod.ext hnone rfl]
      obtain ⟨size, t', a', heq, h'⟩ := (h.allocator hpages).dealloc (by omega)
      simp only [heq]
      exact ⟨false, t', a', rfl, h'⟩
    · rw [show a.allocPage = (some page, a.allocPage.2) from Prod.ext hsome rfl]
      simp only [if_neg (show ¬ maxVirtualPage ≤ v by omega)]
      have hmap := h.map (by omega) hpages hp true
      generalize t.map a.allocPage.2 v page permissions true = r at hmap ⊢
      obtain ⟨result, t', a'⟩ := r
      obtain ⟨hok, hext, -⟩ | ⟨hfail, hext⟩ := hmap
      · simp only at hok hext
        subst hok
        obtain ⟨done, t'', a'', heq, h''⟩ := ih hext
        exact ⟨done, t'', a'', heq, by rwa [add_right_comm, add_assoc] at h''⟩
      · simp only at hfail hext
        obtain ⟨size, t'', a'', heq, h''⟩ := hext.dealloc (by omega)
        cases result with
        | ok => exact absurd rfl hfail
        | outOfMemory => exact ⟨false, t'', a'', by simp only [heq], h''⟩
        | alreadyMappedPage => exact ⟨false, t'', a'', by simp only [heq], h''⟩

/-- `alloc` grows the table to the size it returns, or leaves it as it was. -/
theorem alloc_spec {oldSize : ℕ} (newSize : ℕ) {permissions : PagePermissions} (h : t.Mapped S)
    (a : Allocator) (hp : permissions ≠ .none) (hS : S trapframePage)
    (hold : pageCount oldSize ≤ trapframePage) :
    ∃ r t' a', t.alloc a oldSize newSize permissions = .ok (r, t', a') ∧
      Extended t a S (pageCount oldSize) (pageCount (r.getD oldSize)) t' a' := by
  unfold PageTable.alloc
  split
  · exact ⟨some oldSize, t, a, rfl, h.extended a _⟩
  next hle =>
    have hcount := pageCount_mono (Nat.not_lt.mp hle)
    obtain ⟨done, t', a', heq, h'⟩ := allocPages_spec (n := pageCount newSize - pageCount oldSize)
      hp hS hold (h.extended a _)
    rw [heq]
    refine ⟨_, t', a', rfl, ?_⟩
    cases done
    · exact h'
    · simpa [Nat.add_sub_of_le hcount] using h'

theorem copyPages_spec {oldTable : PageTable}
    (ho : ∀ w < v + n, ∃ pte, oldTable.lookup w = some (some pte) ∧ pte.isBranch = false)
    (hS : S trapframePage) (h : Extended t₀ a₀ S 0 v t a) :
    ∃ done t' a', copyPages oldTable t a v n = .ok (done, t', a') ∧
      Extended t₀ a₀ S 0 (if done then v + n else 0) t' a' := by
  induction n generalizing t a v with
  | zero => exact ⟨true, t, a, rfl, h⟩
  | succ n ih =>
    have hv := h.le_trapframe hS (Nat.zero_le _)
    have hmax := trapframePage_lt
    obtain ⟨pte, hlookup, hbranch⟩ := ho v (by omega)
    have hp : pte.permissions ≠ .none := by simpa [PageTableEntry.isBranch] using hbranch
    rw [copyPages, if_neg (show ¬ maxVirtualPage ≤ v by omega), hlookup]
    simp only
    obtain ⟨hnone, hpages⟩ | ⟨page, hsome, hpages⟩ := a.allocPage_cases
    · rw [show a.allocPage = (none, a.allocPage.2) from Prod.ext hnone rfl]
      obtain ⟨t', a', heq, h'⟩ := (h.allocator hpages).undo (by omega)
      rw [Nat.sub_zero] at heq
      simp only [heq]
      exact ⟨false, t', a', rfl, h'⟩
    · rw [show a.allocPage = (some page, a.allocPage.2) from Prod.ext hsome rfl]
      simp only
      have hmap := h.map (by omega) hpages hp pte.user
      generalize t.map a.allocPage.2 v page pte.permissions pte.user = r at hmap ⊢
      obtain ⟨result, t', a'⟩ := r
      obtain ⟨hok, hext, -⟩ | ⟨hfail, hext⟩ := hmap
      · simp only at hok hext
        subst hok
        obtain ⟨done, t'', a'', heq, h''⟩ := ih (fun w hw => ho w (by omega)) hext
        exact ⟨done, t'', a'', heq, by rwa [add_right_comm, add_assoc] at h''⟩
      · simp only at hfail hext
        obtain ⟨t'', a'', heq, h''⟩ := hext.undo (by omega)
        rw [Nat.sub_zero] at heq
        cases result with
        | ok => exact absurd rfl hfail
        | outOfMemory => exact ⟨false, t'', a'', by simp only [heq], h''⟩
        | alreadyMappedPage => exact ⟨false, t'', a'', by simp only [heq], h''⟩

/-- `copyPageTable` copies all pages, or leaves the new table without any. -/
theorem copyPageTable_spec {oldTable : PageTable} {size : ℕ}
    (ho : ∀ w < pageCount size, ∃ pte, oldTable.lookup w = some (some pte) ∧ pte.isBranch = false)
    (h : t.Mapped S) (hS : S trapframePage) (a : Allocator) :
    ∃ done t' a', copyPageTable oldTable t a size = .ok (done, t', a') ∧
      Extended t a S 0 (if done then pageCount size else 0) t' a' := by
  have hcopy := copyPages_spec (n := pageCount size) (v := 0) (by simpa using ho) hS
    (h.extended a 0)
  simpa [copyPageTable] using hcopy

end PageTable

/-! ## Freeing a table -/

section FreeWalk
variable {ε : Type} {child : ε → Allocator → Except Panic Allocator} {f : ε → Multiset Page}
  {n : Node ε}

theorem Node.freeEntries_spec (l : List Index) (a : Allocator)
    (h : ∀ i e, n.entries i = some e → ∀ a, ∃ a', child e a = .ok a' ∧
      a'.pages = f e + a.pages) :
    ∃ a', l.foldlM (n.freeEntry child) a = .ok a' ∧
      a'.pages = (l.map (fun i => (n.entries i).elim 0 f)).sum + a.pages := by
  induction l generalizing a with
  | nil => exact ⟨a, rfl, by simp⟩
  | cons i l ih =>
    have hone : ∃ a', n.freeEntry child a i = .ok a' ∧
        a'.pages = (n.entries i).elim 0 f + a.pages := by
      unfold Node.freeEntry
      cases hi : n.entries i with
      | none => exact ⟨a, rfl, by simp⟩
      | some e => exact h i e hi a
    obtain ⟨a₁, h₁, hpages⟩ := hone
    obtain ⟨a₂, h₂, hpages'⟩ := ih a₁
    refine ⟨a₂, ?_, ?_⟩
    · rw [List.foldlM_cons, h₁]
      exact h₂
    · rw [hpages', hpages, List.map_cons, List.sum_cons]
      ac_rfl

/-- A page-table page is freed after all tables below it. -/
theorem Node.freeWalk_spec (a : Allocator)
    (h : ∀ i e, n.entries i = some e → ∀ a, ∃ a', child e a = .ok a' ∧
      a'.pages = f e + a.pages) :
    ∃ a', n.freeWalk child a = .ok a' ∧ a'.pages = n.pagesBelow f + a.pages := by
  have hall := Node.freeEntries_spec (List.finRange 512) a h
  unfold Node.freeWalk
  rw [Node.pagesBelow, Fin.sum_univ_def]
  generalize List.finRange 512 = l at hall ⊢
  obtain ⟨a', heq, hpages⟩ := hall
  rw [heq]
  exact ⟨a'.freePage n.page, rfl, by rw [Allocator.freePage_pages, hpages, add_assoc]⟩

/-- Freeing ends well only where it ends well for every entry. -/
theorem Node.freeEntries_ok {l : List Index} {a a' : Allocator}
    (h : l.foldlM (n.freeEntry child) a = .ok a') :
    ∀ i ∈ l, ∀ e, n.entries i = some e → ∃ a₁ a₂, child e a₁ = .ok a₂ := by
  induction l generalizing a with
  | nil => exact fun i hi => absurd hi (List.not_mem_nil)
  | cons j l ih =>
    intro i hi e he
    rw [List.foldlM_cons] at h
    cases hj : n.freeEntry child a j with
    | error p =>
      rw [hj] at h
      exact absurd h nofun
    | ok a₁ =>
      rw [hj] at h
      obtain hij | hil := List.mem_cons.mp hi
      · rw [Node.freeEntry, ← hij, he] at hj
        exact ⟨a, a₁, hj⟩
      · exact ih h i hil e he

theorem Node.freeWalk_ok {a a' : Allocator} (h : n.freeWalk child a = .ok a') {i : Index} {e : ε}
    (he : n.entries i = some e) : ∃ a₁ a₂, child e a₁ = .ok a₂ := by
  have hall : ∀ a', (List.finRange 512).foldlM (n.freeEntry child) a = .ok a' →
      ∃ a₁ a₂, child e a₁ = .ok a₂ :=
    fun _ h => Node.freeEntries_ok h i (List.mem_finRange i) e he
  unfold Node.freeWalk at h
  generalize (List.finRange 512).foldlM (n.freeEntry child) a = r at h hall
  cases r with
  | error p => exact absurd h nofun
  | ok a₁ => exact hall a₁ rfl

end FreeWalk

namespace PageTable
variable {t t' t₀ : PageTable} {a a' a₀ : Allocator} {S : ℕ → Prop} {v v₀ n : ℕ}

/-- `freeWalk` of a table that maps nothing. -/
theorem freeWalk_spec (h : t.Mapped (fun _ => False)) (a : Allocator) :
    ∃ a', t.freeWalk a = .ok a' ∧ a'.pages = t.pages + a.pages := by
  refine Node.freeWalk_spec a (fun i b hb a => ?_)
  refine Node.freeWalk_spec a (fun j l hl a => ?_)
  refine Node.freeWalk_spec a (fun k pte hpte a => ?_)
  have hi : i.val < 256 := by
    by_contra hi
    rw [h.upper i (by omega)] at hb
    cases hb
  obtain ⟨v, hv, rfl, rfl, rfl⟩ := exists_pageIndex i j k hi
  have hleaf : t.leaf v = some pte := by simp [leaf, lookup, hb, hl, hpte]
  rw [h.leaf_none hv id] at hleaf
  cases hleaf

/-- `free` of a table that maps its user pages and no other. -/
theorem free_spec (size : ℕ) (h : t.Mapped (fun w => w < pageCount size))
    (hle : pageCount size ≤ maxVirtualPage) (a : Allocator) :
    ∃ a', t.free a size = .ok a' ∧
      a'.pages = t.pages + t.pagesFrom 0 (pageCount size) + a.pages := by
  unfold free
  split
  next p hp =>
    split at hp
    · obtain ⟨t', a', heq, -⟩ := unmap_spec true h (a := a) (v := 0) (n := pageCount size)
        (fun w _ hw => by omega) (by omega)
      rw [heq] at hp
      exact absurd hp nofun
    · exact absurd hp nofun
  next t₁ a₁ h₁ =>
    split at h₁
    next hpos =>
      obtain ⟨t', a', heq, hmapped, hpages, hapages, -⟩ :=
        unmap_spec true h (a := a) (v := 0) (n := pageCount size) (fun w _ hw => by omega) (by omega)
      rw [heq] at h₁
      obtain ⟨rfl, rfl⟩ := Prod.mk.inj (Except.ok.inj h₁)
      obtain ⟨a'', heq', hpages'⟩ :=
        freeWalk_spec (hmapped.congr (fun w _ => iff_of_false id (by omega))) a'
      refine ⟨a'', heq', ?_⟩
      rw [hpages', hpages, hapages, if_pos rfl, add_assoc]
    next hzero =>
      obtain ⟨rfl, rfl⟩ := Prod.mk.inj (Except.ok.inj h₁)
      have hcount : pageCount size = 0 := by
        have : size = 0 := by omega
        rw [this]
        rfl
      obtain ⟨a'', heq', hpages'⟩ :=
        freeWalk_spec (h.congr (fun w _ => iff_of_false id (by rw [hcount]; omega))) a
      exact ⟨a'', heq', by rw [hpages', hcount, pagesFrom, add_zero]⟩

/-- A user page table with its pages: what `freePageTable` is called on. -/
def userPages (size : ℕ) (w : ℕ) : Prop :=
  w < pageCount size ∨ w = trampolinePage ∨ w = trapframePage

theorem freePageTable_spec {size : ℕ} (h : t.Mapped (userPages size))
    (hle : pageCount size ≤ trapframePage) (a : Allocator) :
    ∃ a', t.freePageTable a size = .ok a' ∧
      a'.pages = t.pages + t.pagesFrom 0 (pageCount size) + a.pages := by
  have htramp : trampolinePage + 1 = maxVirtualPage := by decide
  have htrap : trapframePage + 1 = trampolinePage := by decide
  obtain ⟨t₁, a₁, h₁, hmapped₁, hpages₁, ha₁, hleaf₁⟩ :=
    unmap_spec false h (a := a) (v := trampolinePage) (n := 1)
      (fun w hw hw' => .inr (.inl (by omega))) (by omega)
  obtain ⟨t₂, a₂, h₂, hmapped₂, hpages₂, ha₂, hleaf₂⟩ :=
    unmap_spec false hmapped₁ (a := a₁) (v := trapframePage) (n := 1)
      (fun w hw hw' => ⟨.inr (.inr (by omega)), by omega⟩) (by omega)
  have hmapped : t₂.Mapped (fun w => w < pageCount size) := by
    refine hmapped₂.congr (fun w hw => ?_)
    unfold userPages
    omega
  obtain ⟨a', h', hpages'⟩ := free_spec size hmapped (by omega) a₂
  have hfrom : t₂.pagesFrom 0 (pageCount size) = t.pagesFrom 0 (pageCount size) := by
    refine pagesFrom_congr (fun w _ hw => ?_)
    rw [pagesAt, hleaf₂ w (by omega) (by omega), hleaf₁ w (by omega) (by omega), pagesAt]
  refine ⟨a', by simp only [freePageTable, h₁, h₂, h'], ?_⟩
  rw [hpages', hpages₂, hpages₁, hfrom, ha₂, ha₁]
  simp

/-- What `unmap` has found mapped when it returns. -/
theorem unmap_ok {doFree : Bool} (h : t.unmap doFree a v n = .ok (t', a')) :
    (∀ w, v ≤ w → w < v + n → w < maxVirtualPage ∧ (t.leaf w).isSome ∧ t'.leaf w = none) ∧
      ∀ w < maxVirtualPage, ¬ (v ≤ w ∧ w < v + n) → t'.leaf w = t.leaf w := by
  induction n generalizing t a v with
  | zero =>
    obtain ⟨rfl, rfl⟩ := Prod.mk.inj (Except.ok.inj h)
    exact ⟨fun w hw hw' => absurd hw' (by omega), fun _ _ _ => rfl⟩
  | succ n ih =>
    rw [unmap] at h
    split at h
    · exact absurd h nofun
    next hv =>
      split at h
      · exact absurd h nofun
      · exact absurd h nofun
      next pte hlookup =>
        split at h
        · exact absurd h nofun
        · have hl : (t.lookup v).isSome := by rw [hlookup]; rfl
          have hleaf : t.leaf v = some pte := by rw [leaf, hlookup]; rfl
          have hset := fun w hw => leaf_setEntry t none (Nat.not_le.mp hv) (w := w) hw hl
          obtain ⟨hrange, hother⟩ := ih h
          refine ⟨fun w hw hw' => ?_, fun w hw hnot => ?_⟩
          · by_cases hwv : w = v
            · subst hwv
              rw [hother w (by omega) (by omega), hset w (by omega), if_pos rfl, hleaf]
              exact ⟨by omega, rfl, rfl⟩
            · obtain ⟨hmax, hsome, hnone⟩ := hrange w (by omega) (by omega)
              rw [hset w hmax, if_neg hwv] at hsome
              exact ⟨hmax, hsome, hnone⟩
          · rw [hother w hw (by omega), hset w hw, if_neg (by omega)]

theorem freeWalk_ok (h : t.freeWalk a = .ok a') (v : ℕ) : t.leaf v = none := by
  cases hb : t.entries (pageIndex v .root) with
  | none => simp [leaf, lookup, hb]
  | some b =>
    obtain ⟨a₁, a₂, h₁⟩ := Node.freeWalk_ok h hb
    cases hl : b.entries (pageIndex v .branch) with
    | none => simp [leaf, lookup, hb, hl]
    | some l =>
      obtain ⟨a₃, a₄, h₂⟩ := Node.freeWalk_ok h₁ hl
      cases hpte : l.entries (pageIndex v .leaf) with
      | none => simp [leaf, lookup, hb, hl, hpte]
      | some pte =>
        obtain ⟨a₅, a₆, h₃⟩ := Node.freeWalk_ok h₂ hpte
        cases h₃

/-- `freePageTable` returns only where exactly the user pages, the trampoline and
the trapframe are mapped. -/
theorem freePageTable_ok {size : ℕ} (h : t.freePageTable a size = .ok a') (hv : v < maxVirtualPage) :
    (t.leaf v).isSome ↔ userPages size v := by
  unfold freePageTable at h
  split at h
  · exact absurd h nofun
  next t₁ a₁ h₁ =>
    split at h
    · exact absurd h nofun
    next t₂ a₂ h₂ =>
      obtain ⟨htramp, hother₁⟩ := unmap_ok h₁
      obtain ⟨htrap, hother₂⟩ := unmap_ok h₂
      have hne : trapframePage + 1 = trampolinePage := by decide
      have huser : ∀ w < maxVirtualPage, (t₂.leaf w).isSome ↔ w < pageCount size := by
        intro w hw
        unfold free at h
        split at h
        · exact absurd h nofun
        next t₃ a₃ h₃ =>
          have hnone := freeWalk_ok h w
          split at h₃
          · obtain ⟨hrange, hother₃⟩ := unmap_ok h₃
            by_cases hin : w < pageCount size
            · exact iff_of_true (hrange w (Nat.zero_le w) (by omega)).2.1 hin
            · rw [hother₃ w hw (by omega)] at hnone
              exact iff_of_false (by simp [hnone]) hin
          next hzero =>
            obtain ⟨rfl, rfl⟩ := Prod.mk.inj (Except.ok.inj h₃)
            have hcount : pageCount size = 0 := by
              simp only [pageCount, pageSize]
              omega
            exact iff_of_false (by simp [hnone]) (by omega)
      have hboth := huser v hv
      unfold userPages
      by_cases hvt : v = trampolinePage
      · exact iff_of_true (htramp v (by omega) (by omega)).2.1 (.inr (.inl hvt))
      · rw [← hother₁ v hv (by omega)]
        by_cases hvf : v = trapframePage
        · exact iff_of_true (htrap v (by omega) (by omega)).2.1 (.inr (.inr hvf))
        · rw [← hother₂ v hv (by omega), hboth]
          simp [hvt, hvf]

/-- `clearUser` changes no page. -/
theorem clearUser_spec (h : t.Mapped S) (hv : v < maxVirtualPage) (hS : S v) :
    ∃ t', t.clearUser v = .ok t' ∧ t'.Mapped S ∧ t'.pages = t.pages ∧
      ∀ w < maxVirtualPage, t'.pagesAt w = t.pagesAt w := by
  obtain ⟨pte, hleaf, hlookup, hbranch⟩ := h.lookup hv hS
  have hl : (t.lookup v).isSome := by rw [hlookup]; rfl
  refine ⟨_, by rw [clearUser, if_neg (Nat.not_le.mpr hv), hlookup], ?_, pages_setEntry .., ?_⟩
  · refine (h.setEntry hv hl _ ?_).congr (fun w _ => ?_)
    · rintro pte' hpte'
      obtain rfl := Option.some.inj hpte'
      exact hbranch
    · by_cases hwv : w = v
      · simp [hwv, hS]
      · simp [hwv]
  · intro w hw
    rw [pagesAt, leaf_setEntry t _ hv hw hl]
    split
    next hwv => rw [hwv, pagesAt, hleaf]; rfl
    · rfl

/-- `map` of a page from elsewhere. -/
theorem Mapped.map (h : t.Mapped S) (a : Allocator) (hv : v < maxVirtualPage) (page : Page)
    (permissions : PagePermissions) (hp : permissions ≠ .none) (user : Bool) :
    (t.map a v page permissions user).2.1.pages + (t.map a v page permissions user).2.2.pages =
        t.pages + a.pages ∧
      (t.map a v page permissions user).2.1.Mapped (fun w => S w ∨
        (t.map a v page permissions user).1 = .ok ∧ w = v) := by
  have hspec := t.map_spec a hv page permissions user
  generalize t.map a v page permissions user = r at hspec ⊢
  obtain ⟨result, t', a'⟩ := r
  simp only at hspec ⊢
  obtain ⟨hg, ⟨rfl, hnone, hleaf⟩ | ⟨hfail, hleaf⟩⟩ := hspec
  · refine ⟨hg.pages_eq, fun i hi => hg.upper i hi (h.upper i hi), fun w hw => ?_,
      fun w hw pte hpte => ?_⟩
    · rw [hleaf w hw]
      by_cases hwv : w = v
      · simp [hwv]
      · simp [hwv, h.isSome_iff w hw]
    · rw [hleaf w hw] at hpte
      split at hpte
      · obtain rfl := Option.some.inj hpte
        simpa [PageTableEntry.isBranch] using hp
      · exact h.permissions w hw pte hpte
  · exact ⟨hg.pages_eq, (h.grown hg (fun w _ => hleaf w)).congr (fun w _ => by simp [hfail])⟩

end PageTable

theorem createPagetable_spec (trampoline trapframe : Page) (a : Allocator) :
    ∃ r a', createPagetable trampoline trapframe a = .ok (r, a') ∧
      (r = none → a'.pages = a.pages) ∧ ∀ t, r = some t →
        t.Mapped (PageTable.userPages 0) ∧ t.pages + a'.pages = a.pages := by
  have htramp : trampolinePage + 1 = maxVirtualPage := by decide
  have htrap : trapframePage + 1 = trampolinePage := by decide
  unfold createPagetable
  obtain ⟨hnone, hpages⟩ | ⟨page, hsome, hpages⟩ := a.allocPage_cases
  · rw [show a.allocPage = (none, a.allocPage.2) from Prod.ext hnone rfl]
    exact ⟨none, _, rfl, fun _ => hpages, nofun⟩
  · rw [show a.allocPage = (some page, a.allocPage.2) from Prod.ext hsome rfl]
    have hempty : PageTable.Mapped (.empty page) (fun _ => False) :=
      ⟨fun _ _ => rfl, fun v _ => iff_of_false Bool.false_ne_true id, fun v _ pte hpte =>
        absurd hpte nofun⟩
    have hemptyPages : PageTable.pages (.empty page) = {page} := Node.pagesBelow_empty ..
    have hmax := PageTable.trapframePage_lt
    simp only
    have hmap₁ := hempty.map a.allocPage.2 (v := trampolinePage) (by omega) trampoline .code
      (by decide) false
    generalize PageTable.map (.empty page) a.allocPage.2 trampolinePage trampoline .code false = r₁
      at hmap₁ ⊢
    obtain ⟨result₁, t₁, a₁⟩ := r₁
    obtain ⟨hpages₁, hmapped₁⟩ := hmap₁
    rw [hemptyPages, add_comm _ a.allocPage.2.pages, hpages] at hpages₁
    simp only at hpages₁ hmapped₁
    have hgiveUp : ∀ t : PageTable, ∀ a' : Allocator, t.Mapped (fun _ => False) →
        t.pages + a'.pages = a.pages →
        ∃ a'', t.free a' 0 = .ok a'' ∧ a''.pages = a.pages := by
      intro t a' hmapped hpages
      obtain ⟨a'', heq, hpages'⟩ := PageTable.free_spec 0
        (hmapped.congr (fun w _ => by simp [pageCount, pageSize])) (by decide) a'
      refine ⟨a'', heq, ?_⟩
      rw [hpages', ← hpages, show pageCount 0 = 0 from rfl, PageTable.pagesFrom, add_zero]
    cases result₁ with
    | ok =>
      simp only
      have hmap₂ := hmapped₁.map a₁ (v := trapframePage) (by omega) trapframe .data
        (by decide) false
      generalize t₁.map a₁ trapframePage trapframe .data false = r₂ at hmap₂ ⊢
      obtain ⟨result₂, t₂, a₂⟩ := r₂
      obtain ⟨hpages₂, hmapped₂⟩ := hmap₂
      simp only at hpages₂ hmapped₂
      rw [hpages₁] at hpages₂
      have hfail : result₂ ≠ .ok → ∃ t₃ a₃ a₄, t₂.unmap false a₂ trampolinePage 1 = .ok (t₃, a₃) ∧
          t₃.free a₃ 0 = .ok a₄ ∧ a₄.pages = a.pages := by
        intro hne
        obtain ⟨t₃, a₃, h₃, hmapped₃, hpages₃, ha₃, -⟩ :=
          PageTable.unmap_spec false hmapped₂ (a := a₂) (v := trampolinePage) (n := 1)
            (fun w hw hw' => .inl (.inr ⟨trivial, by omega⟩)) (by omega)
        obtain ⟨a₄, h₄, ha₄⟩ := hgiveUp t₃ a₃
          (hmapped₃.congr (fun w hw => iff_of_false id (by
            rintro ⟨(hfalse | ⟨-, hw'⟩) | ⟨hok, -⟩, hnot⟩
            · exact hfalse
            · omega
            · exact hne hok)))
          (by rw [hpages₃, ha₃]; simpa using hpages₂)
        exact ⟨t₃, a₃, a₄, h₃, h₄, ha₄⟩
      cases result₂ with
      | ok =>
        refine ⟨some t₂, a₂, rfl, nofun, fun t ht => ?_⟩
        obtain rfl := Option.some.inj ht
        refine ⟨hmapped₂.congr (fun w hw => ?_), hpages₂⟩
        have hzero : pageCount 0 = 0 := rfl
        simp only [PageTable.userPages, hzero, true_and, false_or]
        omega
      | outOfMemory =>
        obtain ⟨t₃, a₃, a₄, h₃, h₄, ha₄⟩ := hfail nofun
        exact ⟨none, a₄, by simp only [h₃, h₄], fun _ => ha₄, nofun⟩
      | alreadyMappedPage =>
        obtain ⟨t₃, a₃, a₄, h₃, h₄, ha₄⟩ := hfail nofun
        exact ⟨none, a₄, by simp only [h₃, h₄], fun _ => ha₄, nofun⟩
    | outOfMemory =>
      obtain ⟨a₂, heq, ha₂⟩ := hgiveUp t₁ a₁ (hmapped₁.congr (fun w _ => by simp)) hpages₁
      exact ⟨none, a₂, by simp only [heq], fun _ => ha₂, nofun⟩
    | alreadyMappedPage =>
      obtain ⟨a₂, heq, ha₂⟩ := hgiveUp t₁ a₁ (hmapped₁.congr (fun w _ => by simp)) hpages₁
      exact ⟨none, a₂, by simp only [heq], fun _ => ha₂, nofun⟩

end Zigmaos.Memory
