import Zigmaos.VirtualMemory

/-!
# Page tables as partial functions

The abstract view of a page table is a partial function from virtual pages to
bindings. Where the nodes of the table are apart and no free page is among them,
`map` and `unmap` are updates of this function on a range, and `translateAddress`
reads it.
-/
namespace Zigmaos.VirtualMemory
open Memory

/-! ## Bindings -/

structure Binding where
  page : Page
  permissions : PagePermissions
  user : Bool
  deriving DecidableEq

/-- What is bound at every virtual page. -/
abbrev Bindings := ℕ → Option Binding

/-- Bind `n` pages from `v` on to consecutive physical pages. -/
def Bindings.bindRange (f : Bindings) (v n : ℕ) (page : Page) (permissions : PagePermissions)
    (user : Bool) : Bindings :=
  fun w => if v ≤ w ∧ w < v + n then some ⟨page + (w - v), permissions, user⟩ else f w

def Bindings.unbindRange (f : Bindings) (v n : ℕ) : Bindings :=
  fun w => if v ≤ w ∧ w < v + n then none else f w

/-- The page has a byte of the range. -/
def Covers (virtualAddress size w : ℕ) : Prop :=
  virtualAddress < (w + 1) * pageSize ∧ w * pageSize < virtualAddress + size

/-- How many pages have a byte of the range. -/
def coveredPages (virtualAddress size : ℕ) : ℕ :=
  (virtualAddress + (size - 1)) / pageSize - virtualAddress / pageSize + 1

theorem covers_iff {va size w : ℕ} (hsize : size ≠ 0) : Covers va size w ↔
    va / pageSize ≤ w ∧ w < va / pageSize + coveredPages va size := by
  simp only [Covers, coveredPages, pageSize]
  omega

/-! ## Nodes -/

namespace PageTableEntry

/-- Where `walk` goes on. -/
def child (e : PageTableEntry) : Option Page := if e.valid then some e.ppn else none

def binding (e : PageTableEntry) : Option Binding :=
  if e.valid then some ⟨e.ppn, e.permissions, e.user⟩ else none

@[simp] theorem child_empty : empty.child = none := rfl

@[simp] theorem binding_empty : empty.binding = none := rfl

theorem binding_eq_none {e : PageTableEntry} : e.binding = none ↔ e.valid = false := by
  simp [binding]

theorem fromAddress_page {page : ℕ} (h : page < 2 ^ 44) :
    fromAddress (page * pageSize) = .ok { empty with ppn := page } := by
  have hdiv : page * pageSize / pageSize = page := Nat.mul_div_cancel _ (by decide)
  rw [fromAddress, hdiv, if_pos h]

end PageTableEntry

open PageTableEntry RadixTree

/-- The indices above the leaf. -/
def path (v : ℕ) : List Index := [Memory.pageIndex v .root, Memory.pageIndex v .branch]

theorem pageIndex_eq (va : ℕ) (l : Level) : pageIndex va l = Memory.pageIndex (va / pageSize) l := by
  cases l <;>
  · apply Fin.ext
    simp only [pageIndex, Memory.pageIndex, levelInt, pageSize]
    omega

theorem path_inj {v w : ℕ} (hv : v < maxVirtualPage) (hw : w < maxVirtualPage) :
    path v = path w ∧ Memory.pageIndex v .leaf = Memory.pageIndex w .leaf ↔ v = w := by
  constructor
  · rintro ⟨hp, hl⟩
    simp only [path, List.cons.injEq, and_true] at hp
    refine pageIndex_inj hv hw fun l => ?_
    cases l
    · exact hl
    · exact hp.2
    · exact hp.1
  · rintro rfl
    exact ⟨rfl, rfl⟩

/-- The node at the end of a path, in the page table at `root`. -/
abbrev Machine.node (m : Machine) (root : Page) (is : List Index) : Option Page :=
  follow child m.memory root is

theorem node_concat (m : Machine) (root : Page) (is : List Index) (k : Index) :
    m.node root (is ++ [k]) = (m.node root is).bind (fun p => (m.memory p k).child) :=
  follow_concat root is k

def bindings (root : Page) (m : Machine) : Bindings :=
  fun v => (m.node root (path v)).bind (fun p => (m.memory p (Memory.pageIndex v .leaf)).binding)

/-- Distinct valid entries above the leaves point to distinct nodes, none of which is free. -/
structure Separated (root : Page) (m : Machine) : Prop where
  nodes : RadixTree.Separated child 2 m.memory root
  fresh : ∀ p ∈ m.allocator.free, Fresh child 2 m.memory root p
  inRange : ∀ p ∈ m.allocator.free, m.outOfRange p = false
  nodup : m.allocator.free.Nodup

variable {root : Page} {m m' : Machine}

/-! ## Single assignments -/

theorem bindings_of_node {v : ℕ} {p : Page} (h : m.node root (path v) = some p) :
    bindings root m v = (m.memory p (Memory.pageIndex v .leaf)).binding := by
  rw [bindings, h, Option.bind_some]

theorem node_setEntry (h : Separated root m) {v : ℕ} {p : Page}
    (hp : m.node root (path v) = some p) (k : Index) (e : PageTableEntry) (js : List Index)
    (hjs : js.length ≤ 2) : (m.setEntry ⟨p, k⟩ e).node root js = m.node root js :=
  h.nodes.follow_write hp rfl hjs

theorem Separated.setEntry (h : Separated root m) {v : ℕ} {p : Page}
    (hp : m.node root (path v) = some p) (k : Index) (e : PageTableEntry) :
    Separated root (m.setEntry ⟨p, k⟩ e) where
  nodes := h.nodes.write hp rfl
  fresh q hq js hjs heq := h.fresh q hq js hjs ((node_setEntry h hp k e js hjs).symm.trans heq)
  inRange := h.inRange
  nodup := h.nodup

theorem bindings_setEntry (h : Separated root m) {v w : ℕ} (hv : v < maxVirtualPage)
    (hw : w < maxVirtualPage) {p : Page} (hp : m.node root (path v) = some p)
    (e : PageTableEntry) :
    bindings root (m.setEntry ⟨p, Memory.pageIndex v .leaf⟩ e) w =
      if w = v then e.binding else bindings root m w := by
  unfold bindings
  rw [node_setEntry h hp _ e (path w) le_rfl]
  cases hq : m.node root (path w) with
  | none =>
    rw [if_neg]
    · rfl
    · rintro rfl
      rw [hp] at hq
      cases hq
  | some q =>
    have hqp : q = p ↔ path w = path v := by
      constructor
      · rintro rfl
        exact h.nodes _ _ q le_rfl le_rfl hq hp
      · intro heq
        rw [heq, hp] at hq
        exact (Option.some.inj hq).symm
    simp only [Option.bind_some, Machine.setEntry, write_apply, hqp, path_inj hw hv]
    by_cases hwv : w = v
    · rw [if_pos hwv, if_pos hwv]
    · rw [if_neg hwv, if_neg hwv]

/-- A change of pages that are not nodes. -/
theorem node_congr (h : ∀ p, (∃ is, is.length ≤ 2 ∧ m.node root is = some p) →
    m'.memory p = m.memory p) (js : List Index) (hjs : js.length ≤ 2) :
    m'.node root js = m.node root js := by
  refine follow_congr fun ks j q hks hq => ?_
  have hlen := hks.length_le
  rw [List.length_append] at hlen
  rw [h q ⟨ks, by omega, hq⟩]

theorem bindings_congr (h : ∀ p, (∃ is, is.length ≤ 2 ∧ m.node root is = some p) →
    m'.memory p = m.memory p) : bindings root m' = bindings root m := by
  funext v
  unfold bindings
  rw [node_congr h (path v) le_rfl]
  cases hp : m.node root (path v) with
  | none => rfl
  | some p => rw [Option.bind_some, Option.bind_some, h p ⟨path v, le_rfl, hp⟩]

theorem Separated.congr (h : Separated root m)
    (hmem : ∀ p, (∃ is, is.length ≤ 2 ∧ m.node root is = some p) → m'.memory p = m.memory p)
    (hfresh : ∀ p ∈ m'.allocator.free, Fresh child 2 m.memory root p)
    (hrange : ∀ p ∈ m'.allocator.free, m'.outOfRange p = false)
    (hnodup : m'.allocator.free.Nodup) : Separated root m' where
  nodes is js p his hjs hp hq := by
    exact h.nodes is js p his hjs ((node_congr hmem is his).symm.trans hp)
      ((node_congr hmem js hjs).symm.trans hq)
  fresh p hp is his heq := hfresh p hp is his ((node_congr hmem is his).symm.trans heq)
  inRange := hrange
  nodup := hnodup

theorem freePage_spec (h : Separated root m) {p : Page} (hrange : m.outOfRange p = false)
    (hfresh : Fresh child 2 m.memory root p) (hfree : p ∉ m.allocator.free) :
    ∃ m', m.freePage p = some m' ∧ Separated root m' ∧
      (∀ js : List Index, js.length ≤ 2 → m'.node root js = m.node root js) ∧
      bindings root m' = bindings root m ∧ m'.allocator.free = p :: m.allocator.free ∧
      m'.kernelEndAddress = m.kernelEndAddress := by
  have hmem : ∀ contents q, (∃ is, is.length ≤ 2 ∧ m.node root is = some q) →
      Function.update m.memory p contents q = m.memory q := by
    rintro contents q ⟨is, his, hq⟩
    refine Function.update_of_ne ?_ _ _
    rintro rfl
    exact hfresh is his hq
  rw [Machine.freePage, hrange]
  refine ⟨_, rfl, ?_, ?_, ?_, rfl, rfl⟩
  · refine h.congr (hmem _) (fun q hq => ?_) (fun q hq => ?_) (List.nodup_cons.mpr ⟨hfree, h.nodup⟩)
    · obtain rfl | hq := List.mem_cons.mp hq
      · exact hfresh
      · exact h.fresh q hq
    · obtain rfl | hq := List.mem_cons.mp hq
      · exact hrange
      · exact h.inRange q hq
  · exact node_congr (hmem _)
  · exact bindings_congr (hmem _)

/-! ## walk -/

theorem walkLoop_false (va : ℕ) (levels : List Level) (p : Page) (m : Machine) :
    walkLoop va false levels p m =
      .ok (match follow child m.memory p (levels.map (pageIndex va)) with
        | some q => .ok q
        | none => .error .invalidVirtualAddress, m) := by
  induction levels generalizing p with
  | nil => rfl
  | cons level levels ih =>
    rw [walkLoop, List.map_cons, follow]
    by_cases hvalid : (m.entry ⟨p, pageIndex va level⟩).valid
    · have hchild : (m.memory p (pageIndex va level)).child =
          some (m.entry ⟨p, pageIndex va level⟩).ppn := if_pos hvalid
      rw [if_pos hvalid, hchild, Option.bind_some]
      exact ih _
    · have hchild : (m.memory p (pageIndex va level)).child = none := if_neg hvalid
      rw [if_neg hvalid, hchild]
      rfl

theorem map_pageIndex (va : ℕ) : [Level.root, .branch].map (pageIndex va) = path (va / pageSize) := by
  simp [path, pageIndex_eq]

theorem walk_false {va : ℕ} (hva : va < maxVirtualAddress) : walk root va false m =
    .ok (match m.node root (path (va / pageSize)) with
      | some p => .ok ⟨p, Memory.pageIndex (va / pageSize) .leaf⟩
      | none => .error .invalidVirtualAddress, m) := by
  have hrange : isOutOfRange va = false := by simpa [isOutOfRange] using hva
  rw [walk, hrange, walkLoop_false, map_pageIndex, pageIndex_eq]
  unfold Machine.node
  cases follow child m.memory root (path (va / pageSize)) <;> rfl

/-- The pages of the free list and of the table, and what is bound, after a walk. -/
structure Walked (root : Page) (m m' : Machine) : Prop where
  separated : Separated root m'
  bindings : bindings root m' = bindings root m

theorem Walked.trans {m₁ m₂ m₃ : Machine} (h : Walked root m₁ m₂) (h' : Walked root m₂ m₃) :
    Walked root m₁ m₃ := ⟨h'.separated, h'.bindings.trans h.bindings⟩

/-- `allocPage` hands out the first free page. -/
theorem allocator_allocPage (a : Allocator) :
    ((a.allocPage).1 = none ∧ (a.allocPage).2.free = a.free) ∨
    ∃ p ps, a.free = p :: ps ∧ (a.allocPage).1 = some p ∧ (a.allocPage).2.free = ps := by
  unfold Allocator.allocPage
  simp only
  split
  · exact .inl ⟨rfl, rfl⟩
  split
  next => exact .inl ⟨rfl, rfl⟩
  next p ps h => exact .inr ⟨p, ps, h, rfl, rfl⟩

theorem page_lt {p : ℕ} (h : m.outOfRange p = false) : p < 2 ^ 44 := by
  have hstop : ¬ physicalStopAddress ≤ p * pageSize := by
    rw [Machine.outOfRange, Bool.or_eq_false_iff] at h
    exact of_decide_eq_false h.2
  simp only [physicalStopAddress, pageSize] at hstop
  omega

/-- The new page becomes the node at the end of a path that ended before. -/
theorem grow_spec (h : Separated root m) {is : List Index} {p q : Page} {k : Index}
    {ps : List Page} {a : Allocator} (hfree : m.allocator.free = q :: ps) (ha : a.free = ps)
    (his : is.length < 2) (hp : m.node root is = some p) (hk : (m.memory p k).child = none) :
    let m' : Machine := { m with
      memory := grow m.memory p k q (fun _ => .empty) ⟨true, .none, false, q⟩
      allocator := a }
    Walked root m m' ∧ m'.node root (is ++ [k]) = some q := by
  intro m'
  have hq : Fresh child 2 m.memory root q := h.fresh q (by simp [hfree])
  have hgrows : Grows child 2 m.memory root p is k q (fun _ => .empty) ⟨true, .none, false, q⟩ :=
    ⟨h.nodes, hp, his, hk, hq, fun _ => rfl, rfl⟩
  have hnodup := h.nodup
  rw [hfree, List.nodup_cons] at hnodup
  have hnode : ∀ js : List Index, js.length ≤ 2 →
      m'.node root js = if js = is ++ [k] then some q else m.node root js :=
    fun js hjs => hgrows.follow_grow hjs
  refine ⟨⟨⟨hgrows.separated_grow, ?_, ?_, ?_⟩, ?_⟩, ?_⟩
  · intro r hr js hjs heq
    have hmem : r ∈ ps := by simpa [m', ha] using hr
    have heq' := (hnode js hjs).symm.trans heq
    by_cases hj : js = is ++ [k]
    · rw [if_pos hj] at heq'
      rw [← Option.some.inj heq'] at hmem
      exact hnodup.1 hmem
    · rw [if_neg hj] at heq'
      exact h.fresh r (by simp [hfree, hmem]) js hjs heq'
  · intro r hr
    exact h.inRange r (by simp [hfree, show r ∈ ps by simpa [m', ha] using hr])
  · simpa [m', ha] using hnodup.2
  · funext v
    unfold VirtualMemory.bindings
    rw [hnode (path v) le_rfl]
    by_cases hv : path v = is ++ [k]
    · have hnone : m.node root (path v) = none := by
        rw [hv, node_concat, hp]
        exact hk
      rw [if_pos hv, hnone, Option.bind_some]
      change (grow m.memory p k q (fun _ => PageTableEntry.empty) _ q _).binding = none
      rw [hgrows.grow_new]
      rfl
    · rw [if_neg hv]
      cases hr : m.node root (path v) with
      | none => rfl
      | some r =>
        have hrp : r ≠ p := by
          rintro rfl
          have := h.nodes _ _ r le_rfl (by omega) hr hp
          rw [← this] at his
          simp [path] at his
        have hrq : r ≠ q := by
          rintro rfl
          exact hq _ le_rfl hr
        rw [Option.bind_some, Option.bind_some]
        change (grow m.memory p k q (fun _ => PageTableEntry.empty) _ r _).binding = _
        rw [Grows.grow_of_ne hrp hrq]
  · rw [hnode _ (by simp; omega), if_pos rfl]

theorem walkLoop_true (h : Separated root m) (va : ℕ) (levels : List Level) {is : List Index}
    {p : Page} (hlen : is.length + levels.length ≤ 2) (hp : m.node root is = some p) :
    ∃ r m', walkLoop va true levels p m = .ok (r, m') ∧ Walked root m m' ∧
      ∀ q, r = .ok q → m'.node root (is ++ levels.map (pageIndex va)) = some q := by
  induction levels generalizing is p m with
  | nil =>
    refine ⟨_, m, rfl, ⟨h, rfl⟩, fun q hq => ?_⟩
    rw [List.map_nil, List.append_nil, hp, Except.ok.inj hq]
  | cons level levels ih =>
    rw [List.length_cons] at hlen
    rw [walkLoop, List.map_cons]
    by_cases hvalid : (m.entry ⟨p, pageIndex va level⟩).valid
    · have hnext : m.node root (is ++ [pageIndex va level]) =
          some (m.entry ⟨p, pageIndex va level⟩).ppn := by
        rw [node_concat, hp]
        exact if_pos hvalid
      obtain ⟨r, m', hr, hwalked, hq⟩ := ih h (by simp; omega) hnext
      rw [if_pos hvalid]
      exact ⟨r, m', hr, hwalked, fun q h => by simpa using hq q h⟩
    · have hchild : (m.memory p (pageIndex va level)).child = none := if_neg hvalid
      rw [if_neg hvalid, if_neg (by simp)]
      unfold Machine.allocPage
      obtain ⟨hnone, hfree⟩ | ⟨q, ps, hfree, hsome, hps⟩ := allocator_allocPage m.allocator
      · rw [show m.allocator.allocPage = (none, m.allocator.allocPage.2) from Prod.ext hnone rfl]
        refine ⟨_, _, rfl, ⟨?_, rfl⟩, nofun⟩
        exact h.congr (fun _ _ => rfl) (fun q hq => h.fresh q (hfree ▸ hq))
          (fun q hq => h.inRange q (hfree ▸ hq)) (by rw [hfree]; exact h.nodup)
      · rw [show m.allocator.allocPage = (some q, m.allocator.allocPage.2) from Prod.ext hsome rfl]
        obtain ⟨hwalked, hnext⟩ := grow_spec h hfree hps (by omega) hp hchild
        obtain ⟨r, m', hr, hwalked', hlast⟩ := ih hwalked.separated (by simp; omega) hnext
        have hlt := page_lt (h.inRange q (by simp [hfree]))
        refine ⟨r, m', ?_, hwalked.trans hwalked', fun q' hq' => by simpa using hlast q' hq'⟩
        simp only [fromAddress_page hlt]
        exact hr

theorem walk_true (h : Separated root m) {va : ℕ} (hva : va < maxVirtualAddress) :
    ∃ r m', walk root va true m = .ok (r, m') ∧ Walked root m m' ∧
      ∀ slot, r = .ok slot → ∃ p, m'.node root (path (va / pageSize)) = some p ∧
        slot = ⟨p, Memory.pageIndex (va / pageSize) .leaf⟩ := by
  obtain ⟨r, m', hr, hwalked, hnode⟩ := walkLoop_true h va [.root, .branch]
    (by simp) (show m.node root [] = some root from rfl)
  have hrange : isOutOfRange va = false := by simpa [isOutOfRange] using hva
  rw [List.nil_append, map_pageIndex] at hnode
  rw [walk, hrange, hr]
  refine ⟨_, m', rfl, hwalked, fun slot hslot => ?_⟩
  cases r with
  | error e => cases hslot
  | ok p =>
    obtain rfl := Except.ok.inj hslot
    exact ⟨p, hnode p rfl, by rw [pageIndex_eq]⟩

/-! ## map -/

variable {va pa : ℕ} {permissions : PagePermissions} {addressSpace : AddressSpace}

theorem add_div {va i : ℕ} : (va + i * pageSize) / pageSize = va / pageSize + i := by
  rw [Nat.add_mul_div_right _ _ (by decide)]

theorem bindRange_zero (f : Bindings) (v page : ℕ) (user : Bool) :
    f.bindRange v 0 page permissions user = f := by
  funext w
  rw [Bindings.bindRange, if_neg (by omega)]

/-- The first page, and then the others. -/
theorem bindRange_succ {f g : Bindings} {v n page : ℕ} {user : Bool} {w : ℕ}
    (h : g w = if w = v then some ⟨page, permissions, user⟩ else f w) :
    g.bindRange (v + 1) n (page + 1) permissions user w =
      f.bindRange v (n + 1) page permissions user w := by
  unfold Bindings.bindRange
  rw [h]
  by_cases hwv : w = v
  · subst hwv
    rw [if_neg (by omega), if_pos rfl, if_pos (by omega), Nat.sub_self, Nat.add_zero]
  · rw [if_neg hwv]
    by_cases hw : v + 1 ≤ w ∧ w < v + 1 + n
    · rw [if_pos hw, if_pos (by omega), show page + 1 + (w - (v + 1)) = page + (w - v) by omega]
    · rw [if_neg hw, if_neg (by omega)]

/-- What a `map` of `n` pages from `v` on does: it binds them all, or some of the
first ones until one is bound already or a page for the table is missing. -/
structure MapsPages (root : Page) (m : Machine) (v n page : ℕ) (permissions : PagePermissions)
    (user : Bool) (r : Except MapError Unit) (m' : Machine) (k : ℕ) : Prop where
  separated : Separated root m'
  le : k ≤ n
  inRange : k ≠ 0 → v + k ≤ maxVirtualPage
  unbound : ∀ w, v ≤ w → w < v + k → bindings root m w = none
  bound : ∀ w < maxVirtualPage, bindings root m' w =
    (bindings root m).bindRange v k page permissions user w
  ok : r = .ok () → k = n
  error : r ≠ .ok () → k < n
  already : r = .error .alreadyMappedPage →
    v + k < maxVirtualPage ∧ bindings root m (v + k) ≠ none

theorem ok_bind {α β : Type} (a : α) (f : α → Except Panic β) : (Except.ok a >>= f) = f a := rfl

/-- The walk to page `i` of a range. -/
theorem add_walk (root : Page) (m : Machine) (va i : ℕ) (doAlloc : Bool) :
    (va / pageSize + i < maxVirtualPage ∧ add va (i * pageSize) = .ok (va + i * pageSize) ∧
      va + i * pageSize < maxVirtualAddress) ∨
    (¬ va / pageSize + i < maxVirtualPage ∧
      ∃ q, (add va (i * pageSize) >>= fun x => walk root x doAlloc m) = .error q) := by
  by_cases hrange : va + i * pageSize < maxVirtualAddress
  · refine .inl ⟨?_, ?_, hrange⟩
    · simp only [maxVirtualAddress, maxVirtualPage, pageSize] at *
      omega
    · rw [add, if_pos]
      simp only [maxVirtualAddress] at hrange
      omega
  · refine .inr ⟨?_, ?_⟩
    · simp only [maxVirtualAddress, maxVirtualPage, pageSize] at *
      omega
    · unfold add
      split
      · refine ⟨.walk, ?_⟩
        rw [ok_bind, walk, if_pos]
        simpa [isOutOfRange] using hrange
      · exact ⟨.integerOverflow, rfl⟩

/-- The entry for page `i` of a range. -/
theorem add_fromAddress (pa i : ℕ) :
    (pa / pageSize + i < 2 ^ 44 ∧ (add pa (i * pageSize) >>= fromAddress) =
      .ok { empty with ppn := pa / pageSize + i }) ∨
    (¬ pa / pageSize + i < 2 ^ 44 ∧ ∃ q, (add pa (i * pageSize) >>= fromAddress) = .error q) := by
  unfold add
  split
  next hlt =>
    rw [ok_bind, fromAddress, add_div]
    split
    next h => exact .inl ⟨h, rfl⟩
    next h => exact .inr ⟨h, _, rfl⟩
  next hge =>
    refine .inr ⟨?_, _, rfl⟩
    simp only [pageSize] at *
    omega

/-- Where the addresses fit, the loop of `map` comes to its end. -/
theorem mapPages_spec (h : Separated root m) (va pa : ℕ) (permissions : PagePermissions)
    (addressSpace : AddressSpace) (i n : ℕ) :
    (¬ (va / pageSize + i + n ≤ maxVirtualPage ∧ pa / pageSize + i + n ≤ 2 ^ 44) ∧
      ∃ q, mapPages root va pa permissions addressSpace i n m = .error q) ∨
    ∃ r m' k, mapPages root va pa permissions addressSpace i n m = .ok (r, m') ∧
      MapsPages root m (va / pageSize + i) n (pa / pageSize + i) permissions
        (addressSpace = .user) r m' k := by
  induction n generalizing i m with
  | zero =>
    refine .inr ⟨_, m, 0, rfl, h, le_rfl, nofun, fun _ _ => by omega, fun w _ => ?_, fun _ => rfl,
      nofun, nofun⟩
    rw [bindRange_zero]
  | succ n ih =>
    have hnone : ∀ {e m'}, Walked root m m' →
        (e = .alreadyMappedPage → va / pageSize + i < maxVirtualPage ∧
          bindings root m (va / pageSize + i) ≠ none) →
        MapsPages root m (va / pageSize + i) (n + 1) (pa / pageSize + i) permissions
          (addressSpace = .user) (.error e) m' 0 := by
      intro e m' hwalked halready
      refine ⟨hwalked.separated, by omega, nofun, fun _ _ => by omega, fun w _ => ?_, nofun,
        fun _ => by omega, fun he => halready (Except.error.inj he)⟩
      rw [bindRange_zero, hwalked.bindings]
    rw [mapPages]
    obtain ⟨hv, hadd, hrange⟩ | ⟨hv, q, hq⟩ :=
      add_walk root m va i true
    · obtain ⟨r, m₁, hwalk, hwalked, hslot⟩ := walk_true h hrange
      rw [hadd, ok_bind, hwalk, ok_bind]
      cases r with
      | error e => exact .inr ⟨_, m₁, 0, rfl, hnone hwalked nofun⟩
      | ok slot =>
        obtain ⟨p, hp, rfl⟩ := hslot slot rfl
        rw [add_div] at hp
        simp only [add_div]
        have hold := bindings_of_node hp
        rw [hwalked.bindings] at hold
        by_cases hvalid : (m₁.entry ⟨p, Memory.pageIndex (va / pageSize + i) .leaf⟩).valid
        · rw [if_pos hvalid]
          refine .inr ⟨_, m₁, 0, rfl, hnone hwalked fun _ => ⟨hv, ?_⟩⟩
          rw [hold]
          exact fun hne => absurd ((binding_eq_none.mp hne).symm.trans hvalid) (by decide)
        · rw [if_neg hvalid]
          have hfree : bindings root m (va / pageSize + i) = none := by
            rw [hold]
            exact binding_eq_none.mpr (by simpa [Machine.entry] using hvalid)
          obtain ⟨hpage, hpte⟩ | ⟨hpage, q, hq⟩ := add_fromAddress pa i
          · rw [← bind_assoc, hpte, ok_bind]
            generalize hm₂ : m₁.setEntry _ _ = m₂
            have hsep₂ : Separated root m₂ := hm₂ ▸ hwalked.separated.setEntry hp _ _
            have hbind₂ : ∀ w < maxVirtualPage, bindings root m₂ w = if w = va / pageSize + i
                then some ⟨pa / pageSize + i, permissions, addressSpace = .user⟩
                else bindings root m w := by
              intro w hw
              rw [← hm₂, bindings_setEntry hwalked.separated hv hw hp, hwalked.bindings]
              rfl
            obtain ⟨hne, q, hq⟩ | ⟨r, m', k, hr, hmaps⟩ := ih hsep₂ (i + 1)
            · exact .inl ⟨by omega, q, hq⟩
            · have hlast := hmaps.inRange
              refine .inr ⟨r, m', k + 1, hr, hmaps.separated, ?_, fun _ => by omega,
                fun w hw hlt => ?_, fun w hw => ?_, fun hok => by rw [hmaps.ok hok],
                fun herr => ?_, fun he => ?_⟩
              · have := hmaps.le
                omega
              · by_cases hwv : w = va / pageSize + i
                · rw [hwv, hfree]
                · have hnext := hmaps.unbound w (by omega) (by omega)
                  rwa [hbind₂ w (by omega), if_neg hwv] at hnext
              · rw [hmaps.bound w hw]
                exact bindRange_succ (hbind₂ w hw)
              · have := hmaps.error herr
                omega
              · obtain ⟨hlt, hne⟩ := hmaps.already he
                rw [hbind₂ _ hlt, if_neg (by omega)] at hne
                rw [show va / pageSize + i + (k + 1) = va / pageSize + (i + 1) + k by omega]
                exact ⟨hlt, hne⟩
          · rw [← bind_assoc, hq]
            exact .inl ⟨by omega, q, rfl⟩
    · rw [← bind_assoc, hq]
      exact .inl ⟨by omega, q, rfl⟩

/-! ## unmap -/

theorem unbindRange_succ {f g : Bindings} {v n w : ℕ} (h : g w = if w = v then none else f w) :
    g.unbindRange (v + 1) n w = f.unbindRange v (n + 1) w := by
  unfold Bindings.unbindRange
  rw [h]
  by_cases hwv : w = v
  · rw [if_neg (by omega), if_pos hwv, if_pos (by omega)]
  · rw [if_neg hwv]
    by_cases hw : v + 1 ≤ w ∧ w < v + 1 + n
    · rw [if_pos hw, if_pos (by omega)]
    · rw [if_neg hw, if_neg (by omega)]

/-- A virtual page of a range. -/
def InRange (v n w : ℕ) : Prop := v ≤ w ∧ w < v + n ∧ w < maxVirtualPage

/-- The bindings of a range are the only use of their physical pages. -/
structure Owned (root : Page) (m : Machine) (v n : ℕ) : Prop where
  inRange : ∀ w b, InRange v n w → bindings root m w = some b → m.outOfRange b.page = false
  fresh : ∀ w b, InRange v n w → bindings root m w = some b → Fresh child 2 m.memory root b.page
  notFree : ∀ w b, InRange v n w → bindings root m w = some b → b.page ∉ m.allocator.free
  distinct : ∀ w w' b b', InRange v n w → InRange v n w' → w ≠ w' → bindings root m w = some b →
    bindings root m w' = some b' → b.page ≠ b'.page

theorem Owned.mono {v v' n k : ℕ} (h : Owned root m v n)
    (hk : ∀ w, InRange v' k w → InRange v n w) : Owned root m v' k where
  inRange w b hw := h.inRange w b (hk w hw)
  fresh w b hw := h.fresh w b (hk w hw)
  notFree w b hw := h.notFree w b (hk w hw)
  distinct w w' b b' hw hw' := h.distinct w w' b b' (hk w hw) (hk w' hw')

/-- A page that `unmap` can take away. -/
def Removable (root : Page) (m : Machine) (w : ℕ) : Prop :=
  w < maxVirtualPage ∧ ∃ b, bindings root m w = some b ∧ b.permissions ≠ .none

/-- A page of a range goes, with its physical page or without. -/
structure UnmapsPage (root : Page) (m : Machine) (v : ℕ) (doFree : Bool) (m' : Machine) : Prop where
  separated : Separated root m'
  bound : ∀ w < maxVirtualPage, bindings root m' w = if w = v then none else bindings root m w
  owned : ∀ n, doFree = true → Owned root m v (n + 1) → Owned root m' (v + 1) n

theorem unmapPage_spec (h : Separated root m) {v : ℕ} {doFree : Bool} (hv : v < maxVirtualPage)
    {b : Binding} {p : Page} (hp : m.node root (path v) = some p)
    (hb : bindings root m v = some b) (howned : doFree = true → Owned root m v 1) :
    ∃ m₁, (if doFree then m.freePage b.page else some m) = some m₁ ∧
      UnmapsPage root m v doFree
        (m₁.setEntry ⟨p, Memory.pageIndex v .leaf⟩ .empty) := by
  cases doFree with
  | false =>
    refine ⟨m, rfl, h.setEntry hp _ _, fun w hw => ?_, nofun⟩
    rw [bindings_setEntry h hv hw hp, binding_empty]
  | true =>
    have hown := howned rfl
    have hvin : InRange v 1 v := ⟨le_rfl, by omega, hv⟩
    obtain ⟨m₁, hm₁, hsep, hnode, hbind, hfree, hkernel⟩ := freePage_spec h
      (hown.inRange v b hvin hb) (hown.fresh v b hvin hb) (hown.notFree v b hvin hb)
    have hp₁ : m₁.node root (path v) = some p := by rw [hnode _ le_rfl, hp]
    have hbound : ∀ w < maxVirtualPage,
        bindings root (m₁.setEntry ⟨p, Memory.pageIndex v .leaf⟩ .empty) w =
          if w = v then none else bindings root m w := by
      intro w hw
      rw [bindings_setEntry hsep hv hw hp₁, binding_empty, hbind]
    refine ⟨m₁, hm₁, hsep.setEntry hp₁ _ _, hbound, fun n _ hown => ?_⟩
    have hall : ∀ w, InRange (v + 1) n w → InRange v (n + 1) w := by
      rintro w ⟨hvw, hw, hmax⟩
      exact ⟨by omega, by omega, hmax⟩
    have hold : ∀ w c, InRange (v + 1) n w →
        bindings root (m₁.setEntry ⟨p, Memory.pageIndex v .leaf⟩ .empty) w = some c →
        bindings root m w = some c := by
      rintro w c ⟨hvw, hw, hmax⟩ hc
      rwa [hbound w hmax, if_neg (by omega)] at hc
    refine ⟨fun w c hw hc => ?_, fun w c hw hc js hjs heq => ?_, fun w c hw hc => ?_,
      fun w w' c c' hw hw' hne hc hc' => ?_⟩
    · have := hown.inRange w c (hall w hw) (hold w c hw hc)
      simpa [Machine.outOfRange, Machine.setEntry, hkernel] using this
    · refine hown.fresh w c (hall w hw) (hold w c hw hc) js hjs ?_
      rw [← heq, ← Machine.node, ← Machine.node, node_setEntry hsep hp₁ _ _ js hjs, hnode js hjs]
    · change c.page ∉ m₁.allocator.free
      have hne : v ≠ w := by
        rintro rfl
        exact absurd hw.1 (by omega)
      rw [hfree, List.mem_cons, not_or]
      exact ⟨(hown.distinct v w b c ⟨le_rfl, by omega, hv⟩ (hall w hw) hne hb (hold w c hw hc)).symm,
        hown.notFree w c (hall w hw) (hold w c hw hc)⟩
    · exact hown.distinct w w' c c' (hall w hw) (hall w' hw') hne (hold w c hw hc)
        (hold w' c' hw' hc')

/-- What `unmap` of `n` pages from `v` on does. -/
structure UnmapsPages (root : Page) (m : Machine) (v n : ℕ) (m' : Machine) : Prop where
  separated : Separated root m'
  bound : ∀ w < maxVirtualPage, bindings root m' w = (bindings root m).unbindRange v n w

theorem unmapPages_spec (h : Separated root m) {doFree : Bool} (i n : ℕ)
    (howned : doFree = true → Owned root m (va / pageSize + i) n) :
    (¬ (∀ w, va / pageSize + i ≤ w → w < va / pageSize + i + n → Removable root m w) ∧
      ∃ q, unmapPages root va doFree i n m = .error q) ∨
    (∀ w, va / pageSize + i ≤ w → w < va / pageSize + i + n → Removable root m w) ∧
      ∃ m', unmapPages root va doFree i n m = .ok m' ∧
        UnmapsPages root m (va / pageSize + i) n m' := by
  induction n generalizing i m with
  | zero =>
    refine .inr ⟨fun _ _ => by omega, m, rfl, h, fun w _ => ?_⟩
    rw [Bindings.unbindRange, if_neg (by omega)]
  | succ n ih =>
    have hfirst : ¬ Removable root m (va / pageSize + i) → ¬ (∀ w, va / pageSize + i ≤ w →
        w < va / pageSize + i + (n + 1) → Removable root m w) :=
      fun hne hall => hne (hall _ le_rfl (by omega))
    rw [unmapPages]
    obtain ⟨hv, hadd, hrange⟩ | ⟨hv, q, hq⟩ :=
      add_walk root m va i false
    · rw [hadd, ok_bind, walk_false hrange, ok_bind, add_div]
      cases hp : m.node root (path (va / pageSize + i)) with
      | none =>
        refine .inl ⟨hfirst ?_, _, rfl⟩
        rintro ⟨-, b, hb, -⟩
        rw [bindings, hp] at hb
        cases hb
      | some p =>
        have hold := bindings_of_node hp
        obtain ⟨pte, hpte⟩ : ∃ pte, m.entry ⟨p, Memory.pageIndex (va / pageSize + i) .leaf⟩ = pte :=
          ⟨_, rfl⟩
        rw [show m.memory p (Memory.pageIndex (va / pageSize + i) .leaf) = pte from hpte] at hold
        simp only [hpte]
        by_cases hvalid : pte.valid = false
        · rw [if_pos hvalid]
          refine .inl ⟨hfirst ?_, _, rfl⟩
          rintro ⟨-, b, hb, -⟩
          rw [hold, binding_eq_none.mpr hvalid] at hb
          cases hb
        · have hb : pte.binding = some ⟨pte.ppn, pte.permissions, pte.user⟩ := by
            simpa [binding] using hvalid
          rw [hb] at hold
          rw [if_neg hvalid]
          by_cases hbranch : pte.isBranch
          · rw [if_pos hbranch]
            refine .inl ⟨hfirst ?_, _, rfl⟩
            rintro ⟨-, b, hb, hne⟩
            rw [hold] at hb
            rw [← Option.some.inj hb] at hne
            exact hne (of_decide_eq_true hbranch)
          · obtain ⟨m₁, hm₁, hunmaps⟩ := unmapPage_spec h hv hp hold fun hd =>
              (howned hd).mono fun w hw => ⟨hw.1, by have := hw.2.1; omega, hw.2.2⟩
            rw [if_neg hbranch, hm₁]
            have hremovable : Removable root m (va / pageSize + i) :=
              ⟨hv, _, hold, fun hne => hbranch (decide_eq_true hne)⟩
            have hother : ∀ w, w ≠ va / pageSize + i →
                (Removable root (m₁.setEntry ⟨p, Memory.pageIndex (va / pageSize + i) .leaf⟩ .empty)
                  w ↔ Removable root m w) := by
              intro w hne
              refine and_congr_right fun hw => ?_
              rw [hunmaps.bound w hw, if_neg hne]
            obtain ⟨hne, q, hq⟩ | ⟨hall, m', hm', hunmaps'⟩ := ih hunmaps.separated (i + 1)
              (fun hd => hunmaps.owned n hd (howned hd))
            · refine .inl ⟨fun hall => hne fun w hvw hw => ?_, q, hq⟩
              exact (hother w (by omega)).mpr (hall w (by omega) (by omega))
            · refine .inr ⟨fun w hvw hw => ?_, m', hm', hunmaps'.separated, fun w hw => ?_⟩
              · by_cases hwv : w = va / pageSize + i
                · rw [hwv]
                  exact hremovable
                · exact (hother w hwv).mp (hall w (by omega) (by omega))
              · rw [hunmaps'.bound w hw]
                exact unbindRange_succ (hunmaps.bound w hw)
    · rw [← bind_assoc, hq]
      exact .inl ⟨hfirst fun hr => hv hr.1, q, rfl⟩

end Zigmaos.VirtualMemory
