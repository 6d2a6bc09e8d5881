import Mathlib.Algebra.BigOperators.Group.Finset.Basic
import Mathlib.Algebra.Order.Group.Multiset
import Mathlib.Data.Fintype.Basic
import Zigmaos.FinNumerals

/-!
# The page allocator and three-level page tables

A page-table page is its physical page and its entries, and a table is the tree
of its pages: as long as no page is used twice, writing one page changes no
other. Virtual pages and physical pages are counted from zero. `allocPage` fails
when the free list is empty, and whenever `fails` says so.
-/
namespace Zigmaos.Memory

abbrev Page := ℕ

def pageSize : ℕ := 4096
/-- `max_virtual_address` in pages. -/
def maxVirtualPage : ℕ := 2 ^ 26
/-- The number of pages that `size` bytes from address zero reach into. -/
def pageCount (size : ℕ) : ℕ := (size + (pageSize - 1)) / pageSize

structure Allocator where
  free : List Page
  fails : ℕ → Bool
  requests : ℕ

namespace Allocator

def allocPage (a : Allocator) : Option Page × Allocator :=
  let a' := { a with requests := a.requests + 1 }
  if a.fails a.requests then (none, a')
  else match a.free with
    | [] => (none, a')
    | p :: ps => (some p, { a' with free := ps })

def freePage (a : Allocator) (p : Page) : Allocator := { a with free := p :: a.free }

def freePages (a : Allocator) (ps : List Page) : Allocator := ps.foldl freePage a

/-- The free pages, whatever their order. -/
def pages (a : Allocator) : Multiset Page := a.free

theorem allocPage_cases (a : Allocator) :
    ((a.allocPage).1 = none ∧ (a.allocPage).2.pages = a.pages) ∨
    ∃ p, (a.allocPage).1 = some p ∧ (a.allocPage).2.pages + {p} = a.pages := by
  unfold allocPage
  simp only
  split
  · exact .inl ⟨rfl, rfl⟩
  split
  next h => exact .inl ⟨rfl, rfl⟩
  next p ps h =>
    refine .inr ⟨p, rfl, ?_⟩
    simp only [pages, h]
    rw [add_comm]
    rfl

@[simp] theorem freePage_pages (a : Allocator) (p : Page) : (a.freePage p).pages = {p} + a.pages :=
  rfl

theorem freePages_pages (a : Allocator) (ps : List Page) :
    (a.freePages ps).pages = (ps : Multiset Page) + a.pages := by
  induction ps generalizing a with
  | nil => simp [freePages]
  | cons p ps ih =>
    rw [freePages, List.foldl_cons]
    change ((a.freePage p).freePages ps).pages = _
    rw [ih, freePage_pages, ← Multiset.cons_coe, ← Multiset.singleton_add]
    ac_rfl

end Allocator

structure PagePermissions where
  read : Bool
  write : Bool
  execute : Bool
  deriving DecidableEq

def PagePermissions.none : PagePermissions := ⟨false, false, false⟩

/-- A valid entry of the lowest level. -/
structure PageTableEntry where
  permissions : PagePermissions
  user : Bool
  page : Page
  deriving DecidableEq

/-- No permission is set, as in an entry that points to a lower table. -/
def PageTableEntry.isBranch (e : PageTableEntry) : Bool := e.permissions = .none

abbrev Index := Fin 512

/-- A page-table page; `none` are the entries that are not valid. -/
structure Node (ε : Type) where
  page : Page
  entries : Index → Option ε

abbrev LeafTable := Node PageTableEntry
abbrev BranchTable := Node LeafTable
abbrev PageTable := Node BranchTable

inductive Level
  | leaf | branch | root
  deriving DecidableEq

/-- `UserAddress.pageIndex` of an address in the virtual page. -/
def pageIndex (virtualPage : ℕ) : Level → Index
  | .leaf => ⟨virtualPage % 512, Nat.mod_lt _ (by decide)⟩
  | .branch => ⟨virtualPage / 512 % 512, Nat.mod_lt _ (by decide)⟩
  | .root => ⟨virtualPage / 512 / 512 % 512, Nat.mod_lt _ (by decide)⟩

/-- Two virtual pages with the same indices are one. -/
theorem pageIndex_inj {v w : ℕ} (hv : v < maxVirtualPage) (hw : w < maxVirtualPage)
    (h : ∀ l, pageIndex v l = pageIndex w l) : v = w := by
  have h0 := congrArg Fin.val (h .leaf)
  have h1 := congrArg Fin.val (h .branch)
  have h2 := congrArg Fin.val (h .root)
  simp only [pageIndex, maxVirtualPage] at *
  omega

/-- Every place in a table, in the half that addresses reach. -/
theorem exists_pageIndex (i j k : Index) (hi : i.val < 256) :
    ∃ v, v < maxVirtualPage ∧ pageIndex v .root = i ∧ pageIndex v .branch = j ∧
      pageIndex v .leaf = k := by
  refine ⟨(i.val * 512 + j.val) * 512 + k.val, ?_, ?_, ?_, ?_⟩
  · simp only [maxVirtualPage]
    omega
  all_goals
    apply Fin.ext
    simp only [pageIndex]
    omega

namespace Node
variable {ε : Type}

/-- A zeroed page. -/
def empty (p : Page) : Node ε := ⟨p, fun _ => none⟩

def set (n : Node ε) (i : Index) (e : Option ε) : Node ε :=
  { n with entries := Function.update n.entries i e }

@[simp] theorem set_page (n : Node ε) (i : Index) (e : Option ε) : (n.set i e).page = n.page := rfl

@[simp, grind =] theorem set_entries (n : Node ε) (i j : Index) (e : Option ε) :
    (n.set i e).entries j = if j = i then e else n.entries j := by
  simp [set, Function.update_apply]

@[simp] theorem empty_entries (p : Page) (i : Index) : (empty p : Node ε).entries i = none := rfl

/-- The pages that hold a table, given those of the tables that entries point to. -/
def pagesBelow (f : ε → Multiset Page) (n : Node ε) : Multiset Page :=
  {n.page} + ∑ i, (n.entries i).elim 0 f

theorem pagesBelow_set (f : ε → Multiset Page) (n : Node ε) (i : Index) (e : Option ε) :
    (n.set i e).pagesBelow f + (n.entries i).elim 0 f = n.pagesBelow f + e.elim 0 f := by
  have hrest : ∑ j ∈ Finset.univ.erase i, ((n.set i e).entries j).elim 0 f =
      ∑ j ∈ Finset.univ.erase i, (n.entries j).elim 0 f :=
    Finset.sum_congr rfl (fun j hj => by rw [set_entries, if_neg (Finset.ne_of_mem_erase hj)])
  unfold pagesBelow
  rw [← Finset.add_sum_erase _ _ (Finset.mem_univ i),
    ← Finset.add_sum_erase _ (fun j => (n.entries j).elim 0 f) (Finset.mem_univ i), hrest,
    set_entries, if_pos rfl, set_page]
  generalize ∑ j ∈ Finset.univ.erase i, (n.entries j).elim 0 f = rest
  rw [add_comm _ rest, add_comm _ rest, add_assoc, add_assoc, add_assoc, add_assoc,
    add_comm (e.elim 0 f)]

@[simp] theorem pagesBelow_empty (f : ε → Multiset Page) (p : Page) :
    (empty p : Node ε).pagesBelow f = {p} := by
  have hrest : ∑ i, ((empty p : Node ε).entries i).elim 0 f = 0 :=
    Finset.sum_eq_zero (fun _ _ => rfl)
  rw [pagesBelow, hrest, add_zero]
  rfl

end Node

namespace PageTable

/-- The pages that hold the table itself. -/
def pages (t : PageTable) : Multiset Page :=
  t.pagesBelow (Node.pagesBelow (Node.pagesBelow (fun _ => 0)))

/-- `walk` without allocation: `none` where a table on the way is missing, else
the entry, valid or not. -/
def lookup (t : PageTable) (v : ℕ) : Option (Option PageTableEntry) :=
  match t.entries (pageIndex v .root) with
  | none => none
  | some b =>
    match b.entries (pageIndex v .branch) with
    | none => none
    | some l => some (l.entries (pageIndex v .leaf))

/-- What is mapped at a virtual page. -/
def leaf (t : PageTable) (v : ℕ) : Option PageTableEntry := (t.lookup v).join

/-- Assign to the entry that `walk` points to. -/
def setEntry (t : PageTable) (v : ℕ) (e : Option PageTableEntry) : PageTable :=
  match t.entries (pageIndex v .root) with
  | none => t
  | some b =>
    match b.entries (pageIndex v .branch) with
    | none => t
    | some l => t.set (pageIndex v .root)
        (some (b.set (pageIndex v .branch) (some (l.set (pageIndex v .leaf) e))))

/-- One turn of the loop of `walk`: the table an entry points to, allocated
where it is missing. -/
def descend {ε : Type} (e : Option (Node ε)) (a : Allocator) : Option (Node ε) × Allocator :=
  match e with
  | some n => (some n, a)
  | none =>
    match a.allocPage with
    | (some p, a) => (some (.empty p), a)
    | (none, a) => (none, a)

/-- `walk` with allocation; it leaves behind what it has allocated when it fails. -/
def walk (t : PageTable) (v : ℕ) (a : Allocator) : Bool × PageTable × Allocator :=
  match descend (t.entries (pageIndex v .root)) a with
  | (none, a) => (false, t, a)
  | (some b, a) =>
    match descend (b.entries (pageIndex v .branch)) a with
    | (none, a) => (false, t.set (pageIndex v .root) (some b), a)
    | (some l, a) =>
      (true, t.set (pageIndex v .root) (some (b.set (pageIndex v .branch) (some l))), a)

inductive MapResult
  | ok | outOfMemory | alreadyMappedPage
  deriving DecidableEq

/-- `map` of one page. -/
def map (t : PageTable) (a : Allocator) (v : ℕ) (page : Page) (permissions : PagePermissions)
    (user : Bool) : MapResult × PageTable × Allocator :=
  match t.walk v a with
  | (false, t, a) => (.outOfMemory, t, a)
  | (true, t, a) =>
    if (t.leaf v).isSome then (.alreadyMappedPage, t, a)
    else (.ok, t.setEntry v (some ⟨permissions, user, page⟩), a)

/-! ## What is mapped -/

theorem lookup_isSome_of_leaf {t : PageTable} {v : ℕ} (h : (t.leaf v).isSome) :
    t.lookup v = some (t.leaf v) := by
  unfold leaf at *
  cases hl : t.lookup v with
  | none => simp [hl] at h
  | some e => rfl

theorem leaf_setEntry (t : PageTable) {v w : ℕ} (e : Option PageTableEntry)
    (hv : v < maxVirtualPage) (hw : w < maxVirtualPage) (h : (t.lookup v).isSome) :
    (t.setEntry v e).leaf w = if w = v then e else t.leaf w := by
  have hne : w ≠ v → ¬ (pageIndex w .root = pageIndex v .root ∧
      pageIndex w .branch = pageIndex v .branch ∧ pageIndex w .leaf = pageIndex v .leaf) := by
    intro hwv heq
    exact hwv (pageIndex_inj hw hv (fun l => by cases l <;> simp [heq]))
  cases hb : t.entries (pageIndex v .root) with
  | none => simp [lookup, hb] at h
  | some b =>
    cases hl : b.entries (pageIndex v .branch) with
    | none => simp [lookup, hb, hl] at h
    | some l =>
      simp only [leaf, lookup, setEntry, hb, hl]
      by_cases hwv : w = v
      · subst hwv
        simp
      · rw [if_neg hwv]
        have := hne hwv
        by_cases hr : pageIndex w .root = pageIndex v .root
        · by_cases hbr : pageIndex w .branch = pageIndex v .branch
          · have hlf : pageIndex w .leaf ≠ pageIndex v .leaf := fun hlf => this ⟨hr, hbr, hlf⟩
            simp [hr, hbr, hb, hl, hlf]
          · simp [hr, hbr, hb]
        · simp [hr]

theorem pages_setEntry (t : PageTable) (v : ℕ) (e : Option PageTableEntry) :
    (t.setEntry v e).pages = t.pages := by
  unfold setEntry
  split
  · rfl
  next b hb =>
    split
    · rfl
    next l hl =>
      have h₁ := Node.pagesBelow_set (fun _ => 0) l (pageIndex v .leaf) e
      have h₂ := Node.pagesBelow_set (Node.pagesBelow (fun _ => 0)) b (pageIndex v .branch)
        (some (l.set (pageIndex v .leaf) e))
      have h₃ := Node.pagesBelow_set (Node.pagesBelow (Node.pagesBelow (fun _ => 0))) t
        (pageIndex v .root) (some (b.set (pageIndex v .branch) (some (l.set (pageIndex v .leaf) e))))
      have hzero : ∀ o : Option PageTableEntry, o.elim (0 : Multiset Page) (fun _ => 0) = 0 := by
        intro o
        cases o <;> rfl
      rw [hzero, hzero, add_zero, add_zero] at h₁
      rw [hl] at h₂
      rw [hb] at h₃
      simp only [Option.elim_some] at h₂ h₃
      rw [h₁] at h₂
      rw [add_right_cancel h₂] at h₃
      exact add_right_cancel h₃

/-! ## Walking -/

/-- A descent finds the table that is there, or an empty one. -/
theorem descend_some {ε : Type} {e : Option (Node ε)} {a a' : Allocator} {n : Node ε}
    (h : descend e a = (some n, a')) (f : ε → Multiset Page) :
    (∀ i, n.entries i = e.bind (fun m => m.entries i)) ∧
      n.pagesBelow f + a'.pages = e.elim 0 (Node.pagesBelow f) + a.pages := by
  unfold descend at h
  split at h
  next m =>
    simp only [Prod.mk.injEq, Option.some.injEq] at h
    obtain ⟨rfl, rfl⟩ := h
    exact ⟨fun _ => rfl, rfl⟩
  next =>
    obtain ⟨hp, -⟩ | ⟨p, hp, hpages⟩ := a.allocPage_cases
    · grind
    · rw [show a.allocPage = (some p, a.allocPage.2) from Prod.ext hp rfl] at h
      simp only [Prod.mk.injEq, Option.some.injEq] at h
      obtain ⟨rfl, rfl⟩ := h
      refine ⟨fun _ => rfl, ?_⟩
      rw [Node.pagesBelow_empty, Option.elim_none, zero_add, add_comm, hpages]

theorem descend_none {ε : Type} {e : Option (Node ε)} {a a' : Allocator}
    (h : descend e a = (none, a')) : a'.pages = a.pages := by
  unfold descend at h
  split at h
  · simp at h
  · obtain ⟨hp, hpages⟩ | ⟨p, hp, -⟩ := a.allocPage_cases
    · rw [show a.allocPage = (none, a.allocPage.2) from Prod.ext hp rfl] at h
      simp only [Prod.mk.injEq, true_and] at h
      rw [← h, hpages]
    · rw [show a.allocPage = (some p, a.allocPage.2) from Prod.ext hp rfl] at h
      simp at h

/-- What `walk` and `map` do to a table besides the entry that they are about. -/
structure Grown (t : PageTable) (a : Allocator) (t' : PageTable) (a' : Allocator) : Prop where
  pages_eq : t'.pages + a'.pages = t.pages + a.pages
  upper : ∀ i : Index, 256 ≤ i.val → t.entries i = none → t'.entries i = none

theorem pageIndex_root_lt {v : ℕ} (hv : v < maxVirtualPage) : (pageIndex v .root).val < 256 := by
  simp only [pageIndex, maxVirtualPage] at *
  omega

theorem upper_set {t : PageTable} {v : ℕ} (hv : v < maxVirtualPage) (b : Option BranchTable)
    (i : Index) (hi : 256 ≤ i.val) (h : t.entries i = none) :
    (t.set (pageIndex v .root) b).entries i = none := by
  have := pageIndex_root_lt hv
  rw [Node.set_entries, if_neg (fun heq => by rw [heq] at hi; omega), h]

theorem walk_spec (t : PageTable) (a : Allocator) {v : ℕ} (hv : v < maxVirtualPage) :
    Grown t a (t.walk v a).2.1 (t.walk v a).2.2 ∧ (∀ w, (t.walk v a).2.1.leaf w = t.leaf w) ∧
      ((t.walk v a).1 = true → ((t.walk v a).2.1.lookup v).isSome) := by
  unfold walk
  split
  next a₁ h₁ =>
    exact ⟨⟨by rw [descend_none h₁], fun _ _ h => h⟩, fun _ => rfl, nofun⟩
  next b a₁ h₁ =>
    obtain ⟨hb, hbpages⟩ := descend_some h₁ (Node.pagesBelow (fun _ => 0))
    split
    next a₂ h₂ =>
      have hset := Node.pagesBelow_set (Node.pagesBelow (Node.pagesBelow (fun _ => 0))) t
        (pageIndex v .root) (some b)
      have ha := descend_none h₂
      refine ⟨⟨?_, upper_set hv _⟩, fun w => ?_, nofun⟩
      · ext x
        have h₁ := congrArg (Multiset.count x) hset
        have h₂ := congrArg (Multiset.count x) hbpages
        simp only [pages, Multiset.count_add, Option.elim_some, ha] at *
        omega
      · unfold leaf lookup
        by_cases hr : pageIndex w .root = pageIndex v .root
        · simp only [hr, Node.set_entries, if_true]
          cases ht : t.entries (pageIndex v .root) <;> simp [hb, ht]
        · simp [hr]
    next l a₂ h₂ =>
      obtain ⟨hl, hlpages⟩ := descend_some h₂ (fun _ => (0 : Multiset Page))
      have hset := Node.pagesBelow_set (Node.pagesBelow (Node.pagesBelow (fun _ => 0))) t
        (pageIndex v .root) (some (b.set (pageIndex v .branch) (some l)))
      have hset' := Node.pagesBelow_set (Node.pagesBelow (fun _ => 0)) b
        (pageIndex v .branch) (some l)
      refine ⟨⟨?_, upper_set hv _⟩, fun w => ?_, fun _ => ?_⟩
      · ext x
        have h₁ := congrArg (Multiset.count x) hset
        have h₂ := congrArg (Multiset.count x) hbpages
        have h₃ := congrArg (Multiset.count x) hset'
        have h₄ := congrArg (Multiset.count x) hlpages
        simp only [pages, Multiset.count_add, Option.elim_some] at *
        omega
      · unfold leaf lookup
        by_cases hr : pageIndex w .root = pageIndex v .root
        · by_cases hbr : pageIndex w .branch = pageIndex v .branch
          · simp only [hr, hbr, Node.set_entries, if_true]
            cases ht : t.entries (pageIndex v .root) with
            | none => simp [hl, hb, ht]
            | some c => cases hc : c.entries (pageIndex v .branch) <;> simp [hl, hb, ht, hc]
          · simp only [hr, hbr, Node.set_entries, if_true, if_false]
            cases ht : t.entries (pageIndex v .root) <;> simp [hb, ht]
        · simp [hr]
      · simp [lookup]

theorem Grown.setEntry {t t' : PageTable} {a a' : Allocator} (h : Grown t a t' a') {v : ℕ}
    (hv : v < maxVirtualPage) (e : Option PageTableEntry) : Grown t a (t'.setEntry v e) a' where
  pages_eq := by rw [pages_setEntry, h.pages_eq]
  upper i hi hne := by
    have hupper := h.upper i hi hne
    unfold PageTable.setEntry
    split
    · exact hupper
    · split
      · exact hupper
      · exact upper_set hv _ i hi hupper

/-- A page that is not mapped gets mapped, or memory runs out on the way. -/
theorem map_spec (t : PageTable) (a : Allocator) {v : ℕ} (hv : v < maxVirtualPage) (page : Page)
    (permissions : PagePermissions) (user : Bool) :
    Grown t a (t.map a v page permissions user).2.1 (t.map a v page permissions user).2.2 ∧
      (((t.map a v page permissions user).1 = .ok ∧ t.leaf v = none ∧
          ∀ w < maxVirtualPage, (t.map a v page permissions user).2.1.leaf w =
            if w = v then some ⟨permissions, user, page⟩ else t.leaf w) ∨
        ((t.map a v page permissions user).1 ≠ .ok ∧
          ∀ w, (t.map a v page permissions user).2.1.leaf w = t.leaf w)) := by
  obtain ⟨hgrown, hleaf, hlookup⟩ := t.walk_spec a hv
  unfold map
  split
  next t' a' h =>
    rw [h] at hgrown hleaf
    exact ⟨hgrown, .inr ⟨nofun, hleaf⟩⟩
  next t' a' h =>
    rw [h] at hgrown hleaf hlookup
    simp only at hgrown hleaf hlookup
    split
    next hsome => exact ⟨hgrown, .inr ⟨nofun, hleaf⟩⟩
    next hnone =>
      refine ⟨hgrown.setEntry hv _, .inl ⟨rfl, ?_, fun w hw => ?_⟩⟩
      · rw [← hleaf v]
        simpa using hnone
      · rw [leaf_setEntry _ _ hv hw (hlookup trivial), hleaf]

end PageTable

end Zigmaos.Memory
