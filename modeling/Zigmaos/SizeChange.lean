import Zigmaos.PageContents
import Zigmaos.ProcessMemoryInvariant

/-!
# Changing the size of a process

`changeProcessSize` and `sys_sbrk`, with the bytes of the pages. A number that
leaves the 64 bits of its type is a fault.
-/
namespace Zigmaos.SizeChange
open Memory ProcessMemory
open Memory.PageTable (userPages Extended)
open ProcessMemory.Process (tablePages)

inductive Fault
  | overflow
  | panic (p : ProcessMemory.Panic)
  deriving DecidableEq

/-- The flag says whether it succeeds. -/
def changeProcessSize (p : Process) (sizeDiff : ℤ) (m : Frames) :
    Except Fault (Bool × Process × Frames) :=
  match p.pageTable with
  | none => .error (.panic .noPageTable)
  | some t =>
    let oldSize := p.size
    let absSizeDiff := sizeDiff.natAbs
    let trapframeVa := trapframePage * pageSize
    if 0 < sizeDiff then
      if trapframeVa ≤ oldSize ∨ trapframeVa - oldSize < absSizeDiff then .ok (false, p, m)
      -- `alloc` counts up to a page past the new size.
      else if 2 ^ 64 ≤ oldSize + absSizeDiff + pageSize then .error .overflow
      else
        match Frames.alloc t m oldSize (oldSize + absSizeDiff) .data with
        | .error q => .error (.panic (.memory q))
        | .ok (none, t, m) => .ok (false, { p with pageTable := some t }, m)
        | .ok (some size, t, m) => .ok (true, { p with pageTable := some t, size := size }, m)
    else if sizeDiff < 0 then
      -- `dealloc` rounds up the old size.
      if oldSize < absSizeDiff ∨ 2 ^ 64 ≤ oldSize + pageSize then .error .overflow
      else
        match Frames.dealloc t m oldSize (oldSize - absSizeDiff) with
        | .error q => .error (.panic (.memory q))
        | .ok (size, t, m) => .ok (true, { p with pageTable := some t, size := size }, m)
    else .ok (true, p, m)

/-- `@bitCast` of a register to `i64`. -/
def bitCast (n : ℕ) : ℤ := if n < 2 ^ 63 then n else n - 2 ^ 64

def errorVal : ℕ := 2 ^ 64 - 1

/-- `sys_sbrk`, with register `a0`. -/
def sysSbrk (p : Process) (a0 : ℕ) (m : Frames) : Except Fault (ℕ × Process × Frames) :=
  let oldSize := p.size
  match changeProcessSize p (bitCast a0) m with
  | .error f => .error f
  | .ok (false, p, m) => .ok (errorVal, p, m)
  | .ok (true, p, m) => .ok (oldSize, p, m)

/-- Where nothing overflows, this is the call of `ProcessMemory` with the bytes. -/
theorem changeProcessSize_forget {p p' : Process} {sizeDiff : ℤ} {m m' : Frames} {done : Bool}
    (h : changeProcessSize p sizeDiff m = .ok (done, p', m')) :
    p.changeProcessSize sizeDiff m.allocator = .ok (p', m'.allocator) := by
  unfold changeProcessSize at h
  unfold Process.changeProcessSize
  cases ht : p.pageTable with
  | none =>
    simp only [ht] at h
    cases h
  | some t =>
    simp only [ht] at h ⊢
    split at h
    next hpos =>
      rw [if_pos hpos]
      split at h
      next hfull =>
        cases h
        rw [if_pos hfull]
      next hfits =>
        rw [if_neg hfits, ← Frames.alloc_forget]
        split at h
        · cases h
        · cases halloc : Frames.alloc t m p.size (p.size + sizeDiff.natAbs) .data with
          | error q =>
            simp only [halloc] at h
            cases h
          | ok r =>
            obtain ⟨_ | size, t₁, m₁⟩ := r
            · simp only [halloc] at h
              cases h
              rfl
            · simp only [halloc] at h
              cases h
              rfl
    next hpos =>
      rw [if_neg hpos]
      split at h
      next hneg =>
        rw [if_pos hneg]
        split at h
        · cases h
        next hfits =>
          rw [Process.sub64, if_pos (by omega), ← Frames.dealloc_forget]
          cases hdealloc : Frames.dealloc t m p.size (p.size - sizeDiff.natAbs) with
          | error q =>
            simp only [hdealloc] at h
            cases h
          | ok r =>
            obtain ⟨size, t₁, m₁⟩ := r
            simp only [hdealloc] at h
            cases h
            rfl
      next hneg =>
        cases h
        rw [if_neg hneg]

/-! ## The pages of the process -/

/-- The pages of the user are those of the size, and no page is used twice. -/
structure Valid (p : Process) (m : Frames) : Prop where
  pageTable : p.pageTable.isSome
  table : TableOk p.pageTable p.size
  nodup : (tablePages p.pageTable p.size + m.allocator.pages).Nodup

theorem mem_pagesFrom {t : PageTable} {v n w : ℕ} {pte : PageTableEntry} (hv : v ≤ w)
    (hw : w < v + n) (hpte : t.leaf w = some pte) : pte.page ∈ t.pagesFrom v n := by
  induction n generalizing v with
  | zero => exact absurd hw (by omega)
  | succ n ih =>
    rw [PageTable.pagesFrom, Multiset.mem_add]
    by_cases hwv : w = v
    · left
      rw [PageTable.pagesAt, ← hwv, hpte]
      exact Multiset.mem_singleton_self _
    · exact .inr (ih (by omega) (by omega))

section Tables
variable {t : PageTable} {S : Multiset Page} {n v w : ℕ} {a : Allocator} {pte q : PageTableEntry}

theorem page_not_free (h : (S + t.pagesFrom 0 n + a.pages).Nodup) (hw : w < n)
    (hpte : t.leaf w = some pte) : pte.page ∉ a.free := by
  intro hfree
  have hmem : pte.page ∈ t.pagesFrom 0 n := mem_pagesFrom (Nat.zero_le w) (by omega) hpte
  exact Multiset.disjoint_left.mp (Multiset.nodup_add.mp h).2.2
    (Multiset.mem_add.mpr (.inr hmem)) hfree

theorem page_ne (h : (S + t.pagesFrom 0 n + a.pages).Nodup) (hvw : v < w) (hw : w < n)
    (hpte : t.leaf v = some pte) (hq : t.leaf w = some q) : q.page ≠ pte.page := by
  intro heq
  have hpages := (Multiset.nodup_add.mp (Multiset.nodup_add.mp h).1).2.1
  obtain ⟨k, rfl⟩ : ∃ k, n = v + 1 + k := ⟨n - (v + 1), by omega⟩
  rw [PageTable.pagesFrom_add] at hpages
  have hbelow : pte.page ∈ t.pagesFrom 0 (v + 1) := mem_pagesFrom (Nat.zero_le v) (by omega) hpte
  have habove : q.page ∈ t.pagesFrom (0 + (v + 1)) k := mem_pagesFrom (by omega) (by omega) hq
  rw [heq] at habove
  exact Multiset.disjoint_left.mp (Multiset.nodup_add.mp hpages).2.2 hbelow habove

end Tables

section
variable {p : Process} {m : Frames} {t : PageTable} {v w : ℕ} {pte q : PageTableEntry}

theorem Valid.page_not_free (h : Valid p m) (ht : p.pageTable = some t) (hw : w < pageCount p.size)
    (hpte : t.leaf w = some pte) : pte.page ∉ m.allocator.free := by
  obtain ⟨S, hS⟩ : ∃ S, S = t.pages := ⟨_, rfl⟩
  obtain ⟨n, hn⟩ : ∃ n, n = pageCount p.size := ⟨_, rfl⟩
  have hnodup := h.nodup
  rw [ht, Process.tablePages_some, ← hS, ← hn] at hnodup
  exact SizeChange.page_not_free hnodup (by omega) hpte

theorem Valid.page_ne (h : Valid p m) (ht : p.pageTable = some t) (hvw : v < w)
    (hw : w < pageCount p.size) (hpte : t.leaf v = some pte) (hq : t.leaf w = some q) :
    q.page ≠ pte.page := by
  obtain ⟨S, hS⟩ : ∃ S, S = t.pages := ⟨_, rfl⟩
  obtain ⟨n, hn⟩ : ∃ n, n = pageCount p.size := ⟨_, rfl⟩
  have hnodup := h.nodup
  rw [ht, Process.tablePages_some, ← hS, ← hn] at hnodup
  exact SizeChange.page_ne hnodup hvw (by omega) hpte hq

end

/-- The pages below `v` are mapped as before, and have the same bytes. -/
def Preserved (v : ℕ) (p p' : Process) (m m' : Frames) : Prop :=
  ∀ t t', p.pageTable = some t → p'.pageTable = some t' → ∀ w < v,
    t'.leaf w = t.leaf w ∧ ∀ pte, t.leaf w = some pte →
      ∀ a, a / pageSize = pte.page → m'.memory a = m.memory a

/-- The pages from `v` on, below `w`, are there to read and to write, and zero. -/
def ZeroPages (v w : ℕ) (p : Process) (m : Frames) : Prop :=
  ∀ t, p.pageTable = some t → ∀ u, v ≤ u → u < w → ∃ page,
    t.leaf u = some ⟨.data, true, page⟩ ∧ ∀ a, a / pageSize = page → m.memory a = 0

/-- Nothing but page tables has become of what a call has taken from the free list. -/
def Kept (p p' : Process) (m m' : Frames) : Prop :=
  tablePages p'.pageTable p'.size + m'.allocator.pages =
    tablePages p.pageTable p.size + m.allocator.pages

/-- A failed call has changed no page of the user. -/
structure Failed (p p' : Process) (m m' : Frames) : Prop where
  size : p'.size = p.size
  valid : Valid p' m'
  mapped : ∀ t t', p.pageTable = some t → p'.pageTable = some t' → ∀ w < maxVirtualPage,
    t'.leaf w = t.leaf w
  preserved : Preserved (pageCount p.size) p p' m m'
  kept : Kept p p' m m'

structure Resized (p p' : Process) (sizeDiff : ℤ) (m m' : Frames) : Prop where
  size : (p'.size : ℤ) = p.size + sizeDiff
  valid : Valid p' m'
  preserved : Preserved (min (pageCount p.size) (pageCount p'.size)) p p' m m'
  zero : ZeroPages (pageCount p.size) (pageCount p'.size) p' m'
  kept : Kept p p' m m'

theorem Valid.of_kept {p p' : Process} {m m' : Frames} (h : Valid p m)
    (hp : p'.pageTable.isSome) (htable : TableOk p'.pageTable p'.size) (hk : Kept p p' m m') :
    Valid p' m' where
  pageTable := hp
  table := htable
  nodup := by
    rw [hk]
    exact h.nodup

/-- `dealloc` of the user pages from a new size on. -/
theorem dealloc_user {t : PageTable} {oldSize newSize : ℕ} (h : TableOk (some t) oldSize)
    (hlt : newSize < oldSize) (m : Frames) :
    ∃ t' m', Frames.dealloc t m oldSize newSize = .ok (newSize, t', m') ∧
      TableOk (some t') newSize ∧
      tablePages (some t') newSize + m'.allocator.pages =
        tablePages (some t) oldSize + m.allocator.pages ∧
      ∀ w < pageCount newSize, t'.leaf w = t.leaf w := by
  have hnone : ∀ w, ¬ (fun _ : ℕ => False) w := fun _ => id
  obtain ⟨size, t', a', hforget, hok, hpages⟩ :=
    Process.dealloc_beside ((tableOkBeside_iff hnone).mpr h) m.allocator newSize
  have hmax := PageTable.trapframePage_lt
  have hle := (h t rfl).2
  have hmono := PageTable.pageCount_mono hlt.le
  have hresult : size = newSize ∧ ∀ w < pageCount newSize, t'.leaf w = t.leaf w := by
    have hdealloc := hforget
    unfold PageTable.dealloc at hdealloc
    rw [if_neg (by omega)] at hdealloc
    split at hdealloc
    · split at hdealloc
      · cases hdealloc
      next t₁ a₁ hunmap =>
        cases hdealloc
        exact ⟨rfl, fun w hw => (PageTable.unmap_ok hunmap).2 w (by omega) (by omega)⟩
    · cases hdealloc
      exact ⟨rfl, fun _ _ => rfl⟩
  obtain ⟨rfl, hleaf⟩ := hresult
  rw [← Frames.dealloc_forget] at hforget
  obtain ⟨m', heq, rfl⟩ := Frames.exists_of_forget hforget
  exact ⟨t', m', heq, (tableOkBeside_iff hnone).mp hok, hpages, hleaf⟩

section Calls
variable {p : Process} {m : Frames} {sizeDiff : ℤ}

theorem Failed.refl (h : Valid p m) : Failed p p m m where
  size := rfl
  valid := h
  mapped t t' ht ht' w _ := by rw [Option.some.inj (ht.symm.trans ht')]
  preserved t t' ht ht' w _ := by
    rw [Option.some.inj (ht.symm.trans ht')]
    exact ⟨rfl, fun _ _ _ _ => rfl⟩
  kept := rfl

theorem Resized.refl (h : Valid p m) : Resized p p 0 m m where
  size := (add_zero _).symm
  valid := h
  preserved t t' ht ht' w _ := by
    rw [Option.some.inj (ht.symm.trans ht')]
    exact ⟨rfl, fun _ _ _ _ => rfl⟩
  zero _ _ u hu hlt := absurd hlt (by omega)
  kept := rfl

/-- The process asks for more. -/
theorem grow_spec (h : Valid p m) (hpos : 0 < sizeDiff) :
    ∃ done p' m', changeProcessSize p sizeDiff m = .ok (done, p', m') ∧
      (done = false → Failed p p' m m') ∧ (done = true → Resized p p' sizeDiff m m') := by
  obtain ⟨t, ht⟩ := Option.isSome_iff_exists.mp h.pageTable
  have htable := h.table
  rw [ht] at htable
  obtain ⟨hmapped, hle⟩ := htable t rfl
  unfold changeProcessSize
  simp only [ht, if_pos hpos]
  split
  · exact ⟨false, p, m, rfl, fun _ => Failed.refl h, by simp⟩
  next hfits =>
    have hbound : p.size + sizeDiff.natAbs + pageSize < 2 ^ 64 := by
      simp only [trapframePage, maxVirtualPage, pageSize] at *
      omega
    rw [if_neg (by omega)]
    obtain ⟨r, t', m', heq, hext, hsize, houtside, hnew⟩ := Frames.alloc_spec
      (p.size + sizeDiff.natAbs) hmapped m (show PagePermissions.data ≠ .none by decide)
      (Process.userPages_trapframe _) hle
    obtain ⟨htable', hpages⟩ := Process.extended_user p.size (r.getD p.size) hext hle
    have hmax := PageTable.trapframePage_lt
    have hgrown := hext.le
    have hbytes : ∀ w < pageCount p.size, t'.leaf w = t.leaf w ∧ ∀ pte, t.leaf w = some pte →
        ∀ a, a / pageSize = pte.page → m'.memory a = m.memory a := by
      intro w hw
      refine ⟨hext.leaf_eq w (by omega) (by omega), fun pte hpte a ha => houtside a ?_⟩
      rw [ha]
      exact h.page_not_free ht hw hpte
    rw [heq]
    cases r with
    | none =>
      refine ⟨false, _, m', rfl, fun _ => ?_, by simp⟩
      have hkept : Kept p { p with pageTable := some t' } m m' := by
        rw [Kept, ht]
        exact hpages
      refine ⟨rfl, h.of_kept rfl htable' hkept, ?_, ?_, hkept⟩
      · intro u u' hu hu' w hw
        rw [ht] at hu
        cases hu
        cases hu'
        exact hext.leaf_eq w hw (by rw [Option.getD_none]; omega)
      · intro u u' hu hu' w hw
        rw [ht] at hu
        cases hu
        cases hu'
        exact hbytes w hw
    | some size =>
      obtain rfl : size = p.size + sizeDiff.natAbs := by
        have hmaximum := hsize size rfl
        omega
      refine ⟨true, _, m', rfl, by simp, fun _ => ?_⟩
      have hkept : Kept p { p with pageTable := some t', size := p.size + sizeDiff.natAbs } m m' := by
        rw [Kept, ht]
        exact hpages
      refine ⟨?_, h.of_kept rfl htable' hkept, ?_, ?_, hkept⟩
      · simp only [Nat.cast_add]
        omega
      · intro u u' hu hu' w hw
        rw [ht] at hu
        cases hu
        cases hu'
        exact hbytes w (by omega)
      · intro u hu w hw hlt
        cases hu
        simp only [Option.getD_some] at hgrown
        have hlt : w < pageCount (p.size + sizeDiff.natAbs) := hlt
        exact (hnew (by omega) rfl).fresh w hw (by omega)

/-- The process gives some of it back. -/
theorem shrink_spec (h : Valid p m) (hneg : sizeDiff < 0) (hsize : sizeDiff.natAbs ≤ p.size) :
    ∃ p' m', changeProcessSize p sizeDiff m = .ok (true, p', m') ∧ Resized p p' sizeDiff m m' := by
  obtain ⟨t, ht⟩ := Option.isSome_iff_exists.mp h.pageTable
  have htable := h.table
  rw [ht] at htable
  obtain ⟨hmapped, hle⟩ := htable t rfl
  have hbound : p.size + pageSize < 2 ^ 64 := by
    rw [PageTable.pageCount_le_iff] at hle
    simp only [trapframePage, maxVirtualPage, pageSize] at *
    omega
  unfold changeProcessSize
  simp only [ht, if_neg (show ¬ 0 < sizeDiff by omega), if_pos hneg]
  rw [if_neg (by omega)]
  obtain ⟨t', m', heq, htable', hpages, hleaf⟩ :=
    dealloc_user htable (show p.size - sizeDiff.natAbs < p.size by omega) m
  rw [heq]
  have hkept : Kept p { p with pageTable := some t', size := p.size - sizeDiff.natAbs } m m' := by
    rw [Kept, ht]
    exact hpages
  have hmax := PageTable.trapframePage_lt
  have hmono := PageTable.pageCount_mono (show p.size - sizeDiff.natAbs ≤ p.size by omega)
  refine ⟨_, m', rfl, ?_, h.of_kept rfl htable' hkept, ?_, ?_, hkept⟩
  · simp only
    omega
  · intro u u' hu hu' w hw
    rw [ht] at hu
    cases hu
    cases hu'
    simp only [lt_inf_iff] at hw
    refine ⟨hleaf w hw.2, fun pte hpte a ha => Frames.dealloc_outside heq (by omega) ?_⟩
    intro v hv hlt q hq
    rw [ha]
    exact h.page_ne ht (by omega) hlt hpte hq
  · intro u hu w hw hlt
    simp only at hlt
    omega

theorem changeProcessSize_spec (h : Valid p m) (hsize : sizeDiff < 0 → sizeDiff.natAbs ≤ p.size) :
    ∃ done p' m', changeProcessSize p sizeDiff m = .ok (done, p', m') ∧
      (done = false → Failed p p' m m') ∧ (done = true → Resized p p' sizeDiff m m') := by
  obtain hneg | rfl | hpos := Int.lt_trichotomy sizeDiff 0
  · obtain ⟨p', m', heq, hresized⟩ := shrink_spec h hneg (hsize hneg)
    exact ⟨true, p', m', heq, nofun, fun _ => hresized⟩
  · obtain ⟨t, ht⟩ := Option.isSome_iff_exists.mp h.pageTable
    refine ⟨true, p, m, ?_, nofun, fun _ => Resized.refl h⟩
    unfold changeProcessSize
    simp [ht]
  · exact grow_spec h hpos

end Calls

/-- For every number that is not below the negated size: `changeProcessSize` overflows nothing,
and either fails and leaves the user pages and the size as they are, or succeeds with the
new size, its pages, their old bytes and zeroes; `sys_sbrk` returns the old size
exactly when it succeeds. -/
theorem sbrk_exact {p : Process} {m : Frames} {sizeDiff : ℤ} (h : Valid p m)
    (hsize : sizeDiff < 0 → sizeDiff.natAbs ≤ p.size) :
    ∃ done p' m', changeProcessSize p sizeDiff m = .ok (done, p', m') ∧
      (done = false → Failed p p' m m') ∧ (done = true → Resized p p' sizeDiff m m') ∧
      p.size < errorVal ∧ ∀ a0, bitCast a0 = sizeDiff →
        sysSbrk p a0 m = .ok (if done then p.size else errorVal, p', m') := by
  obtain ⟨done, p', m', heq, hfailed, hresized⟩ := changeProcessSize_spec h hsize
  refine ⟨done, p', m', heq, hfailed, hresized, ?_, fun a0 ha0 => ?_⟩
  · obtain ⟨t, ht⟩ := Option.isSome_iff_exists.mp h.pageTable
    have htable := h.table
    rw [ht] at htable
    have hle := (htable t rfl).2
    rw [PageTable.pageCount_le_iff] at hle
    simp only [trapframePage, maxVirtualPage, pageSize, errorVal] at *
    omega
  · rw [sysSbrk, ha0, heq]
    cases done <;> rfl

/-! ## A process without user pages -/

/-- What is free before and after `createPagetable`. -/
def bootAllocator : Allocator := ⟨[1, 2, 3], fun _ => false, 0⟩

def bareTable : PageTable :=
  match createPagetable 100 101 bootAllocator with
  | .ok (some t, _) => t
  | _ => .empty 0

def bareProcess : Process := ⟨.runnable, some 101, some bareTable, 0, none⟩

/-- Two pages are left, where one page of the user takes three. -/
def twoFrames : Frames := ⟨⟨[4, 5], fun _ => false, 0⟩, fun _ => 0⟩

theorem bareTable_eq : createPagetable 100 101 bootAllocator =
    .ok (some bareTable, ⟨[], fun _ => false, 3⟩) := rfl

theorem bareProcess_valid : Valid bareProcess twoFrames := by
  obtain ⟨r, a, heq, -, hsome⟩ := createPagetable_spec 100 101 bootAllocator
  rw [bareTable_eq] at heq
  cases heq
  obtain ⟨hmapped, hpages⟩ := hsome bareTable rfl
  have htable : tablePages (some bareTable) 0 = {1, 2, 3} := by
    have hzero : bareTable.pagesFrom 0 (pageCount 0) = 0 := rfl
    rw [Process.tablePages_some, hzero, add_zero]
    exact (add_zero _).symm.trans hpages
  refine ⟨rfl, fun u hu => ?_, ?_⟩
  · cases hu
    exact ⟨hmapped, by decide⟩
  · change (tablePages (some bareTable) 0 + twoFrames.allocator.pages).Nodup
    rw [htable]
    decide

/-- One page is asked for. The page itself is given back, and the page table that has been
allocated on the way to it is not. -/
theorem failed_growth_keeps_table : Valid bareProcess twoFrames ∧
    ∃ p' m', changeProcessSize bareProcess 4096 twoFrames = .ok (false, p', m') ∧
      twoFrames.allocator.free = [4, 5] ∧ m'.allocator.free = [4] := by
  have hrun : (changeProcessSize bareProcess 4096 twoFrames).map
      (fun r => (r.1, r.2.2.allocator.free)) = .ok (false, [4]) := rfl
  cases hresult : changeProcessSize bareProcess 4096 twoFrames with
  | error f =>
    rw [hresult] at hrun
    cases hrun
  | ok r =>
    rw [hresult] at hrun
    obtain ⟨hdone, hfree⟩ := Prod.mk.inj (Except.ok.inj hrun)
    exact ⟨bareProcess_valid, r.2.1, r.2.2, by rw [← hdone], rfl, hfree⟩

theorem sbrk_exact_bare : ∃ done p' m',
    changeProcessSize bareProcess 4096 twoFrames = .ok (done, p', m') ∧
      (done = false → Failed bareProcess p' twoFrames m') := by
  obtain ⟨done, p', m', heq, hfailed, -⟩ := sbrk_exact bareProcess_valid
    (show (4096 : ℤ) < 0 → _ from fun h => absurd h (by decide))
  exact ⟨done, p', m', heq, hfailed⟩

end Zigmaos.SizeChange
