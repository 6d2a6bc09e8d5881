import Zigmaos.ProcessMemoryInvariant

/-!
# Windows beside user pages

What the calls of processes on their memory do to the pages that their tables map
beside the user pages: nothing, and a table that is freed maps no such page.
-/
namespace Zigmaos.ProcessMemory
open Memory
open Memory.PageTable (userPages)

variable {W : ℕ → Prop} {p p' : Process} {a a' : Allocator} {t t' : PageTable}

namespace Process

/-! ## Calls of `exec` -/

theorem endExec_table (p : Process) (e : Exec) (a : Allocator) :
    (p.endExec e a).1.pageTable = p.pageTable := rfl

theorem failExec_table {e : Exec} (h : p.failExec e a = .ok (p', a')) :
    p'.pageTable = p.pageTable := by
  unfold failExec at h
  split at h
  · rw [← (Prod.mk.inj (Except.ok.inj h)).1]
  next t ht =>
    cases hfree : t.freePageTable a e.programSize with
    | error q =>
      rw [hfree] at h
      cases h
    | ok a₁ =>
      rw [hfree] at h
      have hend : p.endExec e a₁ = (p', a') := Except.ok.inj h
      rw [← endExec_table p e a₁, hend]

theorem execArgument_table {e : Exec} (h : p.execArgument e a = .ok (p', a')) :
    p'.pageTable = p.pageTable := by
  unfold execArgument at h
  split at h
  · exact failExec_table h
  · rw [← (Prod.mk.inj (Except.ok.inj h)).1]

theorem execCreate_table {e : Exec} {trampoline : Page}
    (h : p.execCreate e trampoline a = .ok (p', a')) : p'.pageTable = p.pageTable := by
  unfold execCreate at h
  split at h
  · cases h
  next trapFrame _ =>
    cases hcreate : createPagetable trampoline trapFrame a with
    | error q =>
      rw [hcreate] at h
      cases h
    | ok r =>
      obtain ⟨_ | t, a₁⟩ := r
      · rw [hcreate] at h
        exact failExec_table h
      · rw [hcreate] at h
        rw [← (Prod.mk.inj (Except.ok.inj h)).1]

theorem execSegment_table {e : Exec} {newSize : ℕ} {permissions : PagePermissions}
    (h : p.execSegment e newSize permissions a = .ok (p', a')) : p'.pageTable = p.pageTable := by
  unfold execSegment at h
  split at h
  · cases h
  next t _ =>
    cases halloc : t.alloc a e.programSize newSize permissions with
    | error q =>
      rw [halloc] at h
      cases h
    | ok r =>
      obtain ⟨_ | size, t₁, a₁⟩ := r
      · simp only [halloc, liftPanic_ok, ok_bind, Option.isSome_none, Bool.false_eq_true,
          if_false] at h
        exact failExec_table h
      · simp only [halloc, liftPanic_ok, ok_bind, Option.isSome_some, if_true] at h
        rw [← (Prod.mk.inj (Except.ok.inj h)).1]

theorem execStack_table {e : Exec} (h : p.execStack e a = .ok (p', a')) :
    p'.pageTable = p.pageTable := by
  unfold execStack at h
  split at h
  · cases h
  next t _ =>
    simp only at h
    cases halloc : t.alloc a (pageCount e.programSize * pageSize)
        (pageCount e.programSize * pageSize + 2 * pageSize) .data with
    | error q =>
      rw [halloc] at h
      cases h
    | ok r =>
      obtain ⟨_ | size, t₁, a₁⟩ := r
      · simp only [halloc, liftPanic_ok, ok_bind] at h
        exact failExec_table h
      · rw [halloc] at h
        cases hclear : t₁.clearUser (size / pageSize - 2) with
        | error q =>
          simp only [liftPanic_ok, ok_bind, hclear] at h
          cases h
        | ok t₂ =>
          simp only [liftPanic_ok, ok_bind, hclear] at h
          rw [← (Prod.mk.inj (Except.ok.inj h)).1]

/-! ## Tables that are freed -/

/-- A table that `freePageTable` gives back has nothing beside its user pages. -/
theorem OkBeside.bare (h : p.OkBeside W) (hW : ∀ w, W w → w < maxVirtualPage)
    (ht : p.pageTable = some t) (hfree : t.freePageTable a p.size = .ok a') (w : ℕ) : ¬ W w := by
  intro hw
  obtain ⟨hmapped, -, hbeside⟩ := h.table t ht
  have hsome := (hmapped.isSome_iff w (hW w hw)).mpr (.inr hw)
  exact hbeside w hw ((PageTable.freePageTable_ok hfree (hW w hw)).mp hsome)

theorem free_bare (h : p.OkBeside W) (hW : ∀ w, W w → w < maxVirtualPage)
    (hused : p.state ≠ .unused) (hs : p.free a = .ok (p', a')) (w : ℕ) : ¬ W w := by
  obtain ⟨t, ht⟩ := Option.isSome_iff_exists.mp (h.pageTable hused)
  unfold free at hs
  simp only [ht] at hs
  cases hfree : t.freePageTable (p.trapFrame.elim a a.freePage) p.size with
  | error q =>
    rw [hfree] at hs
    cases hs
  | ok a₁ => exact h.bare hW ht hfree w

theorem execCommit_bare (h : p.OkBeside W) (hW : ∀ w, W w → w < maxVirtualPage) {e : Exec}
    (hs : p.execCommit e a = .ok (p', a')) (w : ℕ) : ¬ W w := by
  unfold execCommit at hs
  split at hs
  next old t hold _ =>
    simp only at hs
    cases hfree : old.freePageTable a p.size with
    | error q =>
      rw [hfree] at hs
      cases hs
    | ok a₁ => exact h.bare hW hold hfree w
  · cases hs

/-- `dealloc` leaves alone what lies above the old size. -/
theorem dealloc_leaf {oldSize newSize size : ℕ}
    (h : t.dealloc a oldSize newSize = .ok (size, t', a')) {w : ℕ} (hw : w < maxVirtualPage)
    (habove : ¬ w < pageCount oldSize) : t'.leaf w = t.leaf w := by
  unfold PageTable.dealloc at h
  split at h
  · rw [(Prod.mk.inj (Prod.mk.inj (Except.ok.inj h)).2).1]
  · split at h
    · split at h
      · cases h
      next t₁ a₁ hunmap =>
        obtain ⟨-, hother⟩ := PageTable.unmap_ok hunmap
        rw [← (Prod.mk.inj (Prod.mk.inj (Except.ok.inj h)).2).1]
        exact hother w hw (by omega)
    · rw [(Prod.mk.inj (Prod.mk.inj (Except.ok.inj h)).2).1]

theorem changeProcessSize_leaf (h : p.OkBeside W) {sizeDiff : ℤ}
    (hs : p.changeProcessSize sizeDiff a = .ok (p', a')) {w : ℕ} (hW : W w)
    (hw : w < maxVirtualPage) (ht' : p'.pageTable = some t') :
    ∃ t, p.pageTable = some t ∧ t'.leaf w = t.leaf w := by
  unfold changeProcessSize at hs
  split at hs
  · cases hs
  next t ht =>
    refine ⟨t, ht, ?_⟩
    obtain ⟨hmapped, hle, hbeside⟩ := h.table t ht
    have hnot := hbeside w hW
    have hdata : PagePermissions.data ≠ .none := by decide
    have hsame : .ok (p, a) = (.ok (p', a') : Result) → t'.leaf w = t.leaf w := by
      intro heq
      rw [← (Prod.mk.inj (Except.ok.inj heq)).1, ht] at ht'
      rw [Option.some.inj ht']
    simp only at hs
    split at hs
    · split at hs
      · exact hsame hs
      · obtain ⟨r, t₁, a₁, heq, hext⟩ := PageTable.alloc_spec (p.size + sizeDiff.natAbs)
          hmapped a hdata (.inl (userPages_trapframe p.size)) hle
        rw [heq] at hs
        rw [← (Prod.mk.inj (Except.ok.inj hs)).1] at ht'
        obtain rfl := Option.some.inj ht'
        exact hext.leaf_eq w hw fun hin => hext.fresh w hin.1 hin.2 (.inr hW)
    · split at hs
      · cases hdealloc : t.dealloc a p.size (sub64 p.size sizeDiff.natAbs) with
        | error q =>
          rw [hdealloc] at hs
          cases hs
        | ok r =>
          obtain ⟨size, t₁, a₁⟩ := r
          rw [hdealloc] at hs
          rw [← (Prod.mk.inj (Except.ok.inj hs)).1] at ht'
          obtain rfl := Option.some.inj ht'
          exact dealloc_leaf hdealloc hw fun hlt => hnot (.inl hlt)
      · exact hsame hs

end Process

/-! ## Steps -/

variable {m m' : State} {event : Event} {W : Slot → ℕ → Prop} {i j : Slot} {w : ℕ}

theorem apply_ok {r : Result} (h : m.apply i r = .ok m') : ∃ p a, r = .ok (p, a) ∧
    m' = { m with allocator := a, processes := Function.update m.processes i p } := by
  unfold State.apply at h
  split at h
  · cases h
  next p a => exact ⟨p, a, rfl, (Except.ok.inj h).symm⟩

/-- A process whose table a step has freed maps nothing beside its user pages. -/
theorem frees_bare (h : InvariantBeside W m) (hW : ∀ w, W i w → w < maxVirtualPage)
    (hs : step m event = .ok m') (hfrees : event.Frees i) : ¬ W i w := by
  unfold step at hs
  cases event with
  | execCommit k =>
    obtain rfl : k = i := hfrees
    simp only at hs
    split at hs
    · split at hs
      · obtain ⟨p, a, hr, -⟩ := apply_ok hs
        exact Process.execCommit_bare (h k) hW hr w
      · cases hs
    · cases hs
  | reap k =>
    obtain rfl : k = i := hfrees
    simp only at hs
    split at hs
    next hzombie =>
      obtain ⟨p, a, hr, -⟩ := apply_ok hs
      exact Process.free_bare (h k) hW (by simp [hzombie]) hr w
    · cases hs
  | _ => exact hfrees.elim

/-- A step leaves alone the pages beside the user pages. -/
theorem step_leaf (h : InvariantBeside W m) (hW : W j w) (hw : w < maxVirtualPage)
    (hfrees : ¬ event.Frees j) (hs : step m event = .ok m') {t' : PageTable}
    (ht' : (m'.processes j).pageTable = some t') :
    ∃ t, (m.processes j).pageTable = some t ∧ t'.leaf w = t.leaf w := by
  have hused : (m.processes j).state ≠ .unused := fun hu => ((h j).unused hu).2 w hW
  have happly : ∀ (k : Slot) (r : Result), m.apply k r = .ok m' →
      (k = j → ∀ p a, r = .ok (p, a) → p.pageTable = some t' →
        ∃ t, (m.processes j).pageTable = some t ∧ t'.leaf w = t.leaf w) →
      ∃ t, (m.processes j).pageTable = some t ∧ t'.leaf w = t.leaf w := by
    intro k r hr hk
    obtain ⟨p, a, heq, rfl⟩ := apply_ok hr
    by_cases hj : j = k
    · subst hj
      simp only [Function.update_self] at ht'
      exact hk rfl p a heq ht'
    · simp only [Function.update_of_ne hj] at ht'
      exact ⟨t', ht', rfl⟩
  have hsame : ∀ p : Process, p.pageTable = (m.processes j).pageTable → p.pageTable = some t' →
      ∃ t, (m.processes j).pageTable = some t ∧ t'.leaf w = t.leaf w :=
    fun p heq ht => ⟨t', heq ▸ ht, rfl⟩
  unfold step at hs
  cases event with
  | initFirstUser k =>
    simp only at hs
    split at hs
    next hg => exact happly k _ hs fun hj => absurd (hj ▸ hg) hused
    · cases hs
  | fork parent child =>
    simp only at hs
    split at hs
    next hg => exact happly child _ hs fun hj => absurd (hj ▸ hg.2) hused
    · cases hs
  | changeProcessSize k sizeDiff =>
    simp only at hs
    split at hs
    · refine happly k _ hs fun hj p a hr hp => ?_
      subst hj
      exact Process.changeProcessSize_leaf (h k) hr hW hw hp
    · cases hs
  | execStart k =>
    simp only at hs
    split at hs
    · refine happly k _ hs fun hj p a hr hp => hsame p ?_ hp
      rw [← (Prod.mk.inj (Except.ok.inj hr)).1, hj]
    · cases hs
  | execArgument k =>
    simp only at hs
    split at hs
    · split at hs
      · exact happly k _ hs fun hj p a hr hp => hsame p (hj ▸ Process.execArgument_table hr) hp
      · cases hs
    · cases hs
  | execCreate k =>
    simp only at hs
    split at hs
    · split at hs
      · exact happly k _ hs fun hj p a hr hp => hsame p (hj ▸ Process.execCreate_table hr) hp
      · cases hs
    · cases hs
  | execSegment k newSize permissions =>
    simp only at hs
    split at hs
    · split at hs
      · exact happly k _ hs fun hj p a hr hp => hsame p (hj ▸ Process.execSegment_table hr) hp
      · cases hs
    · cases hs
  | execStack k =>
    simp only at hs
    split at hs
    · split at hs
      · exact happly k _ hs fun hj p a hr hp => hsame p (hj ▸ Process.execStack_table hr) hp
      · cases hs
    · cases hs
  | execCommit k =>
    simp only at hs
    split at hs
    · split at hs
      · exact happly k _ hs fun hj => absurd hj hfrees
      · cases hs
    · cases hs
  | execFail k =>
    simp only at hs
    split at hs
    · exact happly k _ hs fun hj p a hr hp => hsame p (hj ▸ Process.failExec_table hr) hp
    · cases hs
  | exit k =>
    simp only at hs
    split at hs
    · refine happly k _ hs fun hj p a hr hp => hsame p ?_ hp
      rw [← (Prod.mk.inj (Except.ok.inj hr)).1, hj]
    · cases hs
  | reap k =>
    simp only at hs
    split at hs
    · exact happly k _ hs fun hj => absurd hj hfrees
    · cases hs

end Zigmaos.ProcessMemory
