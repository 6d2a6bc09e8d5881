import Zigmaos.Ringbuf

/-!
# When a failed open leaves nothing behind

Up to the claim of a slot, a failing `ringbuf(.open)` changes nothing but the
name of a free slot. From there on, no failure is undone: the count of owned ring
buffers, the top free page and the mappings stay as they are.
-/
namespace Zigmaos.RingbufManager
open Memory

variable {π : Type} [DecidableEq π]

/-- The table, all processes with their page tables, and the free pages. -/
structure Same (s s' : State π) : Prop where
  ringbufs : s'.ringbufs = s.ringbufs
  processes : s'.processes = s.processes
  pages : s'.allocator.pages = s.allocator.pages

omit [DecidableEq π] in
theorem Same.refl (s : State π) : Same s s := ⟨rfl, rfl, rfl⟩

/-- The name goes to a slot that has it already. -/
def Untouched (rb : Ringbuf π) (name : List UInt8) : Prop :=
  { rb.writeName name with pages := none } = rb

theorem allocBufPages_pages (a : Allocator) (n : ℕ) :
    ((allocBufPages a n).1 : Multiset Page) + (allocBufPages a n).2.pages = a.pages := by
  induction n generalizing a with
  | zero => simp [allocBufPages]
  | succ n ih =>
    rw [allocBufPages]
    obtain ⟨hnone, hpages⟩ | ⟨page, hsome, hpages⟩ := a.allocPage_cases
    · rw [show a.allocPage = (none, a.allocPage.2) from Prod.ext hnone rfl]
      simp [hpages]
    · rw [show a.allocPage = (some page, a.allocPage.2) from Prod.ext hsome rfl]
      simp only
      rw [← hpages, ← ih a.allocPage.2, ← Multiset.cons_coe, ← Multiset.singleton_add]
      ac_rfl

omit [DecidableEq π] in
/-- `activate` gives back what it has got when memory runs out. -/
theorem activate_error {rb rb' : Ringbuf π} {name : List UInt8} {a a' : Allocator}
    {e : RingbufError} (h : rb.activate name a = (.error e, rb', a')) :
    a'.pages = a.pages ∧
      (e ≠ .outOfMemory ∧ rb' = rb ∨
        e = .outOfMemory ∧ rb' = { rb.writeName name with pages := none }) := by
  have hbufs := allocBufPages_pages a ringbufSize
  unfold Ringbuf.activate at h
  split at h
  · simp only [Prod.mk.injEq, Except.error.injEq] at h
    obtain ⟨rfl, rfl, rfl⟩ := h
    exact ⟨rfl, .inl ⟨nofun, rfl⟩⟩
  split at h
  · simp only [Prod.mk.injEq, Except.error.injEq] at h
    obtain ⟨rfl, rfl, rfl⟩ := h
    exact ⟨rfl, .inl ⟨nofun, rfl⟩⟩
  simp only at h
  obtain ⟨hnone, hpages⟩ | ⟨book, hsome, hpages⟩ := (allocBufPages a ringbufSize).2.allocPage_cases
  · rw [show (allocBufPages a ringbufSize).2.allocPage =
      (none, (allocBufPages a ringbufSize).2.allocPage.2) from Prod.ext hnone rfl] at h
    simp only [Prod.mk.injEq, Except.error.injEq] at h
    obtain ⟨rfl, rfl, rfl⟩ := h
    refine ⟨?_, .inr ⟨rfl, rfl⟩⟩
    rw [Allocator.freePages_pages, hpages, hbufs]
  · rw [show (allocBufPages a ringbufSize).2.allocPage =
      (some book, (allocBufPages a ringbufSize).2.allocPage.2) from Prod.ext hsome rfl] at h
    simp only at h
    split at h
    · simp only [Prod.mk.injEq, Except.error.injEq] at h
      obtain ⟨rfl, rfl, rfl⟩ := h
      refine ⟨?_, .inr ⟨rfl, rfl⟩⟩
      rw [Allocator.freePages_pages, Allocator.freePage_pages,
        add_comm _ (allocBufPages a ringbufSize).2.allocPage.2.pages, hpages, hbufs]
    · simp at h

/-- A claim that fails. -/
theorem claim_error {s s₁ : State π} {p : π} {name : List UInt8} {e : RingbufError}
    (h : s.claim p name = .ok (.error e, s₁)) :
    Same s s₁ ↔ (e = .outOfMemory → ∀ i, s.findFreeRingbuf = some i →
      Untouched (s.ringbufs i) name) := by
  unfold State.claim at h
  split at h
  next i hi =>
    have hsame : s₁ = s ∧ e ≠ .outOfMemory := by
      simp only at h
      split at h
      · simp only [Except.ok.injEq, Prod.mk.injEq, Except.error.injEq] at h
        exact ⟨h.2.symm, h.1 ▸ nofun⟩
      · split at h
        · exact absurd h nofun
        · split at h
          · simp only [Except.ok.injEq, Prod.mk.injEq, Except.error.injEq] at h
            exact ⟨h.2.symm, h.1 ▸ nofun⟩
          · simp at h
    obtain ⟨rfl, hne⟩ := hsame
    exact iff_of_true (Same.refl _) (fun he => absurd he hne)
  next =>
    split at h
    next hfree =>
      simp only [Except.ok.injEq, Prod.mk.injEq, Except.error.injEq] at h
      obtain ⟨rfl, rfl⟩ := h
      exact iff_of_true (Same.refl _) (fun he => absurd he nofun)
    next i hfree =>
      split at h
      next e' rb a hact =>
        simp only [Except.ok.injEq, Prod.mk.injEq, Except.error.injEq] at h
        obtain ⟨rfl, rfl⟩ := h
        obtain ⟨hpages, ⟨hne, rfl⟩ | ⟨rfl, rfl⟩⟩ := activate_error hact
        · refine iff_of_true ⟨?_, rfl, hpages⟩ (fun he => absurd he hne)
          exact Function.update_eq_self i s.ringbufs
        · constructor
          · intro hs _ j hj
            obtain rfl : i = j := Option.some.inj (hfree.symm.trans hj)
            have := congrFun hs.ringbufs i
            simpa [State.setRingbuf, Untouched] using this
          · intro hu
            refine ⟨?_, rfl, hpages⟩
            have huntouched := hu rfl i hfree
            unfold Untouched at huntouched
            simp only [State.setRingbuf, huntouched, Function.update_eq_self]
      next rb a hact =>
        split at h
        · exact absurd h nofun
        · simp at h

theorem claim_processes {s s₁ : State π} {p : π} {name : List UInt8}
    {result : Except RingbufError (Fin maxRingbufs × Fin 2)}
    (h : s.claim p name = .ok (result, s₁)) : s₁.processes = s.processes := by
  unfold State.claim at h
  split at h
  · simp only at h
    split at h
    · cases h
      rfl
    · split at h
      · cases h
      · split at h <;> cases h <;> rfl
  · split at h
    · cases h
      rfl
    · split at h
      · cases h
        rfl
      · split at h <;> cases h
        rfl

end Zigmaos.RingbufManager
