import Zigmaos.RingbufTableOpen

/-!
# Opens that fail halfway

An open that fails once it has been given a slot gives the slot back, and leaves
the pages that it has mapped. The windows of all owners stay what they are.
-/
namespace Zigmaos.RingbufManager
open Memory

variable {π : Type}

/-- Mapping pages leaves alone what is mapped, also when it stops in the middle. -/
theorem mapPages_frame {t t' : PageTable} {a a' : Allocator} {top top' : ℕ} {pages : List Page}
    {mapped : Bool} (h : mapPages t a top pages = .ok (mapped, t', a', top')) :
    (∀ w < maxVirtualPage, (t.leaf w).isSome → t'.leaf w = t.leaf w) ∧
      t'.pages + a'.pages = t.pages + a.pages := by
  induction pages generalizing t a top with
  | nil =>
    simp only [mapPages, Except.ok.injEq, Prod.mk.injEq] at h
    obtain ⟨-, rfl, rfl, -⟩ := h
    exact ⟨fun _ _ _ => rfl, rfl⟩
  | cons page rest ih =>
    rw [mapPages] at h
    split at h
    · cases h
    next htop =>
      have hspec := t.map_spec a (Nat.not_le.mp htop) page .data true
      generalize t.map a top page .data true = r at hspec h
      obtain ⟨result, t₁, a₁⟩ := r
      simp only at hspec h
      have hone : ∀ w < maxVirtualPage, (t.leaf w).isSome → t₁.leaf w = t.leaf w := by
        intro w hw hsome
        obtain ⟨-, hnone, hleaf⟩ | ⟨-, hleaf⟩ := hspec.2
        · have hne : w ≠ top := by
            intro heq
            rw [heq, hnone] at hsome
            exact absurd hsome Bool.false_ne_true
          rw [hleaf w hw, if_neg hne]
        · exact hleaf w
      cases result with
      | ok =>
        obtain ⟨hleaf, hpages⟩ := ih h
        refine ⟨fun w hw hsome => ?_, hpages.trans hspec.1.pages_eq⟩
        have hfirst := hone w hw hsome
        rw [hleaf w hw (by rw [hfirst]; exact hsome), hfirst]
      | outOfMemory =>
        simp only [Except.ok.injEq, Prod.mk.injEq] at h
        obtain ⟨-, rfl, rfl, -⟩ := h
        exact ⟨hone, hspec.1.pages_eq⟩
      | alreadyMappedPage =>
        simp only [Except.ok.injEq, Prod.mk.injEq] at h
        obtain ⟨-, rfl, rfl, -⟩ := h
        exact ⟨hone, hspec.1.pages_eq⟩

section Calls
variable [DecidableEq π] {U : ℕ → Prop} {p : π} {s s' s₁ s₂ : State π} {i : Fin maxRingbufs}
  {o : Fin 2}

/-- What an open that fails has done to the table. -/
theorem install_error {address : ℕ} {e : RingbufError}
    (h : s.install p i o address = .ok (.error e, s')) :
    (∀ w < maxVirtualPage, ((s.processes p).pageTable.leaf w).isSome →
      (s'.processes p).pageTable.leaf w = (s.processes p).pageTable.leaf w) ∧
    s'.allocator.pages + (s'.processes p).pageTable.pages =
      s.allocator.pages + (s.processes p).pageTable.pages := by
  unfold State.install at h
  split at h
  · cases h
  next pages _ =>
    simp only at h
    split at h
    · cases h
    next mapped t a top hm =>
      obtain ⟨hleaf, hpages⟩ := mapPages_frame hm
      have hsum : a.pages + t.pages = s.allocator.pages + (s.processes p).pageTable.pages := by
        rw [add_comm, hpages, add_comm]
      cases mapped with
      | false =>
        simp only [Bool.false_eq_true, if_false, Except.ok.injEq, Prod.mk.injEq] at h
        obtain ⟨-, rfl⟩ := h
        simp only [State.setProcess, Function.update_self]
        exact ⟨hleaf, hsum⟩
      | true =>
        simp only [if_true] at h
        split at h
        · simp only [Except.ok.injEq, Prod.mk.injEq] at h
          obtain ⟨-, rfl⟩ := h
          simp only [State.setProcess, State.setRingbuf, Function.update_self]
          exact ⟨hleaf, hsum⟩
        · simp at h

omit [DecidableEq π] in
theorem giveUp_pages (h : s.giveUp i o = .ok s') {pages : RingPages}
    (hp : (s.ringbufs i).pages = some pages) :
    s'.allocator.pages = s.allocator.pages + (s.ringbufs i).ringPages := by
  unfold State.giveUp at h
  simp only at h
  split at h
  · exact absurd h nofun
  next rb a hd =>
    obtain rfl := Except.ok.inj h
    obtain ⟨-, hnone⟩ := Ringbuf.deactivate_ok hd
    obtain ⟨a', heq, hpages⟩ := Ringbuf.deactivate_eq
      { s.ringbufs i with
        refcount := (s.ringbufs i).refcount - 1
        owners := Function.update (s.ringbufs i).owners o
          { (s.ringbufs i).owners o with proc := none } } hp hnone s.allocator
    obtain ⟨-, rfl⟩ := Prod.mk.inj (Except.ok.inj (heq.symm.trans hd))
    exact hpages

/-- The slot was free before, and is free again. -/
theorem Sited.failed (h : Sited U p s) {rb : Ringbuf π} {pages : RingPages}
    {address : ℕ} {e : RingbufError} (hclaimed : Claimed s p (.ok (i, o)) s₁)
    (hslot : SlotClaimed s i rb s₁) (hp : rb.pages = some pages)
    (hi : (s₁.own p i o).install p i o address = .ok (.error e, s₂))
    (hg : s₂.giveUp i o = .ok s') : (∃ U', Kept U U' p s s') ∧
      ∀ x, Owns (allOwners s'.ringbufs) p x → Owns (allOwners s.ringbufs) p x := by
  obtain ⟨hnone, -⟩ := hclaimed.place i o rfl
  have hpages₁ := hclaimed.pages h.good.pages
  have htableEq : ((s₁.own p i o).processes p).pageTable = (s.processes p).pageTable := by
    simp [State.own, State.setProcess, State.setRingbuf, hclaimed.processes]
  have htable : ((s₁.own p i o).processes p).pageTable.Mapped
      (fun w => U w ∨ windows (allOwners s.ringbufs) p w) := htableEq ▸ h.good.table
  have hcount : ((s₁.own p i o).processes p).ownedRingbufsCount =
      (s.processes p).ownedRingbufsCount + 1 := by
    simp [State.own, State.setProcess, State.setRingbuf, hclaimed.processes]
  have hpages : ∀ j pages, ((s₁.own p i o).ringbufs j).pages = some pages →
      pages.buf.length = ringbufSize := pages_setRingbuf (hpages₁ i) hpages₁
  have hinstall := install_spec (i := i) (o := o) htable (hpages i) address
  rw [hi] at hinstall
  have hinstalled : Installed _ _ p i o (.error e) s₂ := hinstall
  obtain ⟨owner, howners, -⟩ := hinstalled.allOwners
  rw [hclaimed.owners] at howners
  have hgive := giveUp_spec s₂ i o
  rw [hg] at hgive
  obtain ⟨hprocesses, hrings, hother⟩ := hgive
  obtain ⟨S', hmapped⟩ := hinstalled.mapped
  obtain ⟨hleaf, hsum⟩ := install_error hi
  -- At the ring buffer nobody is an owner, neither before nor afterwards.
  have hbefore : ∀ o', ((s.ringbufs i).owners o').proc = none := by
    intro o'
    by_cases ho : o' = o
    · rw [ho]
      exact hnone
    · have := hother o' ho
      rwa [howners, if_neg (fun heq => ho (congrArg Prod.snd heq))] at this
  have hzero : (s.ringbufs i).refcount = 0 := by
    rw [(h.table.slot i).refcount, Ringbuf.ownerCount_eq]
    simp [hbefore]
  obtain ⟨owner', hrings₂, -⟩ := hinstalled.ringbufs
  have hpagesIn : (s₂.ringbufs i).pages = some pages := by
    rw [hrings₂, Function.update_self]
    simp [State.own, State.setProcess, State.setRingbuf, hslot.ringbufs, hp]
  have hringsEq : s'.ringbufs = Function.update s.ringbufs i .empty := by
    rw [hrings, hrings₂]
    simp [State.own, State.setProcess, State.setRingbuf, hslot.ringbufs]
  have hplace : ∀ x, allOwners s'.ringbufs x =
      if x.1 = i then .empty else allOwners s.ringbufs x := by
    intro x
    rw [hringsEq, allOwners_update]
    rfl
  have hnobody : ∀ q x, Owns (allOwners s.ringbufs) q x ∨ Owns (allOwners s'.ringbufs) q x →
      x.1 ≠ i := by
    intro q x hx hxi
    rw [Owns, Owns, hplace, if_pos hxi, allOwners, hxi, hbefore] at hx
    exact absurd hx (by simp [Owner.empty])
  have hbeside : ∀ q, Beside q s.ringbufs s'.ringbufs := by
    intro q x hx
    have hxi := hnobody q x hx
    rw [hplace, if_neg hxi, hringsEq, Function.update_of_ne hxi]
    exact ⟨rfl, rfl⟩
  have hagree : ∀ q, Agree q (allOwners s.ringbufs) (allOwners s'.ringbufs) :=
    fun q => (hbeside q).agree
  have hframe : ∀ w < maxVirtualPage, U w ∨ windows (allOwners s.ringbufs) p w →
      (s'.processes p).pageTable.leaf w = (s.processes p).pageTable.leaf w := by
    intro w hw hin
    rw [htableEq] at hleaf
    rw [hprocesses]
    exact hleaf w hw ((h.good.table.isSome_iff w hw).mpr hin)
  refine ⟨?_, fun x hx => (hagree p).owns_iff.mp hx⟩
  refine ⟨fun w => U w ∨ (((s₂.processes p).pageTable.leaf w).isSome ∧
    ¬ windows (allOwners s.ringbufs) p w), ⟨⟨?_, fun w hw => ?_, (hagree p).apart h.good.apart, ?_,
    ?_⟩, ?_, fun x pages' hx hp' k page hk => ?_⟩, fun w hw => .inl hw, fun q _ => hbeside q,
    fun k hk => .inr ?_, fun w hw hU => hframe w hw (.inl hU), ?_⟩
  · rw [hprocesses]
    refine ⟨hmapped.upper, fun w hw => ?_, hmapped.permissions⟩
    rw [(hagree p).windows_iff]
    constructor
    · intro hsome
      by_cases hin : windows (allOwners s.ringbufs) p w
      · exact .inr hin
      · exact .inl (.inr ⟨hsome, hin⟩)
    · have hold : U w ∨ windows (allOwners s.ringbufs) p w →
          ((s₂.processes p).pageTable.leaf w).isSome := by
        intro hin
        rw [← hprocesses, hframe w hw hin]
        exact (h.good.table.isSome_iff w hw).mpr hin
      rintro ((hU | hnew) | hin)
      · exact hold (.inl hU)
      · exact hnew.1
      · exact hold (.inr hin)
  · have hin := (hagree p).windows_iff.mp hw
    rintro (hU | hnew)
    · exact h.good.beside w hin hU
    · exact hnew.2 hin
  · rw [hprocesses, (hagree p).ownedPlaces, hinstalled.count, hcount]
    exact h.good.count.trans (Nat.le_succ _)
  · rw [hrings]
    exact pages_setRingbuf (s := s₂) (fun _ h => by cases h) (hinstalled.pages hpages)
  · rw [hringsEq]
    exact h.table.update .empty (fun hpos => absurd hpos (lt_irrefl 0))
  · have hx' := (hagree p).owns_iff.mp hx
    have hxi := hnobody p x (.inl hx')
    rw [hringsEq, Function.update_of_ne hxi] at hp'
    have hmaps := h.maps x pages' hx' hp' k page hk
    have hlt : k < windowSize := by
      obtain ⟨hk', -⟩ := List.getElem?_eq_some_iff.mp hk
      have hbuf := (h.table.slot x.1).length pages' hp'
      simpa [RingPages.layout, hbuf, windowSize, ringbufSize] using hk'
    have hle := h.good.apart.le x hx'
    rw [hplace, if_neg hxi, hframe _ (by omega) (.inr ⟨x, hx', Nat.le_add_right _ _,
      Nat.add_lt_add_left hlt _⟩), hmaps]
  · have hki : k ≠ i := by
      intro heq
      rw [heq] at hk
      omega
    rw [hringsEq, Function.update_of_ne hki]
  · have hback := giveUp_pages hg hpagesIn
    have hupdate := ringPages_update s.ringbufs i .empty
    have hconserved := hslot.conserved
    have hnew : (s₂.ringbufs i).ringPages = rb.ringPages := by
      rw [Ringbuf.ringPages, hpagesIn, Ringbuf.ringPages, hp]
    have hempty : (Ringbuf.empty : Ringbuf π).ringPages = 0 := rfl
    have hallocator : (s₁.own p i o).allocator = s₁.allocator := rfl
    rw [htableEq, hallocator] at hsum
    rw [← hringsEq, hempty] at hupdate
    rw [hprocesses, hback, hnew]
    ext x
    have h₁ := congrArg (Multiset.count x) hupdate
    have h₂ := congrArg (Multiset.count x) hsum
    have h₃ := congrArg (Multiset.count x) hconserved
    simp only [Multiset.count_add, Multiset.count_zero] at *
    omega

/-- What an open that succeeds has given to the process. -/
structure OpensAt (s : State π) (p : π) (name : List UInt8) (address : ℕ) (s' : State π)
    (x : Place) : Prop where
  new : ¬ Owns (allOwners s.ringbufs) p x
  owned : Owns (allOwners s'.ringbufs) p x
  other : ∀ y, y ≠ x → allOwners s'.ringbufs y = allOwners s.ringbufs y
  named : (s'.ringbufs x.1).name = name
  /-- The address of the ring buffer has been copied out. -/
  copied : ∃ accesses, copyOut (s'.processes p).pageTable s.memory address
    (addressBytes (allOwners s'.ringbufs x).vbuf) = (.ok (), s'.memory, accesses)

theorem install_copied {address : ℕ} (h : s.install p i o address = .ok (.ok (), s')) :
    ∃ accesses, copyOut (s'.processes p).pageTable s.memory address
      (addressBytes ((s'.ringbufs i).owners o).vbuf) = (.ok (), s'.memory, accesses) := by
  unfold State.install at h
  split at h
  · cases h
  · simp only at h
    split at h
    · cases h
    next mapped t a top _ =>
      cases mapped with
      | false => simp at h
      | true =>
        simp only [if_true] at h
        split at h
        · simp at h
        next memory accesses hcopy =>
          simp only [Except.ok.injEq, Prod.mk.injEq, true_and] at h
          subst h
          refine ⟨accesses, ?_⟩
          simpa [State.setProcess, State.setRingbuf] using hcopy

theorem claim_memory {name : List UInt8} {result : Except RingbufError (Fin maxRingbufs × Fin 2)}
    (h : s.claim p name = .ok (result, s₁)) : s₁.memory = s.memory := by
  unfold State.claim at h
  split at h
  · simp only at h
    split at h
    · exact (congrArg State.memory (Prod.mk.inj (Except.ok.inj h)).2).symm
    · split at h
      · exact absurd h nofun
      · split at h
        · exact (congrArg State.memory (Prod.mk.inj (Except.ok.inj h)).2).symm
        · exact (congrArg State.memory (Prod.mk.inj (Except.ok.inj h)).2).symm
  · split at h
    · exact (congrArg State.memory (Prod.mk.inj (Except.ok.inj h)).2).symm
    · split at h
      · exact (congrArg State.memory (Prod.mk.inj (Except.ok.inj h)).2).symm
      · split at h
        · exact absurd h nofun
        · exact (congrArg State.memory (Prod.mk.inj (Except.ok.inj h)).2).symm

/-- An open that returns keeps the windows, wherever they lie. -/
theorem Sited.openRingbuf_ok (h : Sited U p s) {name : List UInt8} {address : ℕ} (hname : 0 ∉ name)
    (hclean : Clean s p name) {result : Except RingbufError Unit}
    (hs' : s.openRingbuf p name address = .ok (result, s')) : (∃ U', Kept U U' p s s') ∧
      ((∃ e, result = .error e) ∧
          (∀ x, Owns (allOwners s'.ringbufs) p x → Owns (allOwners s.ringbufs) p x) ∨
        result = .ok () ∧ ∃ x, OpensAt s p name address s' x) := by
  have hspec : Tidy s p name address → Keeps U p s s' := by
    intro htidy
    have hone := openRingbuf_spec h.good htidy
    rw [hs'] at hone
    exact hone
  unfold State.openRingbuf at hs'
  split at hs'
  · obtain ⟨rfl, rfl⟩ := Prod.mk.inj (Except.ok.inj hs')
    exact ⟨⟨U, h.kept⟩, .inl ⟨⟨_, rfl⟩, fun _ => id⟩⟩
  · have hclaim := claim_spec s p name
    split at hs'
    · cases hs'
    next e s₁ hc =>
      obtain ⟨rfl, rfl⟩ := Prod.mk.inj (Except.ok.inj hs')
      rw [hc] at hclaim
      have hclaimed : Claimed s p (.error e) s₁ := hclaim
      have hkeeps := hspec (fun i o s₂ e' s₃ hc' _ => by
        rw [hc] at hc'
        cases hc')
      refine ⟨⟨U, h.claim_error hc hkeeps⟩, .inl ⟨⟨e, rfl⟩, fun x hx => ?_⟩⟩
      rwa [hclaimed.owners] at hx
    next i o s₁ hc =>
      rw [hc] at hclaim
      have hclaimed : Claimed s p (.ok (i, o)) s₁ := hclaim
      obtain ⟨rb, hslot⟩ := claim_slot h.table hname hclean hc
      obtain ⟨hnamed, hnames⟩ := claim_names hname hclean hc
      obtain ⟨pages, hp, hlength⟩ := hslot.pages
      split at hs'
      · cases hs'
      next s₂ hi =>
        obtain ⟨rfl, rfl⟩ := Prod.mk.inj (Except.ok.inj hs')
        have hkeeps := hspec (fun i' o' s₁' e' s₃ hc' hi' => by
          rw [hc] at hc'
          simp only [Except.ok.injEq, Prod.mk.injEq] at hc'
          obtain ⟨⟨rfl, rfl⟩, rfl⟩ := hc'
          rw [hi] at hi'
          simp at hi')
        have hown : ((s₁.own p i o).ringbufs i).pages = some pages := by
          rw [← hp]
          simp [State.own, State.setProcess, State.setRingbuf, hslot.ringbufs]
        have hmapped := h.good.table
        rw [← show ((s₁.own p i o).processes p).pageTable = (s.processes p).pageTable by
          simp [State.own, State.setProcess, State.setRingbuf, hclaimed.processes]] at hmapped
        obtain ⟨bottom, hat⟩ := install_openedAt hmapped hi hown hlength
        have hwithout := hat.without hclaimed hslot
        refine ⟨⟨U, h.opened hclaimed hslot hp hlength hnames hat hkeeps⟩, .inr ⟨rfl, (i, o),
          hwithout.gone, hwithout.owns, fun y hy => ?_, ?_, ?_⟩⟩
        · rw [hat.allOwners hslot, if_neg hy]
        · rw [hat.ringbufs_eq hslot, Function.update_self, ← hnamed, hslot.ringbufs,
            Function.update_self]
          rfl
        · obtain ⟨accesses, hcopy⟩ := install_copied hi
          have hmemory : (s₁.own p i o).memory = s.memory := (claim_memory hc : s₁.memory = s.memory)
          rw [hmemory] at hcopy
          exact ⟨accesses, hcopy⟩
      next e s₂ hi =>
        split at hs'
        · cases hs'
        next s₃ hg =>
          obtain ⟨rfl, rfl⟩ := Prod.mk.inj (Except.ok.inj hs')
          obtain ⟨hkept, howned⟩ := h.failed hclaimed hslot hp hi hg
          exact ⟨hkept, .inl ⟨⟨e, rfl⟩, howned⟩⟩

end Calls

end Zigmaos.RingbufManager
