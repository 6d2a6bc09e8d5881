import Zigmaos.RingbufTable

/-!
# Opening keeps the table

A slot that an open activates gets its name, unless the slot still has a longer
name from an open that has run out of memory.
-/
namespace Zigmaos.RingbufManager
open Memory

variable {π : Type}

/-! ## Mapping the pages -/

theorem pageBelow_succ {v : ℕ} (h : pageBelow v < maxVirtualPage) : pageBelow v + 1 = v := by
  unfold pageBelow maxVirtualPage at *
  split at h
  · omega
  next hv =>
    rw [if_neg hv]
    omega

/-- The pages from `top` downwards. -/
structure MappedBelow (t : PageTable) (a : Allocator) (top : ℕ) (pages : List Page)
    (t' : PageTable) (a' : Allocator) (top' : ℕ) : Prop where
  le : pages ≠ [] → top < maxVirtualPage ∧ pages.length ≤ top + 1
  leaf : ∀ k page, pages[k]? = some page → t'.leaf (top - k) = some ⟨.data, true, page⟩
  other : ∀ w < maxVirtualPage, ¬ (top < w + pages.length ∧ w ≤ top) → t'.leaf w = t.leaf w
  pages_eq : t'.pages + a'.pages = t.pages + a.pages
  top_eq : pages.length ≤ top → top' + pages.length = top

theorem mapPages_true {t t' : PageTable} {a a' : Allocator} {top top' : ℕ} {pages : List Page}
    (h : mapPages t a top pages = .ok (true, t', a', top')) :
    MappedBelow t a top pages t' a' top' := by
  induction pages generalizing t a top with
  | nil =>
    simp only [mapPages, Except.ok.injEq, Prod.mk.injEq, true_and] at h
    obtain ⟨rfl, rfl, rfl⟩ := h
    exact ⟨fun hne => absurd rfl hne, by simp, fun _ _ _ => rfl, rfl, fun _ => rfl⟩
  | cons page rest ih =>
    rw [mapPages] at h
    split at h
    · cases h
    next htop =>
      have htop : top < maxVirtualPage := Nat.not_le.mp htop
      have hspec := t.map_spec a htop page .data true
      generalize t.map a top page .data true = r at hspec h
      obtain ⟨result, t₁, a₁⟩ := r
      simp only at hspec h
      cases result with
      | ok =>
        obtain ⟨hgrown, ⟨-, -, hleaf⟩ | ⟨hne, -⟩⟩ := hspec
        · have hm := ih h
          have hpages := hgrown.pages_eq
          have hself := hleaf top htop
          rw [if_pos rfl] at hself
          have hbelow : rest ≠ [] → pageBelow top + 1 = top ∧ rest.length ≤ top := by
            intro hne
            obtain ⟨hlt, hlength⟩ := hm.le hne
            have := pageBelow_succ hlt
            exact ⟨this, by omega⟩
          have hrest : 0 < rest.length → pageBelow top + 1 = top ∧ rest.length ≤ top :=
            fun hpos => hbelow (List.ne_nil_of_length_pos hpos)
          refine ⟨fun _ => ⟨htop, ?_⟩, fun k page' hk => ?_, fun w hw hnot => ?_,
            hm.pages_eq.trans hpages, fun hle => ?_⟩
          · rw [List.length_cons]
            obtain hzero | hpos := Nat.eq_zero_or_pos rest.length
            · omega
            · have := hrest hpos
              omega
          · cases k with
            | zero =>
              obtain rfl : page = page' := by simpa using hk
              rw [Nat.sub_zero, hm.other top htop (by
                obtain hzero | hpos := Nat.eq_zero_or_pos rest.length
                · unfold pageBelow maxVirtualPage at *
                  split <;> omega
                · have := hrest hpos
                  omega), hself]
            | succ k =>
              have hk : rest[k]? = some page' := by simpa using hk
              have hlt := (List.getElem?_eq_some_iff.mp hk).1
              have hone := hrest (by omega)
              have := hm.leaf k page' hk
              rwa [show pageBelow top - k = top - (k + 1) by omega] at this
          · rw [List.length_cons] at hnot
            have hnot' : ¬ (pageBelow top < w + rest.length ∧ w ≤ pageBelow top) := by
              obtain hzero | hpos := Nat.eq_zero_or_pos rest.length
              · omega
              · have := hrest hpos
                omega
            rw [hm.other w hw hnot', hleaf w hw, if_neg (by omega)]
          · rw [List.length_cons] at hle ⊢
            have hpos : pageBelow top + 1 = top := by
              rw [pageBelow, if_neg (by omega)]
              omega
            have := hm.top_eq (by omega)
            omega
        · exact absurd rfl hne
      | outOfMemory => simp at h
      | alreadyMappedPage => simp at h

section Calls
variable [DecidableEq π] {U : ℕ → Prop} {p : π} {s s' : State π} {i : Fin maxRingbufs} {o : Fin 2}

/-- The claimed place gets its window at the top free page. -/
structure Opened (s : State π) (p : π) (i : Fin maxRingbufs) (o : Fin 2) (pages : RingPages)
    (s' : State π) : Prop where
  top : (s'.processes p).topFreeVirtualPage + stride = (s.processes p).topFreeVirtualPage
  count : (s'.processes p).ownedRingbufsCount = (s.processes p).ownedRingbufsCount
  ringbufs : s'.ringbufs = Function.update s.ringbufs i { s.ringbufs i with
    owners := Function.update (s.ringbufs i).owners o { (s.ringbufs i).owners o with
      vbuf := (s'.processes p).topFreeVirtualPage + 3
      vbook := (s'.processes p).topFreeVirtualPage + 2 } }
  maps : (⟨none, 0, (s'.processes p).topFreeVirtualPage + 2⟩ : Owner π).Maps
    (s'.processes p).pageTable pages
  other : ∀ w < maxVirtualPage, ¬ ((s'.processes p).topFreeVirtualPage + 2 ≤ w ∧
    w ≤ (s.processes p).topFreeVirtualPage) →
      (s'.processes p).pageTable.leaf w = (s.processes p).pageTable.leaf w
  pages_eq : s'.allocator.pages + (s'.processes p).pageTable.pages =
    s.allocator.pages + (s.processes p).pageTable.pages

/-- The claimed place gets its window at `bottom`, wherever the top free page is. -/
structure OpenedAt (s : State π) (p : π) (i : Fin maxRingbufs) (o : Fin 2) (pages : RingPages)
    (s' : State π) (bottom : ℕ) : Prop where
  bottom_eq : bottom + windowSize = (s.processes p).topFreeVirtualPage + 1
  top_lt : (s.processes p).topFreeVirtualPage < maxVirtualPage
  top : stride ≤ (s.processes p).topFreeVirtualPage →
    (s'.processes p).topFreeVirtualPage + stride = (s.processes p).topFreeVirtualPage
  count : (s'.processes p).ownedRingbufsCount = (s.processes p).ownedRingbufsCount
  ringbufs : s'.ringbufs = Function.update s.ringbufs i { s.ringbufs i with
    owners := Function.update (s.ringbufs i).owners o { (s.ringbufs i).owners o with
      vbuf := bottom + 1
      vbook := bottom } }
  maps : (⟨none, 0, bottom⟩ : Owner π).Maps (s'.processes p).pageTable pages
  other : ∀ w < maxVirtualPage, ¬ (bottom ≤ w ∧ w ≤ (s.processes p).topFreeVirtualPage) →
    (s'.processes p).pageTable.leaf w = (s.processes p).pageTable.leaf w
  pages_eq : s'.allocator.pages + (s'.processes p).pageTable.pages =
    s.allocator.pages + (s.processes p).pageTable.pages

theorem install_openedAt {S : ℕ → Prop} {pages : RingPages} {address : ℕ}
    (ht : (s.processes p).pageTable.Mapped S)
    (h : s.install p i o address = .ok (.ok (), s')) (hp : (s.ringbufs i).pages = some pages)
    (hlength : pages.buf.length = ringbufSize) : ∃ bottom, OpenedAt s p i o pages s' bottom := by
  unfold State.install at h
  rw [hp] at h
  simp only at h
  split at h
  · cases h
  next mapped t a top hm =>
    cases mapped with
    | false => simp at h
    | true =>
      have hbelow := mapPages_true hm
      have hlist : (pages.buf ++ pages.buf ++ [pages.book]).length = windowSize := by
        simp [hlength, windowSize, ringbufSize]
      have htop := hbelow.top_eq
      have hspec := mapPages_spec ht s.allocator (s.processes p).topFreeVirtualPage
        (pages.buf ++ pages.buf ++ [pages.book])
      rw [hm] at hspec
      obtain ⟨bottom, hbottom, hlt, hbook, -⟩ := hspec.2 rfl (by simp)
      simp only at hbook
      rw [hlist] at hbottom htop
      have hbuf : pagesAbove top 2 = bottom + 1 := by
        unfold pagesAbove at *
        simp only [maxVirtualPage, windowSize, ringbufSize] at hlt hbottom
        omega
      simp only [if_true] at h
      split at h
      · simp at h
      next memory _ _ =>
        simp only [Except.ok.injEq, Prod.mk.injEq, true_and] at h
        subst h
        refine ⟨bottom, hbottom, hlt, fun hstride => ?_, ?_, ?_, fun k page hk => ?_,
          fun w hw hnot => ?_, ?_⟩
        · have htop := htop (by unfold stride at hstride; omega)
          have hguard : pageBelow top + 1 = top := by
            rw [pageBelow, if_neg (by unfold stride at hstride; omega)]
            unfold stride at hstride
            omega
          simp only [State.setProcess, State.setRingbuf, Function.update_self]
          unfold stride
          omega
        · simp [State.setProcess, State.setRingbuf]
        · simp [State.setProcess, State.setRingbuf, hbook, hbuf]
        · simp only [State.setProcess, State.setRingbuf, Function.update_self]
          have hlt' := (List.getElem?_eq_some_iff.mp hk).1
          rw [RingPages.layout, List.length_reverse, hlist] at hlt'
          have hk' : (pages.buf ++ pages.buf ++ [pages.book])[windowSize - 1 - k]? = some page := by
            rw [← hk, RingPages.layout, List.getElem?_reverse (by rw [hlist]; exact hlt'), hlist]
          have := hbelow.leaf _ _ hk'
          rwa [show (s.processes p).topFreeVirtualPage - (windowSize - 1 - k) =
            bottom + k by omega] at this
        · simp only [State.setProcess, State.setRingbuf, Function.update_self] at hnot ⊢
          exact hbelow.other w hw (by rw [hlist]; omega)
        · simp only [State.setProcess, State.setRingbuf, Function.update_self]
          rw [add_comm, hbelow.pages_eq, add_comm]

omit [DecidableEq π] in
theorem Opened.openedAt {pages : RingPages} (h : Opened s p i o pages s')
    (hlt : (s.processes p).topFreeVirtualPage < maxVirtualPage) :
    OpenedAt s p i o pages s' ((s'.processes p).topFreeVirtualPage + 2) := by
  have htop := h.top
  refine ⟨?_, hlt, fun _ => htop, h.count, h.ringbufs, h.maps, h.other, h.pages_eq⟩
  unfold stride at htop
  omega

/-! ## Claiming a slot -/

/-- The free slot that the open activates holds no longer name. -/
def Clean (s : State π) (p : π) (name : List UInt8) : Prop :=
  s.findRingbufByName name = none → ∀ i o s₁, s.claim p name = .ok (.ok (i, o), s₁) →
    ((s.ringbufs i).nameBuf.drop name.length).takeWhile (· ≠ 0) = []

omit [DecidableEq π] in
theorem Ringbuf.writeName_name {rb : Ringbuf π} {name : List UInt8} (hname : 0 ∉ name)
    (hclean : (rb.nameBuf.drop name.length).takeWhile (· ≠ 0) = []) :
    (rb.writeName name).name = name := by
  unfold Ringbuf.writeName Ringbuf.name
  rw [List.takeWhile_append_of_pos, hclean, List.append_nil]
  intro c hc
  simpa using fun heq : c = 0 => hname (heq ▸ hc)

omit [DecidableEq π] in
theorem findRingbufByName_none {name : List UInt8} (h : s.findRingbufByName name = none)
    (hi : 0 < (s.ringbufs i).refcount) : (s.ringbufs i).name ≠ name := by
  unfold State.findRingbufByName at h
  have := List.find?_eq_none.mp h i (List.mem_finRange i)
  simp only [ne_eq, Bool.and_eq_true, beq_iff_eq, decide_eq_true_eq, not_and] at this
  exact this (by omega)

omit [DecidableEq π] in
theorem findRingbufByName_some {name : List UInt8} (h : s.findRingbufByName name = some i) :
    0 < (s.ringbufs i).refcount ∧ (s.ringbufs i).name = name := by
  unfold State.findRingbufByName at h
  have := List.find?_some h
  simp only [ne_eq, Bool.and_eq_true, beq_iff_eq, decide_eq_true_eq] at this
  exact ⟨by omega, this.2⟩

omit [DecidableEq π] in
theorem findFreeRingbuf_some (h : s.findFreeRingbuf = some i) : (s.ringbufs i).refcount = 0 := by
  unfold State.findFreeRingbuf at h
  simpa using List.find?_some h

/-- What a claim that succeeds makes of the slot. -/
structure SlotClaimed (s : State π) (i : Fin maxRingbufs) (rb : Ringbuf π) (s₁ : State π) : Prop where
  ringbufs : s₁.ringbufs = Function.update s.ringbufs i rb
  owners : rb.owners = (s.ringbufs i).owners
  refcount : rb.refcount = (s.ringbufs i).refcount
  pages : ∃ pages, rb.pages = some pages ∧ pages.buf.length = ringbufSize
  kept : 0 < (s.ringbufs i).refcount → rb.pages = (s.ringbufs i).pages
  conserved : s₁.allocator.pages + rb.ringPages = s.allocator.pages + (s.ringbufs i).ringPages
  names : ∀ j, j ≠ i → 0 < (s.ringbufs j).refcount → (s.ringbufs j).name ≠ rb.name

omit [DecidableEq π] in
theorem activate_ok {rb rb' : Ringbuf π} {name : List UInt8} {a a' : Allocator}
    (h : rb.activate name a = (.ok (), rb', a')) :
    ∃ pages, rb' = { rb.writeName name with pages := some pages } ∧
      pages.buf.length = ringbufSize ∧ a'.pages + (pages.all : Multiset Page) = a.pages := by
  have hbufs := allocBufPages_pages a ringbufSize
  unfold Ringbuf.activate at h
  split at h
  · simp at h
  split at h
  · simp at h
  simp only at h
  obtain ⟨hnone, -⟩ | ⟨book, hsome, hpages⟩ := (allocBufPages a ringbufSize).2.allocPage_cases
  · rw [show (allocBufPages a ringbufSize).2.allocPage =
      (none, (allocBufPages a ringbufSize).2.allocPage.2) from Prod.ext hnone rfl] at h
    simp at h
  · rw [show (allocBufPages a ringbufSize).2.allocPage =
      (some book, (allocBufPages a ringbufSize).2.allocPage.2) from Prod.ext hsome rfl] at h
    simp only at h
    split at h
    · simp at h
    next hlength =>
      simp only [Prod.mk.injEq, true_and] at h
      obtain ⟨rfl, rfl⟩ := h
      refine ⟨_, rfl, le_antisymm (allocBufPages_length a ringbufSize) (Nat.not_lt.mp hlength), ?_⟩
      rw [RingPages.all, ← Multiset.coe_add, Multiset.coe_singleton, ← hbufs, ← hpages]
      ac_rfl

theorem claim_slot (h : TableOk s.ringbufs) {name : List UInt8} (hname : 0 ∉ name)
    (hclean : Clean s p name) {s₁ : State π} (hc : s.claim p name = .ok (.ok (i, o), s₁)) :
    ∃ rb, SlotClaimed s i rb s₁ := by
  have hclaim := hc
  unfold State.claim at hc
  split at hc
  next j hj =>
    obtain ⟨hpos, hnamed⟩ := findRingbufByName_some hj
    simp only at hc
    split at hc
    · simp at hc
    · split at hc
      · exact absurd hc nofun
      · split at hc
        · simp at hc
        · simp only [Except.ok.injEq, Prod.mk.injEq] at hc
          obtain ⟨⟨rfl, -⟩, rfl⟩ := hc
          obtain ⟨pages, hp⟩ := Option.isSome_iff_exists.mp ((h.slot j).active.mpr hpos)
          refine ⟨s.ringbufs j, (Function.update_eq_self ..).symm, rfl, rfl,
            ⟨pages, hp, (h.slot j).length pages hp⟩, fun _ => rfl, rfl, fun k hk hactive heq => ?_⟩
          exact hk (h.names k j hactive hpos heq)
  next hnone =>
    split at hc
    · simp at hc
    next j hfree =>
      have hzero := findFreeRingbuf_some hfree
      split at hc
      · simp at hc
      next rb a hact =>
        split at hc
        · exact absurd hc nofun
        · simp only [Except.ok.injEq, Prod.mk.injEq] at hc
          obtain ⟨⟨rfl, -⟩, rfl⟩ := hc
          obtain ⟨pages, rfl, hlength, hpages⟩ := activate_ok hact
          have hnamed := Ringbuf.writeName_name hname (hclean hnone _ _ _ hclaim)
          refine ⟨_, rfl, rfl, rfl, ⟨pages, rfl, hlength⟩, fun hpos => by omega, ?_,
            fun k _ hactive => ?_⟩
          · rw [Ringbuf.ringPages, Ringbuf.ringPages, (h.slot j).noPages hzero]
            simpa using hpages
          · have := findRingbufByName_none hnone hactive
            rwa [← hnamed] at this

/-- A claim that succeeds finds or leaves the name in the slot, and the names of the
slots that are active as they were. -/
theorem claim_names {name : List UInt8} (hname : 0 ∉ name) (hclean : Clean s p name) {s₁ : State π}
    (hc : s.claim p name = .ok (.ok (i, o), s₁)) : (s₁.ringbufs i).name = name ∧
      ∀ k, 0 < (s.ringbufs k).refcount → (s₁.ringbufs k).name = (s.ringbufs k).name := by
  have hclaim := hc
  unfold State.claim at hc
  split at hc
  next j hj =>
    obtain ⟨-, hnamed⟩ := findRingbufByName_some hj
    simp only at hc
    split at hc
    · simp at hc
    · split at hc
      · exact absurd hc nofun
      · split at hc
        · simp at hc
        · simp only [Except.ok.injEq, Prod.mk.injEq] at hc
          obtain ⟨⟨rfl, -⟩, rfl⟩ := hc
          exact ⟨hnamed, fun _ _ => rfl⟩
  next hnone =>
    split at hc
    · simp at hc
    next j hfree =>
      have hzero := findFreeRingbuf_some hfree
      split at hc
      · simp at hc
      next rb a hact =>
        split at hc
        · exact absurd hc nofun
        · simp only [Except.ok.injEq, Prod.mk.injEq] at hc
          obtain ⟨⟨rfl, -⟩, rfl⟩ := hc
          obtain ⟨pages, rfl, -, -⟩ := activate_ok hact
          have hnamed := Ringbuf.writeName_name hname (hclean hnone _ _ _ hclaim)
          refine ⟨?_, fun k hk => ?_⟩
          · simpa [State.setRingbuf, Ringbuf.name] using hnamed
          · have hkj : k ≠ j := by
              intro heq
              rw [heq] at hk
              omega
            simp [State.setRingbuf, hkj]

/-- A claim that fails leaves at most a name in a free slot. -/
theorem Sited.claim_error (h : Sited U p s) {name : List UInt8} {e : RingbufError} {s₁ : State π}
    (hc : s.claim p name = .ok (.error e, s₁)) (hkeeps : Keeps U p s s₁) : Kept U U p s s₁ := by
  have hprocesses := claim_processes hc
  have hcases : s₁ = s ∨ ∃ i rb, (s.ringbufs i).refcount = 0 ∧ rb.refcount = 0 ∧ rb.pages = none ∧
      rb.owners = (s.ringbufs i).owners ∧ s₁.ringbufs = Function.update s.ringbufs i rb ∧
      s₁.allocator.pages = s.allocator.pages := by
    unfold State.claim at hc
    split at hc
    · simp only at hc
      split at hc
      · simp only [Except.ok.injEq, Prod.mk.injEq] at hc
        exact .inl hc.2.symm
      · split at hc
        · cases hc
        · split at hc
          · simp only [Except.ok.injEq, Prod.mk.injEq] at hc
            exact .inl hc.2.symm
          · simp at hc
    · split at hc
      · simp only [Except.ok.injEq, Prod.mk.injEq] at hc
        exact .inl hc.2.symm
      next j hfree =>
        have hzero := findFreeRingbuf_some hfree
        split at hc
        next hact =>
          simp only [Except.ok.injEq, Prod.mk.injEq] at hc
          obtain ⟨-, rfl⟩ := hc
          obtain ⟨hpages, ⟨-, rfl⟩ | ⟨-, rfl⟩⟩ := activate_error hact
          · exact .inr ⟨j, _, hzero, hzero, (h.table.slot j).noPages hzero, rfl, rfl, hpages⟩
          · exact .inr ⟨j, { (s.ringbufs j).writeName name with pages := none }, hzero, hzero, rfl,
              rfl, rfl, hpages⟩
        · split at hc
          · cases hc
          · simp at hc
  obtain rfl | ⟨j, rb, hzero, hrefcount, hnone, howners, hrings, hpages⟩ := hcases
  · exact h.kept
  · have hall : allOwners s₁.ringbufs = allOwners s.ringbufs := by
      funext x
      rw [hrings, allOwners_update]
      split
      next hi => rw [howners, allOwners, hi]
      · rfl
    have hslotPages : ∀ k, (s₁.ringbufs k).pages = (s.ringbufs k).pages := by
      intro k
      rw [hrings]
      by_cases hk : k = j
      · rw [hk, Function.update_self, hnone, (h.table.slot j).noPages hzero]
      · rw [Function.update_of_ne hk]
    refine ⟨⟨hkeeps.good, ?_, fun x pages hx hp => ?_⟩, fun _ => id, fun q _ x _ => ?_,
      fun k hk => ?_, fun w _ _ => ?_, ?_⟩
    · rw [hrings]
      refine h.table.update ⟨?_, ?_, ?_⟩ (fun hpos => by omega)
      · have := (h.table.slot j).refcount
        rw [hrefcount, ← hzero, this, Ringbuf.ownerCount_eq, Ringbuf.ownerCount_eq, howners]
      · rw [hnone, hrefcount]
        simp
      · rw [hnone]
        simp
    · rw [hall] at hx ⊢
      rw [hslotPages] at hp
      rw [hprocesses]
      exact h.maps x pages hx hp
    · rw [hall, hslotPages]
      exact ⟨rfl, rfl⟩
    · rw [hrings]
      by_cases hkj : k = j
      · rw [hkj] at hk
        omega
      · rw [Function.update_of_ne hkj]
        exact .inr rfl
    · rw [hprocesses]
    · have hsame : ringPages s₁.ringbufs = ringPages s.ringbufs :=
        Finset.sum_congr rfl (fun k _ => by
          rw [Ringbuf.ringPages, Ringbuf.ringPages, hslotPages])
      rw [hprocesses, hpages, hsame]

theorem Managed.claim_error (h : Managed U p s) {name : List UInt8} {e : RingbufError} {s₁ : State π}
    (hc : s.claim p name = .ok (.error e, s₁)) (hkeeps : Keeps U p s s₁) : Called U p s s₁ := by
  have hclaim := claim_spec s p name
  rw [hc] at hclaim
  have hclaimed : Claimed s p (.error e) s₁ := hclaim
  refine (h.sited.claim_error hc hkeeps).called ?_
  rw [hclaimed.owners, hclaimed.processes]
  exact h.region

/-! ## The call -/

/-- An open that has claimed a slot succeeds. -/
def Succeeds (s : State π) (p : π) (name : List UInt8) (address : ℕ) : Prop :=
  ∀ i o s₁ e s₂, s.claim p name = .ok (.ok (i, o), s₁) →
    (s₁.own p i o).install p i o address ≠ .ok (.error e, s₂)

theorem Succeeds.tidy {name : List UInt8} {address : ℕ} (h : Succeeds s p name address) :
    Tidy s p name address :=
  fun i o s₁ e s₂ hc hi => absurd hi (h i o s₁ e s₂ hc)

/-- The slot as the open leaves it. -/
theorem OpenedAt.ringbufs_eq {s₁ : State π} {rb : Ringbuf π} {pages : RingPages} {bottom : ℕ}
    (hslot : SlotClaimed s i rb s₁) (ho : OpenedAt (s₁.own p i o) p i o pages s' bottom) :
    s'.ringbufs = Function.update s.ringbufs i { rb with
      refcount := rb.refcount + 1
      owners := Function.update rb.owners o ⟨some p, bottom + 1, bottom⟩ } := by
  rw [ho.ringbufs]
  simp [State.own, State.setProcess, State.setRingbuf, hslot.ringbufs]

theorem OpenedAt.allOwners {s₁ : State π} {rb : Ringbuf π} {pages : RingPages} {bottom : ℕ}
    (hslot : SlotClaimed s i rb s₁) (ho : OpenedAt (s₁.own p i o) p i o pages s' bottom)
    (x : Place) : allOwners s'.ringbufs x =
      if x = (i, o) then ⟨some p, bottom + 1, bottom⟩ else RingbufManager.allOwners s.ringbufs x := by
  rw [ho.ringbufs_eq hslot, allOwners_update]
  by_cases hi : x.1 = i
  · rw [if_pos hi]
    by_cases hxo : x.2 = o
    · rw [if_pos (Prod.ext hi hxo), hxo]
      exact Function.update_self ..
    · rw [if_neg (fun hx => hxo (congrArg Prod.snd hx)), RingbufManager.allOwners, hi,
        ← hslot.owners]
      exact Function.update_of_ne hxo _ _
  · rw [if_neg hi, if_neg (fun hx => hi (congrArg Prod.fst hx))]

theorem OpenedAt.without {s₁ : State π} {rb : Ringbuf π} {pages : RingPages} {bottom : ℕ}
    (hclaimed : Claimed s p (.ok (i, o)) s₁) (hslot : SlotClaimed s i rb s₁)
    (ho : OpenedAt (s₁.own p i o) p i o pages s' bottom) :
    Without p (i, o) (RingbufManager.allOwners s'.ringbufs)
      (RingbufManager.allOwners s.ringbufs) := by
  obtain ⟨-, honce⟩ := hclaimed.place i o rfl
  refine ⟨by rw [Owns, ho.allOwners hslot, if_pos rfl], honce o, fun y hy _ => ?_⟩
  rw [ho.allOwners hslot, if_neg hy]

/-- The place of a slot is taken, and its window is mapped. -/
theorem Sited.opened (h : Sited U p s) {s₁ : State π} {rb : Ringbuf π} {pages : RingPages}
    {bottom : ℕ} (hclaimed : Claimed s p (.ok (i, o)) s₁) (hslot : SlotClaimed s i rb s₁)
    (hp : rb.pages = some pages) (hlength : pages.buf.length = ringbufSize)
    (hnames : ∀ k, 0 < (s.ringbufs k).refcount → (s₁.ringbufs k).name = (s.ringbufs k).name)
    (ho : OpenedAt (s₁.own p i o) p i o pages s' bottom) (hkeeps : Keeps U p s s') :
    Kept U U p s s' := by
  obtain ⟨hnone, honce⟩ := hclaimed.place i o rfl
  have htop : ((s₁.own p i o).processes p).topFreeVirtualPage =
      (s.processes p).topFreeVirtualPage := by
    simp [State.own, State.setProcess, State.setRingbuf, hclaimed.processes]
  have htable : ((s₁.own p i o).processes p).pageTable = (s.processes p).pageTable := by
    simp [State.own, State.setProcess, State.setRingbuf, hclaimed.processes]
  have hbottom := ho.bottom_eq
  rw [htop] at hbottom
  obtain ⟨rb', hrb'⟩ : ∃ rb' : Ringbuf π, rb' = { rb with
      refcount := rb.refcount + 1
      owners := Function.update rb.owners o ⟨some p, bottom + 1, bottom⟩ } := ⟨_, rfl⟩
  have hrings : s'.ringbufs = Function.update s.ringbufs i rb' := by
    rw [hrb', ho.ringbufs_eq hslot]
  have howner := ho.allOwners hslot
  have hplace : allOwners s'.ringbufs (i, o) = ⟨some p, bottom + 1, bottom⟩ := by
    rw [howner, if_pos rfl]
  have hwithout := ho.without hclaimed hslot
  have hok := h.table.slot i
  have hrbPages : rb'.pages = some pages := by rw [hrb', ← hp]
  have hwindow : ∀ w, bottom ≤ w → w ≤ (s.processes p).topFreeVirtualPage →
      (allOwners s'.ringbufs (i, o)).window w := by
    intro w hw hw'
    rw [hplace, Owner.window]
    simp only
    omega
  refine ⟨⟨hkeeps.good, ?_, fun y pages' hy hp' k page hk => ?_⟩, fun _ => id,
    fun q hq y hy => ?_, fun k hk => .inr ?_, fun w hw hU => ?_, ?_⟩
  · rw [hrings]
    refine h.table.update ⟨?_, ?_, fun pages' hp' => ?_⟩ (fun _ j hj hactive => ?_)
    · have hupdate := rb.ownerCount_update o ⟨some p, bottom + 1, bottom⟩
      have hfree : (rb.owners o).proc = none := by rw [hslot.owners]; exact hnone
      have hbefore : rb.refcount = rb.ownerCount := by
        rw [hslot.refcount, hok.refcount, Ringbuf.ownerCount_eq, Ringbuf.ownerCount_eq, hslot.owners]
      rw [hfree, Option.isSome_none, if_neg Bool.false_ne_true, Option.isSome_some, if_pos rfl] at hupdate
      rw [hrb']
      change rb.refcount + 1 = ({ rb with
        owners := Function.update rb.owners o ⟨some p, bottom + 1, bottom⟩ } : Ringbuf π).ownerCount
      omega
    · rw [hrbPages, hrb']
      simp
    · obtain rfl := Option.some.inj (hrbPages.symm.trans hp')
      exact hlength
    · rw [hrb']
      exact hslot.names j hj hactive
  · by_cases hyx : y = (i, o)
    · rw [hyx] at hp'
      rw [hrings, Function.update_self, hrbPages] at hp'
      obtain rfl := Option.some.inj hp'
      rw [hyx, hplace]
      exact ho.maps k page hk
    · have hown := (hwithout.owns_iff hyx).mpr hy
      have hyi : y.1 ≠ i := by
        intro hi
        refine honce y.2 ?_
        rw [← hi]
        exact hown
      rw [hrings, Function.update_of_ne hyi] at hp'
      have hmaps := h.maps y pages' hown hp' k page hk
      have hlt : k < windowSize := by
        obtain ⟨hk', -⟩ := List.getElem?_eq_some_iff.mp hk
        have hbuf := (h.table.slot y.1).length pages' hp'
        simpa [RingPages.layout, hbuf, windowSize, ringbufSize] using hk'
      have hle := h.good.apart.le y hown
      -- The window is not where the new one is.
      have hapart : ¬ (bottom ≤ (allOwners s.ringbufs y).vbook + k ∧
          (allOwners s.ringbufs y).vbook + k ≤ (s.processes p).topFreeVirtualPage) := by
        rintro ⟨hin, hin'⟩
        refine hyx (hkeeps.good.apart.disjoint y (i, o) _ hy hwithout.owns ?_ (hwindow _ hin hin'))
        rw [howner, if_neg hyx]
        exact ⟨Nat.le_add_right _ _, Nat.add_lt_add_left hlt _⟩
      rw [howner, if_neg hyx, ho.other _ (by omega) (by rw [htop]; exact hapart), htable, hmaps]
  · by_cases hyx : y = (i, o)
    · rw [hyx] at hy
      obtain hown | hown := hy
      · rw [Owns, hnone] at hown
        cases hown
      · rw [Owns, hplace] at hown
        exact absurd (Option.some.inj hown).symm hq
    · refine ⟨by rw [howner, if_neg hyx], ?_⟩
      rw [Owns, Owns, howner, if_neg hyx, or_self] at hy
      rw [hrings]
      by_cases hi : y.1 = i
      · rw [hi, Function.update_self, hrb']
        refine hslot.kept (hok.pos (p := q) (o := y.2) ?_)
        rw [← hi]
        exact hy
      · rw [Function.update_of_ne hi]
  · rw [hrings, ← hnames k hk, hslot.ringbufs]
    by_cases hki : k = i
    · rw [hki, Function.update_self, Function.update_self, hrb']
      rfl
    · rw [Function.update_of_ne hki, Function.update_of_ne hki]
  · have hin : ¬ ((allOwners s'.ringbufs (i, o)).window w) := fun hin =>
      hkeeps.good.beside w ⟨(i, o), hwithout.owns, hin⟩ hU
    rw [ho.other w hw (fun hw' => hin (hwindow w hw'.1 (by rw [htop] at hw'; exact hw'.2))), htable]
  · have hsum := ringPages_update s.ringbufs i rb'
    have hpages := ho.pages_eq
    have hconserved := hslot.conserved
    have hring : rb'.ringPages = rb.ringPages := by rw [hrb']; rfl
    rw [← hrings, hring] at hsum
    have hallocator : (s₁.own p i o).allocator = s₁.allocator := rfl
    rw [htable, hallocator] at hpages
    ext x
    have h₁ := congrArg (Multiset.count x) hsum
    have h₂ := congrArg (Multiset.count x) hpages
    have h₃ := congrArg (Multiset.count x) hconserved
    simp only [Multiset.count_add] at *
    omega

theorem Managed.opened (h : Managed U p s) {s₁ : State π} {rb : Ringbuf π} {pages : RingPages}
    (hclaimed : Claimed s p (.ok (i, o)) s₁) (hslot : SlotClaimed s i rb s₁)
    (hp : rb.pages = some pages) (hlength : pages.buf.length = ringbufSize)
    (hnames : ∀ k, 0 < (s.ringbufs k).refcount → (s₁.ringbufs k).name = (s.ringbufs k).name)
    (ho : Opened (s₁.own p i o) p i o pages s')
    (hlt : ((s₁.own p i o).processes p).topFreeVirtualPage < maxVirtualPage)
    (hkeeps : Keeps U p s s') : Called U p s s' := by
  have hat := ho.openedAt hlt
  have htop : ((s₁.own p i o).processes p).topFreeVirtualPage =
      (s.processes p).topFreeVirtualPage := by
    simp [State.own, State.setProcess, State.setRingbuf, hclaimed.processes]
  have hcount : ((s₁.own p i o).processes p).ownedRingbufsCount =
      (s.processes p).ownedRingbufsCount + 1 := by
    simp [State.own, State.setProcess, State.setRingbuf, hclaimed.processes]
  obtain ⟨top, htopEq⟩ : ∃ top, (s'.processes p).topFreeVirtualPage = top := ⟨_, rfl⟩
  have hnew := ho.top
  rw [htop, htopEq] at hnew
  have howner := hat.allOwners hslot
  have hwithout := hat.without hclaimed hslot
  have hplace : allOwners s'.ringbufs (i, o) = ⟨some p, top + 2 + 1, top + 2⟩ := by
    rw [howner, if_pos rfl, htopEq]
  have haligned := h.region.aligned
  refine (h.sited.opened hclaimed hslot hp hlength hnames hat hkeeps).called ⟨?_, ?_, fun y hy => ?_⟩
  · rw [hwithout.card, h.region.count, ho.count, hcount]
  · rw [htopEq]
    unfold stride windowSize ringbufSize at *
    omega
  · rw [htopEq]
    by_cases hyx : y = (i, o)
    · rw [hyx, hplace]
      unfold stride windowSize ringbufSize at *
      simp only
      omega
    · have hown := (hwithout.owns_iff hyx).mpr hy
      obtain ⟨habove, halign⟩ := h.region.above y hown
      rw [howner, if_neg hyx]
      exact ⟨by omega, halign⟩

end Calls

end Zigmaos.RingbufManager
