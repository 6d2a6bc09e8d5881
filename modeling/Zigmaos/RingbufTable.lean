import Zigmaos.RingbufMappings
import Zigmaos.RingbufOpen

/-!
# The table of ring buffers

A slot has pages exactly while it has owners, and each owner maps them. A process
gets its windows one below the other, a stride apart, and all of them lie above
its top free page. A call changes this for nobody but the process, and no page
gets lost.
-/
namespace Zigmaos.RingbufManager
open Memory

variable {π : Type}

/-- The physical pages of a ring buffer. -/
def RingPages.all (pages : RingPages) : List Page := pages.buf ++ [pages.book]

/-- The pages of a window, from the book up. -/
def RingPages.layout (pages : RingPages) : List Page :=
  (pages.buf ++ pages.buf ++ [pages.book]).reverse

def Ringbuf.ringPages (rb : Ringbuf π) : Multiset Page := rb.pages.elim 0 (fun pages => pages.all)

def ringPages (ringbufs : Fin maxRingbufs → Ringbuf π) : Multiset Page :=
  ∑ i, (ringbufs i).ringPages

def Ringbuf.ownerCount (rb : Ringbuf π) : ℕ :=
  (Finset.univ.filter (fun o => (rb.owners o).proc.isSome)).card

/-- The window of a ring buffer and its guard page. -/
def stride : ℕ := windowSize + 1

structure Ringbuf.Ok (rb : Ringbuf π) : Prop where
  refcount : rb.refcount = rb.ownerCount
  active : rb.pages.isSome ↔ 0 < rb.refcount
  length : ∀ pages, rb.pages = some pages → pages.buf.length = ringbufSize

structure TableOk (ringbufs : Fin maxRingbufs → Ringbuf π) : Prop where
  slot : ∀ i, (ringbufs i).Ok
  names : ∀ i j, 0 < (ringbufs i).refcount → 0 < (ringbufs j).refcount →
    (ringbufs i).name = (ringbufs j).name → i = j

/-- The window of the owner maps the pages. -/
def Owner.Maps (o : Owner π) (t : PageTable) (pages : RingPages) : Prop :=
  ∀ k page, pages.layout[k]? = some page → t.leaf (o.vbook + k) = some ⟨.data, true, page⟩

/-- The ring buffers of the process `q` are as before. -/
def Beside (q : π) (r r' : Fin maxRingbufs → Ringbuf π) : Prop :=
  ∀ x, Owns (allOwners r) q x ∨ Owns (allOwners r') q x →
    allOwners r' x = allOwners r x ∧ (r' x.1).pages = (r x.1).pages

/-- What a call that only gives back pages does besides. -/
structure Returned (p : π) (s s' : State π) : Prop where
  slots : ∀ i, (s'.ringbufs i).pages = (s.ringbufs i).pages ∨ (s'.ringbufs i).pages = none
  tables : (s'.processes p).pageTable.pages = (s.processes p).pageTable.pages

variable {p q : π} {i : Fin maxRingbufs} {o : Fin 2} {rb : Ringbuf π}
  {r r' r'' : Fin maxRingbufs → Ringbuf π}

theorem Beside.refl (q : π) (r : Fin maxRingbufs → Ringbuf π) : Beside q r r :=
  fun _ _ => ⟨rfl, rfl⟩

theorem Beside.agree (h : Beside q r r') : Agree q (allOwners r) (allOwners r') :=
  fun x hx => (h x hx).1

theorem Beside.trans (h : Beside q r r') (h' : Beside q r' r'') : Beside q r r'' := by
  intro x hx
  have hmid : Owns (allOwners r') q x :=
    hx.elim h.agree.owns_iff.mpr h'.agree.owns_iff.mp
  obtain ⟨howner, hpages⟩ := h x (.inr hmid)
  obtain ⟨howner', hpages'⟩ := h' x (.inl hmid)
  exact ⟨howner'.trans howner, hpages'.trans hpages⟩

theorem Returned.refl (p : π) (s : State π) : Returned p s s := ⟨fun _ => .inl rfl, rfl⟩

theorem Returned.trans {s s' s'' : State π} (h : Returned p s s') (h' : Returned p s' s'') :
    Returned p s s'' where
  slots i := by
    obtain heq | hnone := h'.slots i
    · rw [heq]
      exact h.slots i
    · exact .inr hnone
  tables := h'.tables.trans h.tables

/-! ## One slot -/

theorem Ringbuf.ownerCount_eq (rb : Ringbuf π) : rb.ownerCount =
    (if (rb.owners 0).proc.isSome then 1 else 0) + (if (rb.owners 1).proc.isSome then 1 else 0) := by
  rw [Ringbuf.ownerCount, Finset.card_filter, Fin.sum_univ_two]

/-- The other owner. -/
theorem Ringbuf.ownerCount_other (rb : Ringbuf π) (o : Fin 2) : rb.ownerCount =
    (if (rb.owners o).proc.isSome then 1 else 0) +
      (if (rb.owners (1 - o)).proc.isSome then 1 else 0) := by
  rw [Ringbuf.ownerCount_eq]
  obtain rfl | rfl : o = 0 ∨ o = 1 := by omega
  · rfl
  · exact Nat.add_comm _ _

theorem other_ne (o : Fin 2) : 1 - o ≠ o := by
  obtain rfl | rfl : o = 0 ∨ o = 1 := by omega
  · decide
  · decide

theorem eq_other {o o' : Fin 2} (h : o' ≠ o) : o' = 1 - o := by
  obtain rfl | rfl : o = 0 ∨ o = 1 := by omega
  · omega
  · omega

/-- The owner `o` is replaced. -/
theorem Ringbuf.ownerCount_update (rb : Ringbuf π) (o : Fin 2) (owner : Owner π) :
    ({ rb with owners := Function.update rb.owners o owner } : Ringbuf π).ownerCount +
        (if (rb.owners o).proc.isSome then 1 else 0) =
      rb.ownerCount + (if owner.proc.isSome then 1 else 0) := by
  rw [Ringbuf.ownerCount_other _ o, Ringbuf.ownerCount_other rb o]
  simp only [Function.update_self, Function.update_of_ne (other_ne o)]
  omega

theorem Ringbuf.Ok.empty : (Ringbuf.empty : Ringbuf π).Ok := by
  refine ⟨?_, ?_, nofun⟩
  · rw [Ringbuf.ownerCount_eq]
    rfl
  · simp [Ringbuf.empty]

theorem Ringbuf.Ok.noPages (h : rb.Ok) (hzero : rb.refcount = 0) : rb.pages = none := by
  have := h.active
  rw [hzero] at this
  simpa using this

/-- An owned slot is active. -/
theorem Ringbuf.Ok.pos (h : rb.Ok) (hown : (rb.owners o).proc = some p) : 0 < rb.refcount := by
  rw [h.refcount, Ringbuf.ownerCount_other rb o, hown]
  simp

theorem Ringbuf.Ok.some_pages (h : rb.Ok) (hown : (rb.owners o).proc = some p) :
    ∃ pages, rb.pages = some pages :=
  Option.isSome_iff_exists.mp (h.active.mpr (h.pos hown))

/-- Where the refcount is one, the only owner is this one. -/
theorem Ringbuf.Ok.other_none (h : rb.Ok) (hown : (rb.owners o).proc = some p)
    (hone : rb.refcount = 1) : (rb.owners (1 - o)).proc = none := by
  have hcount := h.refcount
  rw [hone, Ringbuf.ownerCount_other rb o, hown] at hcount
  by_contra hsome
  rw [if_pos (Option.isSome_iff_ne_none.mpr hsome)] at hcount
  simp at hcount

theorem ringPages_update (ringbufs : Fin maxRingbufs → Ringbuf π) (i : Fin maxRingbufs)
    (rb : Ringbuf π) : ringPages (Function.update ringbufs i rb) + (ringbufs i).ringPages =
      ringPages ringbufs + rb.ringPages := by
  have hrest : ∑ j ∈ Finset.univ.erase i, (Function.update ringbufs i rb j).ringPages =
      ∑ j ∈ Finset.univ.erase i, (ringbufs j).ringPages :=
    Finset.sum_congr rfl (fun j hj => by
      rw [Function.update_of_ne (Finset.ne_of_mem_erase hj)])
  unfold ringPages
  rw [← Finset.add_sum_erase _ _ (Finset.mem_univ i),
    ← Finset.add_sum_erase _ (fun j => (ringbufs j).ringPages) (Finset.mem_univ i), hrest,
    Function.update_self]
  generalize ∑ j ∈ Finset.univ.erase i, (ringbufs j).ringPages = rest
  ext x
  simp only [Multiset.count_add]
  omega

/-- One slot changes. -/
theorem TableOk.update (h : TableOk r) (hrb : rb.Ok)
    (hnames : 0 < rb.refcount → ∀ j, j ≠ i → 0 < (r j).refcount → (r j).name ≠ rb.name) :
    TableOk (Function.update r i rb) where
  slot j := by
    by_cases hj : j = i
    · rw [hj, Function.update_self]
      exact hrb
    · rw [Function.update_of_ne hj]
      exact h.slot j
  names j k hj hk heq := by
    by_cases hji : j = i
    · by_cases hki : k = i
      · rw [hji, hki]
      · rw [hji, Function.update_self] at hj heq
        rw [Function.update_of_ne hki] at hk heq
        exact absurd heq.symm (hnames hj k hki hk)
    · rw [Function.update_of_ne hji] at hj heq
      by_cases hki : k = i
      · rw [hki, Function.update_self] at hk heq
        exact absurd heq (hnames hk j hji hj)
      · rw [Function.update_of_ne hki] at hk heq
        exact h.names j k hj hk heq

/-- The slot after the owner has gone. -/
def Ringbuf.without (rb : Ringbuf π) (o : Fin 2) : Ringbuf π :=
  if rb.refcount = 1 then .empty
  else { rb with
    refcount := rb.refcount - 1, owners := Function.update rb.owners o .empty }

theorem Ringbuf.Ok.without (h : rb.Ok) (hown : (rb.owners o).proc = some p) : (rb.without o).Ok := by
  unfold Ringbuf.without
  split
  · exact .empty
  next hone =>
    have hpos := h.pos hown
    have hcount := rb.ownerCount_update o .empty
    rw [hown] at hcount
    rw [Option.isSome_some, if_pos rfl, show (Owner.empty : Owner π).proc.isSome = false from rfl,
      if_neg Bool.false_ne_true] at hcount
    have hrefcount := h.refcount
    refine ⟨?_, ?_, h.length⟩
    · change rb.refcount - 1 =
        ({ rb with owners := Function.update rb.owners o .empty } : Ringbuf π).ownerCount
      omega
    · rw [h.active]
      simp only
      omega

theorem Ringbuf.without_pages (rb : Ringbuf π) (o : Fin 2) :
    (rb.without o).pages = if rb.refcount = 1 then none else rb.pages := by
  unfold Ringbuf.without
  split <;> rfl

/-- The other owner, if there is one, has the slot as before. -/
theorem Ringbuf.Ok.without_other (h : rb.Ok) (hown : (rb.owners o).proc = some p) {o' : Fin 2}
    (ho' : o' ≠ o) (hq : (rb.owners o').proc ≠ none ∨ ((rb.without o).owners o').proc ≠ none) :
    (rb.without o).owners o' = rb.owners o' ∧ (rb.without o).pages = rb.pages := by
  unfold Ringbuf.without at *
  split at hq
  next hone =>
    have hnone := h.other_none hown hone
    rw [← eq_other ho'] at hnone
    exact (hq.elim (fun hne => hne hnone) (fun hne => hne rfl)).elim
  next hone =>
    rw [if_neg hone]
    exact ⟨Function.update_of_ne ho' _ _, rfl⟩

theorem Ringbuf.deactivate_eq (rb : Ringbuf π) {pages : RingPages} (hp : rb.pages = some pages)
    (hnone : ∀ o, (rb.owners o).proc = none) (a : Allocator) :
    ∃ a', rb.deactivate a = .ok (.empty, a') ∧ a'.pages = a.pages + rb.ringPages := by
  refine ⟨(a.freePages pages.buf).freePage pages.book, ?_, ?_⟩
  · simp [Ringbuf.deactivate, hp, hnone]
  · rw [Allocator.freePage_pages, Allocator.freePages_pages, Ringbuf.ringPages, hp, Option.elim_some,
      RingPages.all, ← Multiset.coe_add, Multiset.coe_singleton]
    ac_rfl

/-! ## Calls -/

section Calls
variable [DecidableEq π]

/-- What a process counts, and where its windows lie. -/
structure Region [DecidableEq π] (f : Place → Owner π) (p : π) (count top : ℕ) : Prop where
  count : (ownedPlaces f p).card = count
  aligned : top % stride = 0
  above : ∀ x, Owns f p x → top + 2 ≤ (f x).vbook ∧ (f x).vbook % stride = 2

structure Managed (U : ℕ → Prop) (p : π) (s : State π) : Prop where
  good : Good U p s
  table : TableOk s.ringbufs
  region : Region (allOwners s.ringbufs) p (s.processes p).ownedRingbufsCount
    (s.processes p).topFreeVirtualPage
  maps : ∀ x pages, Owns (allOwners s.ringbufs) p x → (s.ringbufs x.1).pages = some pages →
    (allOwners s.ringbufs x).Maps (s.processes p).pageTable pages

/-- What a call of the process `p` keeps. -/
structure Called (U : ℕ → Prop) (p : π) (s s' : State π) : Prop where
  managed : Managed U p s'
  others : ∀ q, q ≠ p → Beside q s.ringbufs s'.ringbufs
  user : ∀ w < maxVirtualPage, U w →
    (s'.processes p).pageTable.leaf w = (s.processes p).pageTable.leaf w
  conserved : s'.allocator.pages + (s'.processes p).pageTable.pages + ringPages s'.ringbufs =
    s.allocator.pages + (s.processes p).pageTable.pages + ringPages s.ringbufs

/-- The windows of a process, wherever they lie. -/
structure Sited (U : ℕ → Prop) (p : π) (s : State π) : Prop where
  good : Good U p s
  table : TableOk s.ringbufs
  maps : ∀ x pages, Owns (allOwners s.ringbufs) p x → (s.ringbufs x.1).pages = some pages →
    (allOwners s.ringbufs x).Maps (s.processes p).pageTable pages

/-- The slots that are active were active before, under the same name, and who is an
owner was one before. -/
structure Dwindles (r r' : Fin maxRingbufs → Ringbuf π) : Prop where
  slots : ∀ k, (r' k).refcount = 0 ∨ (0 < (r k).refcount ∧ (r' k).name = (r k).name)
  owners : ∀ q x, Owns (allOwners r') q x → Owns (allOwners r) q x

/-- What a call of the process `p` keeps wherever its windows lie; it may leave more
pages mapped. -/
structure Kept (U U' : ℕ → Prop) (p : π) (s s' : State π) : Prop where
  sited : Sited U' p s'
  grows : ∀ w, U w → U' w
  others : ∀ q, q ≠ p → Beside q s.ringbufs s'.ringbufs
  names : ∀ k, 0 < (s.ringbufs k).refcount →
    (s'.ringbufs k).refcount = 0 ∨ (s'.ringbufs k).name = (s.ringbufs k).name
  user : ∀ w < maxVirtualPage, U w →
    (s'.processes p).pageTable.leaf w = (s.processes p).pageTable.leaf w
  conserved : s'.allocator.pages + (s'.processes p).pageTable.pages + ringPages s'.ringbufs =
    s.allocator.pages + (s.processes p).pageTable.pages + ringPages s.ringbufs

variable {U U' : ℕ → Prop} {s s' : State π}

theorem Managed.sited (h : Managed U p s) : Sited U p s := ⟨h.good, h.table, h.maps⟩

theorem Sited.kept (h : Sited U p s) : Kept U U p s s :=
  ⟨h, fun _ => id, fun q _ => .refl q _, fun _ _ => .inr rfl, fun _ _ _ => rfl, rfl⟩

theorem Kept.trans {U'' : ℕ → Prop} {s'' : State π} (h : Kept U U' p s s')
    (h' : Kept U' U'' p s' s'') (hd : Dwindles s'.ringbufs s''.ringbufs) : Kept U U'' p s s'' where
  sited := h'.sited
  grows w hw := h'.grows w (h.grows w hw)
  others q hq := (h.others q hq).trans (h'.others q hq)
  names k hk := by
    refine (hd.slots k).imp_right fun ⟨hpos, hname⟩ => ?_
    exact hname.trans ((h.names k hk).resolve_left hpos.ne')
  user w hw hU := (h'.user w hw (h.grows w hU)).trans (h.user w hw hU)
  conserved := h'.conserved.trans h.conserved

omit [DecidableEq π] in
theorem Dwindles.trans {r r' r'' : Fin maxRingbufs → Ringbuf π} (h : Dwindles r r')
    (h' : Dwindles r' r'') : Dwindles r r'' where
  slots k := by
    refine (h'.slots k).imp_right fun ⟨hpos, hname⟩ => ?_
    obtain ⟨hpos', hname'⟩ := (h.slots k).resolve_left hpos.ne'
    exact ⟨hpos', hname.trans hname'⟩
  owners q x hx := h.owners q x (h'.owners q x hx)

omit [DecidableEq π] in
theorem Dwindles.refl (r : Fin maxRingbufs → Ringbuf π) : Dwindles r r where
  slots k := by
    rcases Nat.eq_zero_or_pos (r k).refcount with hzero | hpos
    · exact .inl hzero
    · exact .inr ⟨hpos, rfl⟩
  owners _ _ := id

theorem Kept.called (h : Kept U U p s s')
    (hr : Region (allOwners s'.ringbufs) p (s'.processes p).ownedRingbufsCount
      (s'.processes p).topFreeVirtualPage) : Called U p s s' :=
  ⟨⟨h.sited.good, h.sited.table, hr, h.sited.maps⟩, h.others, h.user, h.conserved⟩

theorem Managed.called (h : Managed U p s) : Called U p s s :=
  ⟨h, fun q _ => .refl q _, fun _ _ _ => rfl, rfl⟩

theorem Called.trans {s'' : State π} (h : Called U p s s') (h' : Called U p s' s'') :
    Called U p s s'' where
  managed := h'.managed
  others q hq := (h.others q hq).trans (h'.others q hq)
  user w hw hU := (h'.user w hw hU).trans (h.user w hw hU)
  conserved := h'.conserved.trans h.conserved

/-! ## Disowning -/

/-- The state after the process has given up a place. -/
structure Disowned (s : State π) (p : π) (i : Fin maxRingbufs) (o : Fin 2) (s' : State π) : Prop where
  ringbufs : s'.ringbufs = Function.update s.ringbufs i ((s.ringbufs i).without o)
  count : (s'.processes p).ownedRingbufsCount = (s.processes p).ownedRingbufsCount - 1
  top : (s'.processes p).topFreeVirtualPage = (s.processes p).topFreeVirtualPage
  pages : s'.allocator.pages + ((s.ringbufs i).without o).ringPages =
    s.allocator.pages + (s.ringbufs i).ringPages
  tables : (s'.processes p).pageTable.pages = (s.processes p).pageTable.pages
  leaf : ∀ w < maxVirtualPage, ¬ ((s.ringbufs i).owners o).window w →
    (s'.processes p).pageTable.leaf w = (s.processes p).pageTable.leaf w

/-- An owned place can be given up. -/
theorem Sited.disown (h : Sited U p s) (hx : Owns (allOwners s.ringbufs) p (i, o))
    (hbook : ((s.ringbufs i).owners o).vbook ≠ 0) :
    ∃ s', s.disown p i o = .ok s' ∧ Disowned s p i o s' := by
  have hvbuf := h.good.apart.vbuf _ hx
  have hle := h.good.apart.le _ hx
  have hwindow : ∀ w, ((s.ringbufs i).owners o).window w →
      U w ∨ windows (allOwners s.ringbufs) p w := fun w hw => .inr ⟨_, hx, hw⟩
  have hslot := h.table.slot i
  have hpos := hslot.pos hx
  have hcount : 0 < (s.processes p).ownedRingbufsCount := by
    refine lt_of_lt_of_le ?_ h.good.count
    exact Finset.card_pos.mpr ⟨(i, o), Finset.mem_filter.mpr ⟨Finset.mem_univ _, hx⟩⟩
  unfold Owner.window at hwindow
  simp only [allOwners] at hvbuf hle
  obtain ⟨t₁, a₁, h₁, hmapped₁, hpages₁, ha₁, hleaf₁⟩ := PageTable.unmap_spec false h.good.table
    (a := s.allocator) (v := ((s.ringbufs i).owners o).vbuf) (n := ringbufSize * 2)
    (fun w hw hw' => hwindow w (by unfold windowSize; omega)) (by unfold windowSize at hle; omega)
  obtain ⟨t₂, a₂, h₂, -, hpages₂, ha₂, hleaf₂⟩ := PageTable.unmap_spec false hmapped₁ (a := a₁)
    (v := ((s.ringbufs i).owners o).vbook) (n := 1)
    (fun w hw hw' => ⟨hwindow w (by unfold windowSize; omega), by omega⟩)
    (by unfold windowSize at hle; omega)
  have hleaf : ∀ w < maxVirtualPage, ¬ ((s.ringbufs i).owners o).window w →
      t₂.leaf w = (s.processes p).pageTable.leaf w := by
    intro w hw hnot
    unfold Owner.window windowSize at hnot
    rw [hleaf₂ w hw (by omega), hleaf₁ w hw (by omega)]
  have ha : a₂.pages = s.allocator.pages := by
    rw [ha₂, ha₁]
    simp
  have hsub : sub32 (s.ringbufs i).refcount 1 = (s.ringbufs i).refcount - 1 := if_pos (by omega)
  have hsub' : ProcessMemory.Process.sub64 (s.processes p).ownedRingbufsCount 1 =
      (s.processes p).ownedRingbufsCount - 1 := if_pos hcount
  unfold State.disown
  simp only [h₁, h₂, hsub, hsub']
  rw [if_neg (by omega), if_neg (by omega)]
  by_cases hone : (s.ringbufs i).refcount = 1
  · obtain ⟨pages, hp⟩ := hslot.some_pages hx
    have hnone : ∀ o', (Function.update (s.ringbufs i).owners o .empty o').proc = none := by
      intro o'
      by_cases ho' : o' = o
      · rw [ho', Function.update_self]
        rfl
      · rw [Function.update_of_ne ho', eq_other ho']
        exact hslot.other_none hx hone
    obtain ⟨a₃, h₃, ha₃⟩ := Ringbuf.deactivate_eq
      { s.ringbufs i with
        refcount := (s.ringbufs i).refcount - 1
        owners := Function.update (s.ringbufs i).owners o .empty } hp hnone a₂
    rw [if_pos (by omega), h₃]
    refine ⟨_, rfl, ?_, ?_, ?_, ?_, ?_, ?_⟩
    · simp [Ringbuf.without, hone, State.setRingbuf, State.setProcess]
    · simp [State.setRingbuf, State.setProcess]
    · simp [State.setRingbuf, State.setProcess]
    · rw [Ringbuf.without, if_pos hone, ha₃, ha]
      exact add_zero _
    · simp [State.setRingbuf, State.setProcess, hpages₂, hpages₁]
    · simpa [State.setRingbuf, State.setProcess] using hleaf
  · rw [if_neg (by omega)]
    refine ⟨_, rfl, ?_, ?_, ?_, ?_, ?_, ?_⟩
    · simp [Ringbuf.without, hone, State.setRingbuf, State.setProcess]
    · simp [State.setRingbuf, State.setProcess]
    · simp [State.setRingbuf, State.setProcess]
    · rw [Ringbuf.without, if_neg hone, ha]
      rfl
    · simp [State.setRingbuf, State.setProcess, hpages₂, hpages₁]
    · simpa [State.setRingbuf, State.setProcess] using hleaf

theorem Disowned.dwindles (h : Sited U p s) (hx : Owns (allOwners s.ringbufs) p (i, o))
    (hd : Disowned s p i o s') : Dwindles s.ringbufs s'.ringbufs where
  slots k := by
    rw [hd.ringbufs]
    by_cases hk : k = i
    · rw [hk, Function.update_self]
      have hpos := (h.table.slot i).pos hx
      unfold Ringbuf.without
      split
      · exact .inl rfl
      · exact .inr ⟨hpos, rfl⟩
    · rw [Function.update_of_ne hk]
      exact (Dwindles.refl s.ringbufs).slots k
  owners q x hown := by
    rw [hd.ringbufs, Owns, allOwners_update] at hown
    split at hown
    next hxi =>
      unfold Ringbuf.without at hown
      split at hown
      · cases hown
      · by_cases hxo : x.2 = o
        · simp [hxo, Owner.empty] at hown
        · simp only [Function.update_of_ne hxo] at hown
          rwa [Owns, allOwners, hxi]
    · exact hown

theorem Disowned.kept (h : Sited U p s) (hx : Owns (allOwners s.ringbufs) p (i, o))
    (hd : Disowned s p i o s') (hkeeps : Keeps U p s s')
    (hwithout : Without p (i, o) (allOwners s.ringbufs) (allOwners s'.ringbufs)) :
    Kept U U p s s' ∧ Returned p s s' := by
  have hslot := h.table.slot i
  have hrest : ∀ y, y ≠ (i, o) → Owns (allOwners s'.ringbufs) p y → y.1 ≠ i := by
    intro y hy hown hi
    obtain ⟨-, hbefore, -⟩ := hwithout.owns_of hown
    refine hy (Prod.ext hi ?_)
    exact h.good.apart.once y.1 y.2 o hbefore (by rw [hi]; exact hx)
  refine ⟨⟨⟨hkeeps.good, ?_, fun y pages hy hp k page hk => ?_⟩, fun _ => id,
    fun q hq y hy => ?_, fun k _ => ((hd.dwindles h hx).slots k).imp_right And.right, fun w hw hU => ?_, ?_⟩,
    fun j => ?_, hd.tables⟩
  · rw [hd.ringbufs]
    refine h.table.update (hslot.without hx) (fun hpos j hj hactive => ?_)
    unfold Ringbuf.without at hpos ⊢
    split at hpos
    · exact absurd hpos (lt_irrefl 0)
    next hone =>
      rw [if_neg hone]
      exact fun heq => hj (h.table.names j i hactive (hslot.pos hx) heq)
  · obtain ⟨hne, hbefore, heq⟩ := hwithout.owns_of hy
    have hi := hrest y hne hy
    rw [hd.ringbufs, Function.update_of_ne hi] at hp
    have hmaps := h.maps y pages hbefore hp k page hk
    have hlength : k < windowSize := by
      obtain ⟨hk', -⟩ := List.getElem?_eq_some_iff.mp hk
      have hbuf := (h.table.slot y.1).length pages hp
      simpa [RingPages.layout, hbuf, windowSize, ringbufSize] using hk'
    have hle := h.good.apart.le y hbefore
    rw [heq, hd.leaf _ (by omega) (fun hin => ?_), hmaps]
    refine hne (h.good.apart.disjoint y (i, o) _ hbefore hx ?_ hin)
    exact ⟨Nat.le_add_right _ _, Nat.add_lt_add_left hlength _⟩
  · rw [hd.ringbufs] at hy ⊢
    by_cases hi : y.1 = i
    · have ho : y.2 ≠ o := by
        intro ho
        have hyx : y = (i, o) := Prod.ext hi ho
        rw [hyx] at hy
        refine hq ?_
        obtain hown | hown := hy
        · exact Option.some.inj (hown.symm.trans hx)
        · have hgone := hwithout.gone
          rw [Owns, allOwners_update, if_pos rfl] at hown
          unfold Ringbuf.without at hown
          split at hown
          · cases hown
          · simp [Owner.empty] at hown
      have hother := hslot.without_other hx ho (by
        obtain hown | hown := hy
        · left
          rw [Owns, allOwners, hi] at hown
          rw [hown]
          simp
        · right
          rw [Owns, allOwners_update, if_pos hi] at hown
          rw [hown]
          simp)
      rw [allOwners_update, if_pos hi, hi, Function.update_self, allOwners, hi]
      exact hother
    · rw [allOwners_update, if_neg hi, Function.update_of_ne hi]
      exact ⟨rfl, rfl⟩
  · refine hd.leaf w hw (fun hin => h.good.beside w ⟨(i, o), hx, hin⟩ hU)
  · have hsum := ringPages_update s.ringbufs i ((s.ringbufs i).without o)
    have hpages := hd.pages
    rw [← hd.ringbufs] at hsum
    rw [hd.tables]
    ext x
    have h₁ := congrArg (Multiset.count x) hsum
    have h₂ := congrArg (Multiset.count x) hpages
    simp only [Multiset.count_add] at *
    omega
  · rw [hd.ringbufs]
    by_cases hj : j = i
    · rw [hj, Function.update_self, Ringbuf.without_pages]
      split
      · exact .inr rfl
      · exact .inl rfl
    · rw [Function.update_of_ne hj]
      exact .inl rfl

theorem Disowned.called (h : Managed U p s) (hx : Owns (allOwners s.ringbufs) p (i, o))
    (hd : Disowned s p i o s') (hkeeps : Keeps U p s s')
    (hwithout : Without p (i, o) (allOwners s.ringbufs) (allOwners s'.ringbufs)) :
    Called U p s s' ∧ Returned p s s' := by
  obtain ⟨hkept, hreturned⟩ := hd.kept h.sited hx hkeeps hwithout
  refine ⟨hkept.called ⟨?_, ?_, fun y hy => ?_⟩, hreturned⟩
  · have hcard := hwithout.card
    rw [hd.count, ← h.region.count, hcard, Nat.add_sub_cancel]
  · rw [hd.top]
    exact h.region.aligned
  · obtain ⟨-, hbefore, heq⟩ := hwithout.owns_of hy
    rw [hd.top, heq]
    exact h.region.above y hbefore

/-- Wherever the windows lie, a call that gives up places keeps the others. -/
theorem Sited.disown_ok (h : Sited U p s) (hx : Owns (allOwners s.ringbufs) p (i, o))
    (hs : s.disown p i o = .ok s') :
    Kept U U p s s' ∧ Dwindles s.ringbufs s'.ringbufs := by
  have hbook : ((s.ringbufs i).owners o).vbook ≠ 0 := by
    intro hzero
    unfold State.disown at hs
    simp only at hs
    split at hs
    · exact absurd hs nofun
    · split at hs
      · exact absurd hs nofun
      · exact absurd hs nofun
  obtain ⟨s₁, heq, hd⟩ := h.disown hx hbook
  obtain rfl := Except.ok.inj (hs.symm.trans heq)
  have hspec := disown_spec h.good hx
  rw [hs] at hspec
  exact ⟨(hd.kept h hx hspec.1 hspec.2).1, hd.dwindles h hx⟩

theorem Sited.disownIfOwned_ok (h : Sited U p s) (hs : s.disownIfOwned p i = .ok s') :
    Kept U U p s s' ∧ Dwindles s.ringbufs s'.ringbufs := by
  unfold State.disownIfOwned at hs
  split at hs
  · obtain rfl := Except.ok.inj hs
    exact ⟨h.kept, .refl _⟩
  next o ho => exact h.disown_ok (ownerOf_some ho) hs

theorem Sited.disownEach_ok (h : Sited U p s) {l : List (Fin maxRingbufs)}
    (hs : l.foldlM (fun s i => s.disownIfOwned p i) s = .ok s') :
    Kept U U p s s' ∧ Dwindles s.ringbufs s'.ringbufs := by
  induction l generalizing s with
  | nil =>
    obtain rfl := Except.ok.inj hs
    exact ⟨h.kept, .refl _⟩
  | cons i l ih =>
    rw [List.foldlM_cons] at hs
    simp only [bind, Except.bind] at hs
    split at hs
    · exact absurd hs nofun
    next s₁ h₁ =>
      obtain ⟨hkept, hd⟩ := h.disownIfOwned_ok h₁
      obtain ⟨hkept', hd'⟩ := ih hkept.sited hs
      exact ⟨hkept.trans hkept' hd', hd.trans hd'⟩

theorem Sited.disownAll_ok (h : Sited U p s) (hs : s.disownAll p = .ok s') :
    Kept U U p s s' ∧ Dwindles s.ringbufs s'.ringbufs :=
  h.disownEach_ok hs

/-! ## Closing -/

theorem stride_apart {x y top m : ℕ} (hx : top + 2 = x) (hy : top + 2 ≤ y) (hxm : x % stride = m)
    (hym : y % stride = m) (hne : y < x ∨ x + windowSize ≤ y) : x + stride ≤ y := by
  unfold stride windowSize ringbufSize at *
  omega

/-- Where the lowest ring buffer was, the process can get one again. -/
theorem Called.raise (h : Called U p s s') (hs : Managed U p s)
    (hx : Owns (allOwners s.ringbufs) p (i, o))
    (hwithout : Without p (i, o) (allOwners s.ringbufs) (allOwners s'.ringbufs))
    (hlowest : (s'.processes p).topFreeVirtualPage + 2 = ((s.ringbufs i).owners o).vbook) {top : ℕ}
    (htop : top = (s'.processes p).topFreeVirtualPage + stride) :
    Called U p s (s'.setProcess p { s'.processes p with topFreeVirtualPage := top }) := by
  have hm := h.managed
  have hproc : (s'.setProcess p { s'.processes p with topFreeVirtualPage := top }).processes p =
      { s'.processes p with topFreeVirtualPage := top } := Function.update_self ..
  refine ⟨⟨⟨?_, hm.good.beside, hm.good.apart, ?_, hm.good.pages⟩, hm.table, ⟨?_, ?_, fun y hy => ?_⟩,
    ?_⟩, h.others, ?_, ?_⟩
  · rw [hproc]
    exact hm.good.table
  · rw [hproc]
    exact hm.good.count
  · rw [hproc]
    exact hm.region.count
  · rw [hproc]
    simp only [htop, Nat.add_mod_right]
    exact hm.region.aligned
  · have hy : Owns (allOwners s'.ringbufs) p y := hy
    obtain ⟨hne, hbefore, heq⟩ := hwithout.owns_of hy
    obtain ⟨habove, halign⟩ := hm.region.above y hy
    obtain ⟨-, halign'⟩ := hs.region.above (i, o) hx
    rw [hproc]
    refine ⟨?_, halign⟩
    simp only [htop, State.setProcess]
    have hapart : (allOwners s'.ringbufs y).vbook < ((s.ringbufs i).owners o).vbook ∨
        ((s.ringbufs i).owners o).vbook + windowSize ≤ (allOwners s'.ringbufs y).vbook := by
      by_contra hin
      rw [not_or] at hin
      rw [heq] at hin
      refine hne (hs.good.apart.disjoint y (i, o) (allOwners s.ringbufs y).vbook hbefore hx ?_ ?_)
      · exact ⟨le_rfl, by unfold windowSize; omega⟩
      · exact ⟨by simp only [allOwners] at *; omega, by simp only [allOwners] at *; omega⟩
    have := stride_apart hlowest habove halign' halign hapart
    omega
  · rw [hproc]
    exact hm.maps
  · rw [hproc]
    exact h.user
  · rw [hproc]
    exact h.conserved

/-- The top free page is only a number. -/
theorem Kept.setTop (h : Kept U U' p s s') (top : ℕ) :
    Kept U U' p s (s'.setProcess p { s'.processes p with topFreeVirtualPage := top }) := by
  have hproc : (s'.setProcess p { s'.processes p with topFreeVirtualPage := top }).processes p =
      { s'.processes p with topFreeVirtualPage := top } := Function.update_self ..
  have hgood := h.sited.good
  refine ⟨⟨⟨?_, hgood.beside, hgood.apart, ?_, hgood.pages⟩, h.sited.table, ?_⟩, h.grows, h.others,
    h.names, ?_, ?_⟩
  · rw [hproc]
    exact hgood.table
  · rw [hproc]
    exact hgood.count
  · rw [hproc]
    exact h.sited.maps
  · rw [hproc]
    exact h.user
  · rw [hproc]
    exact h.conserved

theorem Sited.closeRingbuf_ok (h : Sited U p s) {name : List UInt8} {address : ℕ}
    {result : Except RingbufError Unit} (hs : s.closeRingbuf p name address = .ok (result, s')) :
    Kept U U p s s' ∧ Dwindles s.ringbufs s'.ringbufs := by
  have hsame : ∀ e : RingbufError, (.ok (.error e, s) :
      Except Panic (Except RingbufError Unit × State π)) = .ok (result, s') →
      Kept U U p s s' ∧ Dwindles s.ringbufs s'.ringbufs := by
    intro e he
    obtain ⟨-, rfl⟩ := Prod.mk.inj (Except.ok.inj he)
    exact ⟨h.kept, .refl _⟩
  unfold State.closeRingbuf at hs
  split at hs
  · exact hsame _ hs
  · split at hs
    · exact hsame _ hs
    · split at hs
      · exact hsame _ hs
      · simp only at hs
        split at hs
        · exact hsame _ hs
        · split at hs
          · exact hsame _ hs
          · split at hs
            · exact hsame _ hs
            · split at hs
              · exact hsame _ hs
              · split at hs
                · exact hsame _ hs
                · split at hs
                  · cases hs
                  · split at hs
                    · cases hs
                    next s₁ h₁ =>
                      obtain ⟨hkept, hd⟩ := h.disownIfOwned_ok h₁
                      split at hs
                      · obtain ⟨-, rfl⟩ := Prod.mk.inj (Except.ok.inj hs)
                        exact ⟨hkept.setTop _, hd⟩
                      · obtain ⟨-, rfl⟩ := Prod.mk.inj (Except.ok.inj hs)
                        exact ⟨hkept, hd⟩

end Calls

end Zigmaos.RingbufManager
