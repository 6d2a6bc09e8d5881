import Zigmaos.ProcessWindows
import Zigmaos.RingTransfer
import Zigmaos.RingbufSites
import Zigmaos.RingbufTableSafety

/-!
# What the owners of a ring buffer see

Runs of all calls of processes on their memory and their ring buffers, `sbrk`,
`exec` and opens that fail halfway among them. The bytes of a ring buffer are found
through the page table of its owner.
-/
namespace Zigmaos.ProcessRingbufs
open Memory
open Memory.PageTable (userPages)
open ProcessMemory (Slot InvariantBeside)
open RingTransfer (bufCapacity)
open RingbufManager (allOwners ownedPlaces Owns Apart Agree Beside Sited Kept Dwindles OpensAt
  TableOk RingPages ringPages ringbufSize windowSize Place)

/-! ## One ring buffer in a page table -/

/-- Where the bytes of a ring buffer begin, the address that is copied out. -/
def location (owner : RingbufManager.Owner Slot) : ℕ := owner.vbuf * pageSize

/-- The bytes from an address on are one circle, passed twice. -/
structure Circular (t : PageTable) (loc : ℕ) : Prop where
  mapped : ∀ k < 2 * bufCapacity, (byteAddress t (loc + k)).isSome
  twice : ∀ k < 2 * bufCapacity,
    byteAddress t (loc + (k + bufCapacity) % (2 * bufCapacity)) = byteAddress t (loc + k)
  distinct : ∀ j k, j < k → k < bufCapacity → byteAddress t (loc + j) ≠ byteAddress t (loc + k)

/-- The page below an address. -/
def BookAt (t : PageTable) (loc : ℕ) (book : Page) : Prop :=
  ∀ k < pageSize, byteAddress t (loc - pageSize + k) = some (book * pageSize + k)

section Owner
variable {t u : PageTable} {owner owner' : RingbufManager.Owner Slot} {pages : RingPages}

theorem byteAddress_page {v : ℕ} {page : Page} (h : t.leaf v = some ⟨.data, true, page⟩)
    (hv : v < maxVirtualPage) {k : ℕ} (hk : k < pageSize) :
    byteAddress t (v * pageSize + k) = some (page * pageSize + k) := by
  have hdiv : (v * pageSize + k) / pageSize = v := by
    simp only [pageSize] at *
    omega
  refine byteAddress_eq_some.mpr ⟨?_, ⟨.data, true, page⟩, by rw [hdiv, h], rfl, ?_⟩
  · simp only [maxVirtualAddress, pageSize] at *
    omega
  · simp only [pageOffset, pageSize] at *
    omega

theorem MapsRingbuf.byteAt (h : MapsRingbuf t owner pages)
    (hle : owner.vbook + windowSize ≤ maxVirtualPage) (hvbuf : owner.vbuf = owner.vbook + 1) {k : ℕ}
    (hk : k < 2 * bufCapacity) :
    ∃ page, pages.buf[ringbufSize - 1 - k / pageSize % ringbufSize]? = some page ∧
      byteAddress t (location owner + k) = some (page * pageSize + k % pageSize) := by
  have hdiv : k / pageSize < 2 * ringbufSize := by
    simp only [bufCapacity, pageSize, ringbufSize] at *
    omega
  obtain ⟨page, hpage, hleaf⟩ := h.1 (k / pageSize) hdiv
  refine ⟨page, hpage, ?_⟩
  have hsplit : location owner + k = (owner.vbuf + k / pageSize) * pageSize + k % pageSize := by
    simp only [location, pageSize]
    omega
  rw [hsplit]
  refine byteAddress_page hleaf ?_ (Nat.mod_lt k (by decide))
  unfold windowSize at hle
  omega

theorem MapsRingbuf.circular (h : MapsRingbuf t owner pages)
    (hle : owner.vbook + windowSize ≤ maxVirtualPage) (hvbuf : owner.vbuf = owner.vbook + 1)
    (hnodup : pages.buf.Nodup) : Circular t (location owner) := by
  refine ⟨fun k hk => ?_, fun k hk => ?_, fun j k hjk hk heq => ?_⟩
  · obtain ⟨page, -, hbyte⟩ := h.byteAt hle hvbuf hk
    rw [hbyte]
    rfl
  · obtain ⟨page, hpage, hbyte⟩ := h.byteAt hle hvbuf hk
    obtain ⟨page', hpage', hbyte'⟩ := h.byteAt hle hvbuf
      (Nat.mod_lt (k + bufCapacity) (by decide : 2 * bufCapacity > 0))
    have hindex : (k + bufCapacity) % (2 * bufCapacity) / pageSize % ringbufSize =
        k / pageSize % ringbufSize := by
      simp only [bufCapacity, pageSize, ringbufSize] at *
      omega
    have hoffset : (k + bufCapacity) % (2 * bufCapacity) % pageSize = k % pageSize := by
      simp only [bufCapacity, pageSize] at *
      omega
    rw [hindex, hpage] at hpage'
    obtain rfl := Option.some.inj hpage'
    rw [hbyte, hbyte', hoffset]
  · obtain ⟨page, hpage, hbyte⟩ := h.byteAt hle hvbuf (show j < 2 * bufCapacity by omega)
    obtain ⟨page', hpage', hbyte'⟩ := h.byteAt hle hvbuf (show k < 2 * bufCapacity by omega)
    rw [hbyte, hbyte', Option.some.injEq] at heq
    have heq : (page : ℕ) * pageSize + j % pageSize = page' * pageSize + k % pageSize := heq
    simp only [pageSize] at heq
    have hoffset : j % 4096 = k % 4096 := by
      have h₁ := congrArg (· % 4096) heq
      simpa [Nat.mul_add_mod_self_right] using h₁
    obtain rfl : page = page' := by
      rw [hoffset, Nat.add_right_cancel_iff] at heq
      exact Nat.eq_of_mul_eq_mul_right (by decide) heq
    have hlt := (List.getElem?_eq_some_iff.mp hpage).1
    have hindex := (List.getElem?_inj hlt hnodup).mp (hpage.trans hpage'.symm)
    simp only [bufCapacity, pageSize, ringbufSize] at hindex hk
    omega

/-- Two owners of one ring buffer find the same byte, wherever it is mapped. -/
theorem MapsRingbuf.same (h : MapsRingbuf t owner pages) (h' : MapsRingbuf u owner' pages)
    (hle : owner.vbook + windowSize ≤ maxVirtualPage) (hvbuf : owner.vbuf = owner.vbook + 1)
    (hle' : owner'.vbook + windowSize ≤ maxVirtualPage) (hvbuf' : owner'.vbuf = owner'.vbook + 1)
    {k : ℕ} (hk : k < 2 * bufCapacity) :
    byteAddress u (location owner' + k) = byteAddress t (location owner + k) := by
  obtain ⟨page, hpage, hbyte⟩ := h.byteAt hle hvbuf hk
  obtain ⟨page', hpage', hbyte'⟩ := h'.byteAt hle' hvbuf' hk
  rw [hpage] at hpage'
  obtain rfl := Option.some.inj hpage'
  rw [hbyte, hbyte']

end Owner

/-! ## Processes with ring buffers anywhere -/

/-- The memory of processes whose ring buffers lie anywhere. The pages `left` are
those of opens that have failed halfway. -/
structure Viewed (left : Slot → ℕ → Prop) (total : Multiset Page) (s : State) : Prop where
  memory : InvariantBeside (fun i w => left i w ∨ s.windows i w) s.memory
  below : ∀ i w, left i w → w < maxVirtualPage
  beside : ∀ i w, left i w → ¬ s.windows i w
  apart : ∀ i : Slot, Apart (allOwners s.ringbufs) i
  count : ∀ i : Slot, (ownedPlaces (allOwners s.ringbufs) i).card ≤ (s.owned i).ownedRingbufsCount
  table : TableOk s.ringbufs
  maps : ∀ i t x pages, (s.memory.processes i).pageTable = some t →
    Owns (allOwners s.ringbufs) i x → (s.ringbufs x.1).pages = some pages →
    (allOwners s.ringbufs x).Maps t pages
  total : s.allPages = total

/-- An event names what it opens, and the names of the other ring buffers stay. -/
structure Follows (s : State) (event : Event) (s' : State) : Prop where
  names : ∀ k, 0 < (s.ringbufs k).refcount →
    (s'.ringbufs k).refcount = 0 ∨ (s'.ringbufs k).name = (s.ringbufs k).name
  owners : ∀ q x, Owns (allOwners s'.ringbufs) q x → Owns (allOwners s.ringbufs) q x ∨
    ∃ address memory, event = .openRingbuf q (s'.ringbufs x.1).name address memory

variable {left : Slot → ℕ → Prop} {total : Multiset Page} {s s' : State} {i : Slot} {t : PageTable}
  {event : Event}

theorem Apart.window_lt (h : ∀ i, Apart (allOwners s.ringbufs) i) {w : ℕ} (hw : s.windows i w) :
    w < maxVirtualPage := by
  obtain ⟨x, hx, -, hlt⟩ := hw
  have := (h i).le x hx
  omega

theorem Viewed.below_of (h : Viewed left total s) {w : ℕ} (hw : left i w ∨ s.windows i w) :
    w < maxVirtualPage :=
  hw.elim (h.below i w) (Apart.window_lt h.apart)

theorem Viewed.sited (h : Viewed left total s) (memory : PhysicalMemory)
    (ht : (s.memory.processes i).pageTable = some t) :
    Sited (fun w => userPages (s.memory.processes i).size w ∨ left i w) i (s.manager memory t) := by
  obtain ⟨hmapped, -, hbeside⟩ := (h.memory i).table t ht
  refine ⟨⟨?_, fun w hw => ?_, h.apart i, h.count i, fun k pages => (h.table.slot k).length pages⟩,
    h.table, fun x pages hx hp => ?_⟩
  · simp only [State.manager, ht, Option.getD_some]
    exact hmapped.congr (fun w _ => or_assoc)
  · rintro (huser | hleft)
    · exact hbeside w (.inr hw) huser
    · exact h.beside i w hleft hw
  · have := h.maps i t x pages ht hx hp
    simpa only [State.manager, ht, Option.getD_some] using this

/-- A call that keeps the leaves of the user pages and the pages together. -/
theorem leave_allPages {memory : PhysicalMemory} {r : RingbufManager.State Slot}
    (ht : (s.memory.processes i).pageTable = some t)
    (hle : pageCount (s.memory.processes i).size ≤ trapframePage)
    (huser : ∀ w < maxVirtualPage, userPages (s.memory.processes i).size w →
      (r.processes i).pageTable.leaf w = t.leaf w)
    (hconserved : r.allocator.pages + (r.processes i).pageTable.pages + ringPages r.ringbufs =
      (s.manager memory t).allocator.pages + t.pages + ringPages s.ringbufs) :
    (s.leave i r).allPages = s.allPages := by
  have hsum := ProcessMemory.sum_pages_update s.memory.processes i
    { s.memory.processes i with pageTable := some (r.processes i).pageTable }
  have hfrom : (r.processes i).pageTable.pagesFrom 0 (pageCount (s.memory.processes i).size) =
      t.pagesFrom 0 (pageCount (s.memory.processes i).size) := by
    refine PageTable.pagesFrom_congr (fun w _ hw => ?_)
    have hmax := PageTable.trapframePage_lt
    rw [PageTable.pagesAt, PageTable.pagesAt, huser w (by omega) (.inl (by omega))]
  have hbefore : (s.memory.processes i).pages = (s.memory.processes i).trapFrame.elim 0
      (fun page => {page}) + (t.pages + t.pagesFrom 0 (pageCount (s.memory.processes i).size)) +
      ProcessMemory.Process.execPages (s.memory.processes i).exec := by
    rw [ProcessMemory.Process.pages, ht, ProcessMemory.Process.tablePages_some]
  have hafter : ProcessMemory.Process.pages
      { s.memory.processes i with pageTable := some (r.processes i).pageTable } =
      (s.memory.processes i).trapFrame.elim 0 (fun page => {page}) +
      ((r.processes i).pageTable.pages +
        t.pagesFrom 0 (pageCount (s.memory.processes i).size)) +
      ProcessMemory.Process.execPages (s.memory.processes i).exec := by
    rw [ProcessMemory.Process.pages, ProcessMemory.Process.tablePages_some, hfrom]
  rw [hbefore, hafter] at hsum
  unfold State.allPages ProcessMemory.State.ownedPages
  simp only [State.leave]
  simp only [State.manager] at hconserved
  generalize ∑ j, (Function.update s.memory.processes i
    { s.memory.processes i with pageTable := some (r.processes i).pageTable } j).pages = new at *
  generalize ∑ j, (s.memory.processes j).pages = old at *
  ext x
  have h₁ := congrArg (Multiset.count x) hsum
  have h₂ := congrArg (Multiset.count x) hconserved
  simp only [Multiset.count_add] at *
  omega

/-- The pages beside the user pages and the windows. -/
def leftover (size : ℕ) (U : ℕ → Prop) (w : ℕ) : Prop :=
  w < maxVirtualPage ∧ U w ∧ ¬ userPages size w

theorem Viewed.leave (h : Viewed left total s) {memory : PhysicalMemory}
    (ht : (s.memory.processes i).pageTable = some t) {r : RingbufManager.State Slot} {U : ℕ → Prop}
    (hr : Kept (fun w => userPages (s.memory.processes i).size w ∨ left i w) U i
      (s.manager memory t) r) :
    Viewed (Function.update left i (leftover (s.memory.processes i).size U)) total
      (s.leave i r) := by
  have hothers : ∀ j, j ≠ i → Beside j s.ringbufs r.ringbufs := hr.others
  have htable : ((s.manager memory t).processes i).pageTable = t := by
    simp only [State.manager, ht, Option.getD_some]
  have hgood := hr.sited.good
  have hp := h.memory i
  obtain ⟨-, hle, -⟩ := hp.table t ht
  refine ⟨fun j => ?_, fun j w hw => ?_, fun j w hw => ?_, fun j => ?_, fun j => ?_, hr.sited.table,
    fun j u x pages hu hx hp => ?_, ?_⟩
  · by_cases hj : j = i
    · subst hj
      have hused : (s.memory.processes j).state ≠ .unused := by
        intro hs
        rw [(hp.unused hs).1] at ht
        cases ht
      simp only [State.leave, Function.update_self]
      refine ⟨fun hs => absurd hs hused, fun u hu => ⟨?_, hle, ?_⟩, fun _ => rfl, hp.trapFrame,
        hp.zombie, hp.exec⟩
      · obtain rfl := Option.some.inj hu
        refine hgood.table.congr fun w hw => ?_
        have hgrows := hr.grows w
        unfold leftover
        tauto
      · rintro w (hleft | hwindow) huser
        · exact hleft.2.2 huser
        · exact hgood.beside w hwindow (hr.grows w (.inl huser))
    · simp only [State.leave, Function.update_of_ne hj]
      refine okBeside_congr (fun w => ?_) (h.memory j)
      exact or_congr_right (hothers j hj).agree.windows_iff
  · by_cases hj : j = i
    · rw [hj, Function.update_self] at hw
      exact hw.1
    · rw [Function.update_of_ne hj] at hw
      exact h.below j w hw
  · by_cases hj : j = i
    · subst hj
      rw [Function.update_self] at hw
      exact fun hwindow => hgood.beside w hwindow hw.2.1
    · rw [Function.update_of_ne hj] at hw
      exact fun hwindow => h.beside j w hw ((hothers j hj).agree.windows_iff.mp hwindow)
  · by_cases hj : j = i
    · subst hj
      exact hgood.apart
    · exact (hothers j hj).agree.apart (h.apart j)
  · by_cases hj : j = i
    · subst hj
      simpa [State.leave] using hgood.count
    · simp only [State.leave, Function.update_of_ne hj, (hothers j hj).agree.ownedPlaces]
      exact h.count j
  · by_cases hj : j = i
    · subst hj
      simp only [State.leave, Function.update_self, Option.some.injEq] at hu
      subst hu
      exact hr.sited.maps x pages hx hp
    · simp only [State.leave, Function.update_of_ne hj] at hu
      obtain ⟨howner, hpages⟩ := hothers j hj x (.inr hx)
      have hown := (hothers j hj).agree.owns_iff.mp hx
      have hp : (r.ringbufs x.1).pages = some pages := hp
      rw [hpages] at hp
      have := h.maps j u x pages hu hown hp
      rwa [← howner] at this
  · rw [← h.total]
    have huser := hr.user
    have hconserved := hr.conserved
    rw [htable] at huser hconserved
    exact leave_allPages ht hle (fun w hw hin => huser w hw (.inl hin)) hconserved

/-- A step on memory that returns. -/
theorem Viewed.processStep (h : Viewed left total s) {event : ProcessMemory.Event}
    (hs : s.processStep event = .ok s') : Viewed left total s' ∧ s'.ringbufs = s.ringbufs ∧
      s'.owned = s.owned ∧ ∀ i, event.Frees i → s.OwnsNone i := by
  unfold State.processStep at hs
  split at hs
  · cases hs
  · cases hs
  next m hm =>
    obtain rfl := Except.ok.inj hs
    have hbare : ∀ i, event.Frees i → ∀ w, ¬ (left i w ∨ s.windows i w) := fun i hi _ =>
      ProcessMemory.frees_bare h.memory (fun _ => h.below_of) hm hi
    have hnone : ∀ i, event.Frees i → s.OwnsNone i := fun i hi =>
      ownsNone_iff.mpr fun w hw => hbare i hi w (.inr hw)
    have hone := ProcessMemory.step_stepOk h.memory event hbare
    rw [hm] at hone
    obtain (hd | ⟨m', heq, hinv, hpages⟩) | ⟨_, _, -, heq, -⟩ := hone
    · cases hd
    · obtain rfl := Except.ok.inj heq
      refine ⟨⟨hinv, h.below, h.beside, h.apart, h.count, h.table,
        fun j t x pages ht hx hp k page hk => ?_, ?_⟩, rfl, rfl, hnone⟩
      · have hlt : k < windowSize := by
          obtain ⟨hk', -⟩ := List.getElem?_eq_some_iff.mp hk
          have hbuf := (h.table.slot x.1).length pages hp
          simpa [RingPages.layout, hbuf, windowSize, RingbufManager.ringbufSize] using hk'
        have hwindow : s.windows j ((allOwners s.ringbufs x).vbook + k) :=
          ⟨x, hx, Nat.le_add_right _ _, Nat.add_lt_add_left hlt _⟩
        obtain ⟨t₀, ht₀, hleaf⟩ := ProcessMemory.step_leaf h.memory (.inr hwindow)
          (Apart.window_lt h.apart hwindow) (fun hfrees => hnone j hfrees x hx) hm ht
        rw [hleaf]
        exact h.maps j t₀ x pages ht₀ hx hp k page hk
      · rw [← h.total, State.allPages, State.allPages, hpages]
    · cases heq

theorem Follows.of_dwindles (h : Dwindles s.ringbufs s'.ringbufs) : Follows s event s' where
  names k _ := (h.slots k).imp_right And.right
  owners q x hx := .inl (h.owners q x hx)

theorem Follows.of_eq (h : s'.ringbufs = s.ringbufs) : Follows s event s' :=
  .of_dwindles (h ▸ .refl _)

theorem Viewed.disownRingbufs (h : Viewed left total s) (hs : s.disownRingbufs i = .ok s') :
    ∃ left', Viewed left' total s' ∧ Dwindles s.ringbufs s'.ringbufs := by
  unfold State.disownRingbufs at hs
  split at hs
  · obtain ⟨t, r, ht, hr, rfl⟩ := call_ok hs
    obtain ⟨hkept, hdwindles⟩ := (h.sited _ ht).disownAll_ok hr
    exact ⟨_, h.leave ht hkept, hdwindles⟩
  · obtain rfl := Except.ok.inj hs
    exact ⟨left, h, .refl _⟩

theorem Viewed.free (h : Viewed left total s) (hs : s.free i = .ok s') :
    ∃ left', Viewed left' total s' ∧ Dwindles s.ringbufs s'.ringbufs := by
  unfold State.free at hs
  simp only [bind, Except.bind] at hs
  split at hs
  · cases hs
  next s₁ h₁ =>
    split at hs
    · cases hs
    next s₂ h₂ =>
      obtain rfl := Except.ok.inj hs
      obtain ⟨left', hviewed, hdwindles⟩ := h.disownRingbufs h₁
      obtain ⟨hviewed', hrings, -, hnone⟩ := hviewed.processStep h₂
      refine ⟨left', ⟨hviewed'.memory, hviewed'.below, hviewed'.beside, hviewed'.apart,
        fun j => ?_, hviewed'.table, hviewed'.maps, hviewed'.total⟩, hrings ▸ hdwindles⟩
      by_cases hj : j = i
      · subst hj
        have hempty : ownedPlaces (allOwners s₂.ringbufs) j = ∅ :=
          Finset.filter_eq_empty_iff.mpr fun x _ hx => hnone j rfl x (hrings ▸ hx)
        rw [hempty, Finset.card_empty]
        exact Nat.zero_le _
      · simp only [Function.update_of_ne hj]
        exact hviewed'.count j

/-- An open that returns. -/
theorem Viewed.openRingbuf (h : Viewed left total s) {name : List UInt8} {address : ℕ}
    {memory : PhysicalMemory} (ht : (s.memory.processes i).pageTable = some t) (hname : 0 ∉ name)
    (hclean : RingbufManager.Clean (s.manager memory t) i name)
    {result : Except RingbufManager.RingbufError Unit} {r : RingbufManager.State Slot}
    (hr : (s.manager memory t).openRingbuf i name address = .ok (result, r)) :
    (∃ left', Viewed left' total (s.leave i r)) ∧
      Follows s (.openRingbuf i name address memory) (s.leave i r) ∧
      (result = .ok () → ∃ x, RingbufManager.OpensAt (s.manager memory t) i name address r x) := by
  obtain ⟨⟨U, hkept⟩, hresult⟩ := (h.sited memory ht).openRingbuf_ok hname hclean hr
  refine ⟨⟨_, h.leave ht hkept⟩, ⟨hkept.names, fun q x hx => ?_⟩, fun hok => ?_⟩
  · by_cases hq : q = i
    · subst hq
      obtain ⟨-, hold⟩ | ⟨-, y, hopens⟩ := hresult
      · exact .inl (hold x hx)
      · by_cases hxy : x = y
        · subst hxy
          have hnamed : (r.ringbufs x.1).name = name := hopens.named
          exact .inr ⟨address, memory, by rw [← hnamed]; rfl⟩
        · left
          have hx : Owns (allOwners r.ringbufs) q x := hx
          rw [Owns, hopens.other x hxy] at hx
          exact hx
    · exact .inl ((hkept.others q hq).agree.owns_iff.mp hx)
  · obtain ⟨⟨e, he⟩, -⟩ | ⟨-, hopens⟩ := hresult
    · rw [he] at hok
      cases hok
    · exact hopens

/-- A name holds no terminator. -/
def Event.Named : Event → Prop
  | .openRingbuf _ name _ _ => 0 ∉ name
  | _ => True

theorem Viewed.step (h : Viewed left total s) (hnamed : event.Named) (hclean : event.Clean s)
    (hs : ProcessRingbufs.step s event = .ok s') :
    (∃ left', Viewed left' total s') ∧ Follows s event s' := by
  unfold ProcessRingbufs.step at hs
  split at hs
  · split at hs
    · obtain ⟨left', hviewed, hdwindles⟩ := h.free hs
      exact ⟨⟨left', hviewed⟩, .of_dwindles hdwindles⟩
    · cases hs
  next event' _ =>
    obtain ⟨hviewed, hrings, -⟩ := h.processStep hs
    exact ⟨⟨left, hviewed⟩, .of_eq hrings⟩
  next i name address memory =>
    split at hs
    · obtain ⟨t, r, ht, hr, rfl⟩ := call_ok hs
      cases hopen : (s.manager memory t).openRingbuf i name address with
      | error q =>
        rw [hopen] at hr
        cases hr
      | ok result =>
        rw [hopen] at hr
        obtain rfl := Except.ok.inj hr
        obtain ⟨hviewed, hfollows, -⟩ := h.openRingbuf ht hnamed (hclean t ht) hopen
        exact ⟨hviewed, hfollows⟩
    · cases hs
  next i name address memory =>
    split at hs
    · obtain ⟨t, r, ht, hr, rfl⟩ := call_ok hs
      cases hclose : (s.manager memory t).closeRingbuf i name address with
      | error q =>
        rw [hclose] at hr
        cases hr
      | ok result =>
        rw [hclose] at hr
        obtain rfl := Except.ok.inj hr
        obtain ⟨hkept, hdwindles⟩ := (h.sited memory ht).closeRingbuf_ok hclose
        exact ⟨⟨_, h.leave ht hkept⟩, .of_dwindles hdwindles⟩
    · cases hs

/-- The names by which the places are open after an event. -/
def Event.names (s : State) (event : Event) (s' : State) (names : Place → List UInt8) :
    Place → List UInt8 :=
  match event with
  | .openRingbuf i name _ _ => fun x =>
    if Owns (allOwners s'.ringbufs) i x ∧ ¬ Owns (allOwners s.ringbufs) i x then name else names x
  | _ => names

/-- A step, with the names by which the places are open. -/
def namedStep (s : State × (Place → List UInt8)) (event : Event) :
    Option (State × (Place → List UInt8)) :=
  (step s.1 event).toOption.map (fun s' => (s', event.names s.1 s' s.2))

/-- What the owners see of their ring buffers. -/
structure Views (s : State) (names : Place → List UInt8) : Prop where
  mapped : ∀ (i : Slot) x, Owns (allOwners s.ringbufs) i x → ∃ t pages,
    (s.memory.processes i).pageTable = some t ∧ (s.ringbufs x.1).pages = some pages ∧
      Circular t (location (allOwners s.ringbufs x)) ∧
      BookAt t (location (allOwners s.ringbufs x)) pages.book
  /-- Two owners of one name share its memory. -/
  shared : ∀ (i j : Slot) x y t u, Owns (allOwners s.ringbufs) i x →
    Owns (allOwners s.ringbufs) j y → names x = names y →
    (s.memory.processes i).pageTable = some t → (s.memory.processes j).pageTable = some u →
    (∀ k < 2 * bufCapacity, byteAddress t (location (allOwners s.ringbufs x) + k) =
      byteAddress u (location (allOwners s.ringbufs y) + k)) ∧
    ∃ book, BookAt t (location (allOwners s.ringbufs x)) book ∧
      BookAt u (location (allOwners s.ringbufs y)) book

/-- The slot of an owner has the name by which it was opened. -/
def Named (s : State) (names : Place → List UInt8) : Prop :=
  ∀ (i : Slot) x, Owns (allOwners s.ringbufs) i x → (s.ringbufs x.1).name = names x

variable {names names₀ : Place → List UInt8}

theorem Follows.named (h : Follows s event s') (htable : TableOk s.ringbufs)
    (htable' : TableOk s'.ringbufs) (hnamed : Named s names) :
    Named s' (event.names s s' names) := by
  intro q x hx
  obtain hold | ⟨address, memory, rfl⟩ := h.owners q x hx
  · have hname : (s'.ringbufs x.1).name = names x := by
      have hpos := (htable'.slot x.1).pos hx
      rw [(h.names x.1 ((htable.slot x.1).pos hold)).resolve_left hpos.ne', hnamed q x hold]
    rw [hname]
    unfold Event.names
    split
    next i name address memory =>
      rw [if_neg]
      rintro ⟨hi, hnot⟩
      obtain rfl := Option.some.inj (hi.symm.trans hx)
      exact hnot hold
    · rfl
  · by_cases hold : Owns (allOwners s.ringbufs) q x
    · have hpos := (htable'.slot x.1).pos hx
      simp only [Event.names, hold, not_true_eq_false, and_false, if_false]
      rw [(h.names x.1 ((htable.slot x.1).pos hold)).resolve_left hpos.ne', hnamed q x hold]
    · simp only [Event.names, hx, hold, not_false_eq_true, and_self, if_true]

/-! ## Runs -/

variable {s₀ : State} {events : List Event}

/-- Two processes open the ring buffer "c" of one of them. -/
def openBy (i : Slot) (name : List UInt8) : Event := .openRingbuf i name 0 (fun _ => 0)

/-- Memory runs out for the ring buffer "ab", and is given back. Then a process and
its child open "c". -/
def openedTwice : List Event :=
  [firstUser, .process (.changeProcessSize 0 (40 * 4096)), openBy 0 [97, 98],
    .process (.changeProcessSize 0 (-(40 * 4096))), .process (.fork 0 1), openBy 0 [99],
    openBy 1 [99]]

/-- The first bytes of the two ring buffers that were opened as one. -/
def SharesNothing (r : State × (Place → List UInt8)) : Bool :=
  Owns (allOwners r.1.ringbufs) 0 (0, 0) && Owns (allOwners r.1.ringbufs) 1 (1, 0) &&
    r.2 (0, 0) = r.2 (1, 0) &&
    (r.1.memory.processes 0).pageTable.any fun t => (r.1.memory.processes 1).pageTable.any fun u =>
      byteAddress t (location (allOwners r.1.ringbufs (0, 0))) ≠
        byteAddress u (location (allOwners r.1.ringbufs (1, 0)))

/-- The first open of "c" takes a ring buffer that is called "cb" from then on. -/
theorem ringbufs_unshared : boot.Initial ∧ boot.memory.allocator.free.Nodup ∧
    (∀ e ∈ openedTwice, e.Named) ∧ ∃ s names,
      Transition.run namedStep (boot, fun _ => []) openedTwice = some (s, names) ∧
        ¬ Views s names := by
  have hrun : (Transition.run namedStep (boot, fun _ => []) openedTwice).any SharesNothing =
      true := by
    decide +kernel
  obtain ⟨⟨s, names⟩, hs, hnothing⟩ := (Option.any_eq_true _ _).mp hrun
  refine ⟨boot_initial, List.nodup_range', ?_, s, names, hs, fun hviews => ?_⟩
  · simp [openedTwice, firstUser, openBy, Event.Named]
  · simp only [SharesNothing, Bool.and_eq_true, decide_eq_true_eq] at hnothing
    obtain ⟨⟨⟨hx, hy⟩, hnames⟩, htables⟩ := hnothing
    obtain ⟨t, ht, htables⟩ := (Option.any_eq_true _ _).mp htables
    obtain ⟨u, hu, hbytes⟩ := (Option.any_eq_true _ _).mp htables
    have hsame := (hviews.shared 0 1 (0, 0) (1, 0) t u hx hy hnames ht hu).1 0 (by decide)
    exact absurd hsame (by simpa using hbytes)

end Zigmaos.ProcessRingbufs
