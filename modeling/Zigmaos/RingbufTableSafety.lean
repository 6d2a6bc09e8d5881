import Zigmaos.ProcessRingbufsInvariant
import Zigmaos.RingbufTableOpen

/-!
# The ring buffers of all processes

The table of ring buffers, the page tables of the processes and the free list
together, over runs of processes that are created, open and close ring buffers,
fork, exit and are reaped.
-/
namespace Zigmaos.ProcessRingbufs
open Memory
open Memory.PageTable (userPages)
open ProcessMemory (Slot)
open RingbufManager (allOwners ownedPlaces Owns Agree Beside Managed Called Returned Region
  TableOk RingPages ringPages Keeps ringbufSize windowSize)

/-- The free pages, those of the processes and those of the ring buffers. -/
def State.allPages (s : State) : Multiset Page :=
  s.memory.allocator.pages + s.memory.ownedPages + ringPages s.ringbufs

structure RingInvariant (total : Multiset Page) (s : State) : Prop where
  processes : Invariant s
  table : TableOk s.ringbufs
  region : ∀ i, Region (allOwners s.ringbufs) i (s.owned i).ownedRingbufsCount
    (s.owned i).topFreeVirtualPage
  maps : ∀ i t x pages, (s.memory.processes i).pageTable = some t → Owns (allOwners s.ringbufs) i x →
    (s.ringbufs x.1).pages = some pages → (allOwners s.ringbufs x).Maps t pages
  total : s.allPages = total

variable {s s' : State} {i : Slot} {t : PageTable} {total : Multiset Page}

theorem RingInvariant.managed (h : RingInvariant total s) (memory : PhysicalMemory)
    (ht : (s.memory.processes i).pageTable = some t) :
    Managed (userPages (s.memory.processes i).size) i (s.manager memory t) where
  good := h.processes.good memory ht
  table := h.table
  region := h.region i
  maps x pages hx hp := by
    have := h.maps i t x pages ht hx hp
    simpa only [State.manager, ht, Option.getD_some] using this

theorem region_of_agree {f g : RingbufManager.Place → RingbufManager.Owner Slot} {count top : ℕ}
    (hagree : Agree i f g) (h : Region f i count top) : Region g i count top where
  count := by
    rw [hagree.ownedPlaces]
    exact h.count
  aligned := h.aligned
  above x hx := by
    rw [hagree x (.inr hx)]
    exact h.above x (hagree.owns_iff.mp hx)

/-- A call of the process in slot `i` that keeps its user pages. -/
theorem RingInvariant.leave (h : RingInvariant total s) (memory : PhysicalMemory)
    (ht : (s.memory.processes i).pageTable = some t) {r : RingbufManager.State Slot}
    (hr : Called (userPages (s.memory.processes i).size) i (s.manager memory t) r) :
    RingInvariant total (s.leave i r) := by
  have hkeeps : Keeps (userPages (s.memory.processes i).size) i (s.manager memory t) r :=
    ⟨hr.managed.good, fun q hq => (hr.others q hq).agree⟩
  have hothers : ∀ j, j ≠ i → Beside j s.ringbufs r.ringbufs := hr.others
  have htable : ((s.manager memory t).processes i).pageTable = t := by
    simp only [State.manager, ht, Option.getD_some]
  refine ⟨h.processes.leave ht hkeeps, hr.managed.table, fun j => ?_, fun j u x pages hu hx hp => ?_, ?_⟩
  · by_cases hj : j = i
    · subst hj
      simpa [State.leave] using hr.managed.region
    · simp only [State.leave, Function.update_of_ne hj]
      exact region_of_agree (hothers j hj).agree (h.region j)
  · by_cases hj : j = i
    · subst hj
      simp only [State.leave, Function.update_self, Option.some.injEq] at hu
      subst hu
      exact hr.managed.maps x pages hx hp
    · simp only [State.leave, Function.update_of_ne hj] at hu
      obtain ⟨howner, hpages⟩ := hothers j hj x (.inr hx)
      have hown := (hothers j hj).agree.owns_iff.mp hx
      have hp : (r.ringbufs x.1).pages = some pages := hp
      rw [hpages] at hp
      have := h.maps j u x pages hu hown hp
      rwa [← howner] at this
  · have hsum := ProcessMemory.sum_pages_update s.memory.processes i
      { s.memory.processes i with pageTable := some (r.processes i).pageTable }
    have hconserved := hr.conserved
    have htotal := h.total
    obtain ⟨hmapped, hle, -⟩ := (h.processes.memory i).table t ht
    have hfrom : (r.processes i).pageTable.pagesFrom 0 (pageCount (s.memory.processes i).size) =
        t.pagesFrom 0 (pageCount (s.memory.processes i).size) := by
      refine PageTable.pagesFrom_congr (fun w _ hw => ?_)
      have hmax := PageTable.trapframePage_lt
      have huser := hr.user w (by omega) (.inl (by omega))
      rw [htable] at huser
      rw [PageTable.pagesAt, PageTable.pagesAt, huser]
    rw [htable] at hconserved
    have hbefore : (s.memory.processes i).pages = (s.memory.processes i).trapFrame.elim 0
        (fun page => {page}) + (t.pages + t.pagesFrom 0 (pageCount (s.memory.processes i).size)) +
        ProcessMemory.Process.execPages (s.memory.processes i).exec := by
      rw [ProcessMemory.Process.pages, ht, ProcessMemory.Process.tablePages_some]
    have hafter : ProcessMemory.Process.pages
        { s.memory.processes i with pageTable := some (r.processes i).pageTable } =
        (s.memory.processes i).trapFrame.elim 0 (fun page => {page}) +
        ((r.processes i).pageTable.pages +
          t.pagesFrom 0 (pageCount (s.memory.processes i).size)) +
        ProcessMemory.Process.execPages (s.memory.processes i).exec := by
      rw [ProcessMemory.Process.pages, ProcessMemory.Process.tablePages_some, hfrom]
    rw [hbefore, hafter] at hsum
    rw [← htotal]
    unfold State.allPages ProcessMemory.State.ownedPages
    simp only [State.leave]
    simp only [State.manager] at hconserved
    generalize ∑ j, (Function.update s.memory.processes i
      { s.memory.processes i with pageTable := some (r.processes i).pageTable } j).pages = new at *
    generalize ∑ j, (s.memory.processes j).pages = old at *
    ext x
    have h₁ := congrArg (Multiset.count x) hsum
    have h₂ := congrArg (Multiset.count x) hconserved
    simp only [Multiset.count_add] at *
    omega

/-- What a call of `ringbuf.zig` that returns is made of. -/
theorem call_ok {memory : PhysicalMemory}
    {f : RingbufManager.State Slot → Except RingbufManager.Panic (RingbufManager.State Slot)}
    (hs : s.call i memory f = .ok s') : ∃ t r, (s.memory.processes i).pageTable = some t ∧
      f (s.manager memory t) = .ok r ∧ s' = s.leave i r := by
  unfold State.call at hs
  split at hs
  · exact absurd hs nofun
  next t ht =>
    split at hs
    · exact absurd hs nofun
    next r hr =>
      obtain rfl := Except.ok.inj hs
      exact ⟨t, r, ht, hr, rfl⟩

/-! ## Calls on memory -/

/-- No open activates a slot that holds a longer name. -/
def Event.Clean (s : State) : Event → Prop
  | .openRingbuf i name _ memory => ∀ t, (s.memory.processes i).pageTable = some t →
    RingbufManager.Clean (s.manager memory t) i name
  | _ => True

/-- The process maps the pages of a ring buffer twice at `vbuf`, from the last
page to the first, and its book at `vbook`. -/
def MapsRingbuf (t : PageTable) (owner : RingbufManager.Owner Slot) (pages : RingPages) : Prop :=
  (∀ k < 2 * ringbufSize, ∃ page, pages.buf[ringbufSize - 1 - k % ringbufSize]? = some page ∧
    t.leaf (owner.vbuf + k) = some ⟨.data, true, page⟩) ∧
  t.leaf owner.vbook = some ⟨.data, true, pages.book⟩

end Zigmaos.ProcessRingbufs
