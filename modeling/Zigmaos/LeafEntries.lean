import Zigmaos.ProcessMemoryInvariant

/-!
# Leaf and branch entries

`isBranch` tells an entry for a page from an entry for a lower table by the
permissions alone. Here `exec` takes the permissions of a segment as the file
has them, which may be none at all, and the question is which entries then are
in a table and what `unmap` and `freeWalk` make of them.
-/
namespace Zigmaos.Memory

/-- The entry that `walk` stores for a page-table page. -/
def Node.asEntry {ε : Type} (n : Node ε) : PageTableEntry := ⟨.none, false, n.page⟩

namespace PageTable

/-- `isBranch` says of every valid entry, level by level, whether it points to a table. -/
structure Classified (t : PageTable) : Prop where
  root : ∀ i b, t.entries i = some b → b.asEntry.isBranch = true
  branch : ∀ i j b l, t.entries i = some b → b.entries j = some l → l.asEntry.isBranch = true
  leaf : ∀ i j k b l pte, t.entries i = some b → b.entries j = some l →
    l.entries k = some pte → pte.isBranch = false

theorem Mapped.classified {t : PageTable} {S : ℕ → Prop} (h : t.Mapped S) : t.Classified where
  root _ _ _ := rfl
  branch _ _ _ _ _ _ := rfl
  leaf i j k b l pte hb hl hp := by
    have hi : i.val < 256 := by
      by_contra hge
      rw [h.upper i (by omega)] at hb
      cases hb
    obtain ⟨v, hv, hroot, hbranch, hleaf⟩ := exists_pageIndex i j k hi
    refine h.permissions v hv pte ?_
    simp [PageTable.leaf, PageTable.lookup, hroot, hbranch, hleaf, hb, hl, hp]

/-- The first page that `alloc` adds gets mapped. -/
def mapsPage (t : PageTable) (a : Allocator) (oldSize newSize : ℕ) : Bool :=
  decide (pageCount oldSize < pageCount newSize) &&
    match a.allocPage with
    | (none, _) => false
    | (some page, a) => decide ((t.map a (pageCount oldSize) page .none true).1 = .ok)

variable {t : PageTable} {a : Allocator} {v : ℕ} {page : Page} {user : Bool}

/-- Where a mapping fails, the permissions do not matter. -/
theorem map_congr {p q : PagePermissions} (h : (t.map a v page p user).1 ≠ .ok) :
    t.map a v page q user = t.map a v page p user := by
  unfold map at h ⊢
  split
  · rfl
  next t' a' hw =>
    rw [hw] at h
    by_cases hleaf : (t'.leaf v).isSome
    · simp [hleaf]
    · simp [hleaf] at h

/-- Where no page is mapped, `alloc` does the same with any permissions. -/
theorem alloc_congr {oldSize newSize : ℕ} {q : PagePermissions}
    (h : t.mapsPage a oldSize newSize = false) :
    t.alloc a oldSize newSize .none = t.alloc a oldSize newSize q := by
  unfold alloc
  by_cases hsize : newSize < oldSize
  · simp [hsize]
  · rw [if_neg hsize, if_neg hsize]
    cases hn : pageCount newSize - pageCount oldSize with
    | zero => rfl
    | succ n =>
      have hlt : pageCount oldSize < pageCount newSize := by omega
      have hpages : allocPages oldSize .none t a (pageCount oldSize) (n + 1) =
          allocPages oldSize q t a (pageCount oldSize) (n + 1) := by
        simp only [mapsPage, hlt, decide_true, Bool.true_and] at h
        unfold allocPages
        split
        · rfl
        next page a' hpage =>
          rw [hpage] at h
          have hne : (t.map a' (pageCount oldSize) page .none true).1 ≠ .ok := by simpa using h
          rw [map_congr (q := q) hne]
          split
          · rfl
          · split
            next hok => rw [hok] at hne; exact absurd rfl hne
            · rfl
      rw [hpages]

end PageTable
end Zigmaos.Memory

namespace Zigmaos.ProcessMemory
open Memory

/-- `step`, with segments of any permissions. -/
def fileStep (s : State) : Event → Except Fault State
  | .execSegment i newSize permissions =>
    match (s.processes i).exec with
    | some e =>
      if e.pageTable.isSome ∧ e.ready = false then
        s.apply i ((s.processes i).execSegment e newSize permissions s.allocator)
      else .error .disabled
    | none => .error .disabled
  | event => step s event

/-- The segment has a permission, or no page is mapped for it. -/
def Event.Permitted (s : State) : Event → Prop
  | .execSegment i newSize permissions => permissions ≠ .none ∨
    ∀ e t, (s.processes i).exec = some e → e.pageTable = some t →
      t.mapsPage s.allocator e.programSize newSize = false
  | _ => True

/-- The states that the events lead through, each event permitted. -/
def PermittedRun (s₀ : State) (events : List Event) : Prop :=
  ∀ es e s, es ++ [e] <+: events →
    Transition.run (fun s e => (fileStep s e).toOption) s₀ es = some s → e.Permitted s

variable {s s' : State}

theorem execSegment_congr {p : Process} {e : Exec} {newSize : ℕ} {a : Allocator}
    {q : PagePermissions}
    (h : ∀ t, e.pageTable = some t → t.mapsPage a e.programSize newSize = false) :
    p.execSegment e newSize .none a = p.execSegment e newSize q a := by
  unfold Process.execSegment
  cases ht : e.pageTable with
  | none => rfl
  | some t => simp only [PageTable.alloc_congr (q := q) (h t ht)]

/-- A permitted step is one of a segment that has a permission. -/
theorem fileStep_eq_step {event : Event} (h : event.Permitted s) :
    ∃ event', fileStep s event = step s event' ∧
      ∀ i, event' = .initFirstUser i → event = .initFirstUser i := by
  cases event with
  | execSegment i newSize permissions =>
    have hdata : ∀ p : PagePermissions, p ≠ .none →
        fileStep s (.execSegment i newSize p) = step s (.execSegment i newSize p) := by
      intro p hp
      simp only [fileStep, step]
      cases (s.processes i).exec with
      | none => rfl
      | some e => simp [hp]
    by_cases hp : permissions = .none
    · subst hp
      refine ⟨.execSegment i newSize .data, ?_, by simp⟩
      rw [← hdata .data (by decide)]
      simp only [fileStep]
      cases he : (s.processes i).exec with
      | none => rfl
      | some e =>
        have hmaps := h.resolve_left (by simp)
        simp only [execSegment_congr (q := .data) fun t ht => hmaps e t he ht]
    · exact ⟨.execSegment i newSize permissions, hdata permissions hp, by simp⟩
  | _ => exact ⟨_, rfl, fun _ => id⟩

theorem invariant_fileStep (h : Invariant s) {event : Event} (hp : event.Permitted s)
    (hs : fileStep s event = .ok s') : Invariant s' := by
  obtain ⟨event', heq, _⟩ := fileStep_eq_step hp
  rw [heq] at hs
  exact (step_conserves h hs).1

theorem invariant_fileRun {s₀ : State} {events : List Event} (h₀ : s₀.Initial)
    (hp : PermittedRun s₀ events)
    (hrun : Transition.run (fun s e => (fileStep s e).toOption) s₀ events = some s) :
    Invariant s := by
  refine Transition.run_induction (P := fun es s => PermittedRun s₀ es → Invariant s) ?_ ?_
    events s hrun hp
  · intro _ i
    rw [h₀ i]
    exact .of_unused
  · intro es s e s' hes hinv he hperm
    have hs := hinv fun es' e' t h => hperm es' e' t (h.trans (List.prefix_append es [e]))
    cases hstep : fileStep s e with
    | error f =>
      rw [hstep] at he
      cases he
    | ok s'' =>
      rw [hstep] at he
      obtain rfl := Option.some.inj he
      exact invariant_fileStep hs (hperm es e s (List.prefix_refl _) hes) hstep

/-- After the boot no permitted step panics, whether a table is unmapped or freed. -/
theorem fileStep_no_panic (h : Invariant s) {event : Event} (hp : event.Permitted s)
    (q : Memory.Panic) : fileStep s event ≠ .error (.panic (.memory q)) := by
  intro hs
  obtain ⟨event', heq, _⟩ := fileStep_eq_step hp
  rw [heq] at hs
  have hnone : ∀ i : Slot, ∀ w : ℕ, ¬ (fun _ _ => False) i w := fun _ _ => id
  obtain (hd | ⟨s', hok, -⟩) | ⟨i, p, -, hboot, hq⟩ :=
    step_stepOk ((invariantBeside_iff hnone).mpr h) event' (fun i _ => hnone i)
  · rw [hd] at hs
    cases hs
  · rw [hok] at hs
    cases hs
  · rw [hboot] at hs
    cases hs
    exact hq q rfl

/-- In a run in which every segment that maps a page has a permission, the
entries of every table are told apart by their permissions, and no unmapping and
no freeing of a table panics. -/
theorem leaves_classified {s₀ : State} {events : List Event} (h₀ : s₀.Initial)
    (hp : PermittedRun s₀ events)
    (hrun : Transition.run (fun s e => (fileStep s e).toOption) s₀ events = some s) :
    (∀ i t, (s.processes i).pageTable = some t → t.Classified) ∧
    (∀ i e t, (s.processes i).exec = some e → e.pageTable = some t → t.Classified) ∧
    ∀ event q, event.Permitted s → fileStep s event ≠ .error (.panic (.memory q)) := by
  have hinv := invariant_fileRun h₀ hp hrun
  refine ⟨fun i t ht => ?_, fun i e t he ht => ?_, fun event q h => fileStep_no_panic hinv h q⟩
  · exact ((hinv i).table t ht).1.classified
  · exact (((hinv i).exec e he).table t ht).1.classified

/-- A program of one page, whose segment has the permissions; it exits and is reaped. -/
def program (permissions : PagePermissions) : List Event :=
  [.initFirstUser 0, .execStart 0, .execCreate 0, .execSegment 0 4096 permissions, .execStack 0,
    .execCommit 0, .exit 0]

/-- A leaf that is taken for a branch. -/
def State.confused (s : State) (i : Slot) (v : ℕ) : Bool :=
  match (s.processes i).pageTable with
  | none => false
  | some t => (t.leaf v).elim false (fun pte => pte.isBranch)

theorem State.confused_spec {i : Slot} {v : ℕ} (h : s.confused i v = true) :
    ∃ t pte, (s.processes i).pageTable = some t ∧ t.leaf v = some pte ∧ pte.isBranch = true := by
  unfold confused at h
  cases ht : (s.processes i).pageTable with
  | none => simp [ht] at h
  | some t =>
    cases hp : t.leaf v with
    | none => simp [ht, hp] at h
    | some pte => exact ⟨t, pte, rfl, hp, by simpa [ht, hp] using h⟩

theorem not_classified {t : PageTable} {v : ℕ} {pte : PageTableEntry}
    (hp : t.leaf v = some pte) (hb : pte.isBranch = true) : ¬ t.Classified := by
  intro h
  unfold PageTable.leaf PageTable.lookup at hp
  cases hr : t.entries (pageIndex v .root) with
  | none => simp [hr] at hp
  | some b =>
    cases hl : b.entries (pageIndex v .branch) with
    | none => simp [hr, hl] at hp
    | some l =>
      have := h.leaf _ _ _ b l pte hr hl (by simpa [hr, hl] using hp)
      rw [hb] at this
      cases this

/-- The flags of the segment are zero: `exec` succeeds, and the process cannot be reaped. -/
theorem zero_flags_confused :
    ∃ s, Transition.run (fun s e => (fileStep s e).toOption) boot (program .none) = some s ∧
      (∃ t, (s.processes 0).pageTable = some t ∧ ¬ t.Classified) ∧
      fileStep s (.reap 0) = .error (.panic (.memory .uvmUnmapNotALeaf)) := by
  have hrun : (Transition.run (fun s e => (fileStep s e).toOption) boot (program .none)).any
      (fun s => s.confused 0 0 && match fileStep s (.reap 0) with
        | .error f => decide (f = .panic (.memory .uvmUnmapNotALeaf))
        | .ok _ => false) = true := by decide +kernel
  obtain ⟨s, hs, h⟩ := (Option.any_eq_true _ _).mp hrun
  obtain ⟨hc, hreap⟩ := (Bool.and_eq_true _ _).mp h
  obtain ⟨t, pte, ht, hp, hb⟩ := State.confused_spec hc
  refine ⟨s, hs, ⟨t, ht, not_classified hp hb⟩, ?_⟩
  cases hf : fileStep s (.reap 0) with
  | error f =>
    rw [hf] at hreap
    rw [of_decide_eq_true hreap]
  | ok s' =>
    rw [hf] at hreap
    cases hreap

/-- With flags that let the segment be read and executed. -/
theorem leaves_classified_program :
    ∃ s, Transition.run (fun s e => (fileStep s e).toOption) boot (program .code) = some s ∧
      ∀ i t, (s.processes i).pageTable = some t → t.Classified := by
  have hrun : (Transition.run (fun s e => (fileStep s e).toOption) boot (program .code)).isSome := by
    decide +kernel
  obtain ⟨s, hs⟩ := Option.isSome_iff_exists.mp hrun
  have hp : PermittedRun boot (program .code) := by
    intro es e s' he _
    have hm : e ∈ program .code := he.subset (by simp)
    simp only [program, List.mem_cons, List.not_mem_nil, or_false] at hm
    obtain rfl | rfl | rfl | rfl | rfl | rfl | rfl := hm
    case inr.inr.inr.inl => exact .inl (by decide)
    all_goals exact trivial
  exact ⟨s, hs, (leaves_classified (fun _ => rfl) hp hs).1⟩

end Zigmaos.ProcessMemory
