import Zigmaos.VirtualMemoryInvariant

/-!
# The pages that a page table needs

Where it is known which nodes a table will have, each page that a walk takes from the
free list is one of those that were missing. So there are enough pages for a range
exactly if there are as many as nodes are missing.
-/
namespace Zigmaos.VirtualMemory
open Memory (Page Index Level Allocator pageSize PagePermissions maxVirtualPage)
open PageTableEntry RadixTree

variable {root : Page} {m m' m'' : Machine} {paths : List (List Index)}

/-- The paths of a table that is to be built. -/
structure Planned (paths : List (List Index)) : Prop where
  nodup : paths.Nodup
  short : ∀ is ∈ paths, is.length ≤ 2

/-- How many of the nodes do not exist yet. -/
def missing (paths : List (List Index)) (root : Page) (m : Machine) : ℕ :=
  paths.countP (fun is => (m.node root is).isNone)

/-- Every page that is taken from the list becomes a planned node. -/
structure Grown (paths : List (List Index)) (root : Page) (m m' : Machine) : Prop where
  spent : m'.allocator.free.length + missing paths root m =
    m.allocator.free.length + missing paths root m'
  suffix : m'.allocator.free <:+ m.allocator.free
  fails : m'.allocator.fails = m.allocator.fails
  end_eq : m'.kernelEndAddress = m.kernelEndAddress
  nodes : ∀ is q, is.length ≤ 2 → m'.node root is = some q → m.node root is = some q ∨
    q ∈ m.allocator.free ∧ q ∉ m'.allocator.free

theorem Grown.refl (paths : List (List Index)) (root : Page) (m : Machine) :
    Grown paths root m m :=
  ⟨rfl, List.suffix_rfl, rfl, rfl, fun _ _ _ h => .inl h⟩

theorem Grown.trans (h : Grown paths root m m') (h' : Grown paths root m' m'') :
    Grown paths root m m'' where
  spent := by
    have hspent := h.spent
    have hspent' := h'.spent
    omega
  suffix := h'.suffix.trans h.suffix
  fails := h'.fails.trans h.fails
  end_eq := h'.end_eq.trans h.end_eq
  nodes is q his hq := by
    rcases h'.nodes is q his hq with hold | ⟨hfree, htaken⟩
    · rcases h.nodes is q his hold with hold | ⟨hfree, htaken⟩
      · exact .inl hold
      · exact .inr ⟨hfree, fun hmem => htaken (h'.suffix.mem hmem)⟩
    · exact .inr ⟨h.suffix.mem hfree, htaken⟩

theorem Planned.missing_setEntry (hplan : Planned paths) (h : Separated root m) {v : ℕ} {p : Page}
    (hp : m.node root (path v) = some p) (k : Index) (e : PageTableEntry) :
    missing paths root (m.setEntry ⟨p, k⟩ e) = missing paths root m := by
  unfold missing
  refine List.countP_congr fun is his => ?_
  rw [node_setEntry h hp k e is (hplan.short is his)]

theorem Planned.grown_setEntry (hplan : Planned paths) (h : Separated root m) {v : ℕ} {p : Page}
    (hp : m.node root (path v) = some p) (k : Index) (e : PageTableEntry) :
    Grown paths root m (m.setEntry ⟨p, k⟩ e) where
  spent := by
    rw [hplan.missing_setEntry h hp]
    rfl
  suffix := List.suffix_rfl
  fails := rfl
  end_eq := rfl
  nodes is q his hq := .inl ((node_setEntry h hp k e is his).symm.trans hq)

/-- One more node is there. -/
theorem countP_of_update {is : List Index} (hnodup : paths.Nodup) (his : is ∈ paths)
    {f g : List Index → Option Page} (hf : f is = none) (hg : (g is).isSome)
    (hother : ∀ js ∈ paths, js ≠ is → g js = f js) :
    paths.countP (fun js => (f js).isNone) = paths.countP (fun js => (g js).isNone) + 1 := by
  induction paths with
  | nil => cases his
  | cons js paths ih =>
    rw [List.nodup_cons] at hnodup
    rw [List.countP_cons, List.countP_cons]
    by_cases hjs : js = is
    · subst hjs
      have hrest : paths.countP (fun ks => (f ks).isNone) =
          paths.countP (fun ks => (g ks).isNone) := by
        refine List.countP_congr fun ks hks => ?_
        rw [hother ks (List.mem_cons_of_mem _ hks) fun heq => hnodup.1 (heq ▸ hks)]
      obtain ⟨q, hq⟩ := Option.isSome_iff_exists.mp hg
      simp [hrest, hf, hq]
    · have hmem : is ∈ paths := (List.mem_cons.mp his).resolve_left fun heq => hjs heq.symm
      rw [ih hnodup.2 hmem fun ks hks => hother ks (List.mem_cons_of_mem _ hks),
        hother js List.mem_cons_self hjs]
      omega

/-- A walk that finds no node makes one of the first free page. -/
theorem Planned.grown_grow (hplan : Planned paths) (h : Separated root m) {is : List Index}
    {p q : Page} {k : Index} {ps : List Page} {a : Allocator} (hfree : m.allocator.free = q :: ps)
    (ha : a.free = ps) (hfails : a.fails = m.allocator.fails) (his : is.length < 2)
    (hp : m.node root is = some p) (hk : (m.memory p k).child = none) (hmem : is ++ [k] ∈ paths) :
    Grown paths root m { m with
      memory := grow m.memory p k q (fun _ => .empty) ⟨true, .none, false, q⟩
      allocator := a } := by
  have hq : Fresh child 2 m.memory root q := h.fresh q (by simp [hfree])
  have hgrows : Grows child 2 m.memory root p is k q (fun _ => .empty) ⟨true, .none, false, q⟩ :=
    ⟨h.nodes, hp, his, hk, hq, fun _ => rfl, rfl⟩
  have hnode (js : List Index) (hjs : js.length ≤ 2) :=
    hgrows.follow_grow hjs
  have hnodup := h.nodup
  rw [hfree, List.nodup_cons] at hnodup
  refine ⟨?_, ?_, hfails, rfl, fun js r hjs hr => ?_⟩
  · have hcount : missing paths root m = missing paths root { m with
        memory := grow m.memory p k q (fun _ => .empty) ⟨true, .none, false, q⟩
        allocator := a } + 1 := by
      refine countP_of_update hplan.nodup hmem ?_ ?_ fun js hjs hne => ?_
      · rw [node_concat, hp]
        exact hk
      · rw [Machine.node, hnode _ (by simp; omega), if_pos rfl]
        rfl
      · rw [Machine.node, hnode js (hplan.short js hjs), if_neg hne]
    simp only [hfree, ha, List.length_cons]
    omega
  · rw [hfree, ha]
    exact List.suffix_cons q ps
  · rw [Machine.node, hnode js hjs] at hr
    by_cases hj : js = is ++ [k]
    · rw [if_pos hj] at hr
      obtain rfl := Option.some.inj hr
      exact .inr ⟨by simp [hfree], by simpa [ha] using hnodup.1⟩
    · rw [if_neg hj] at hr
      exact .inl hr

/-- Where memory does not suffice, the list is empty and a node is missing. -/
def Short (paths : List (List Index)) (root : Page) (m : Machine) : Prop :=
  m.allocator.free = [] ∧ 0 < missing paths root m

/-- An allocator that has pages gives the first one. -/
theorem allocPage_of_never {a : Allocator} (hnever : ∀ i, a.fails i = false) :
    ∃ b, b.fails = a.fails ∧ ((a.free = [] ∧ b.free = [] ∧ a.allocPage = (none, b)) ∨
      ∃ q, a.free = q :: b.free ∧ a.allocPage = (some q, b)) := by
  unfold Allocator.allocPage
  simp only [hnever]
  cases hfree : a.free with
  | nil => exact ⟨⟨[], a.fails, a.requests + 1⟩, rfl, .inl ⟨rfl, rfl, rfl⟩⟩
  | cons q ps => exact ⟨⟨ps, a.fails, a.requests + 1⟩, rfl, .inr ⟨q, rfl, rfl⟩⟩

theorem Planned.walkLoop (hplan : Planned paths) (h : Separated root m)
    (hnever : ∀ i, m.allocator.fails i = false) (va : ℕ) (levels : List Level) {is : List Index}
    {p : Page} (hlen : is.length + levels.length ≤ 2) (hp : m.node root is = some p)
    (hpaths : ∀ ks, ks <+: levels.map (pageIndex va) → ks ≠ [] → is ++ ks ∈ paths)
    {r : Except WalkError Page} (hr : walkLoop va true levels p m = .ok (r, m')) :
    Grown paths root m m' ∧ ∀ e, r = .error e → Short paths root m' := by
  induction levels generalizing is p m with
  | nil =>
    cases hr
    exact ⟨.refl paths root _, fun e he => by cases he⟩
  | cons level levels ih =>
    rw [List.length_cons] at hlen
    rw [VirtualMemory.walkLoop] at hr
    have hmem : is ++ [pageIndex va level] ∈ paths :=
      hpaths _ (by rw [List.map_cons]; exact ⟨_, rfl⟩) (by simp)
    have hrest : ∀ ks, ks <+: levels.map (pageIndex va) → ks ≠ [] →
        is ++ [pageIndex va level] ++ ks ∈ paths := by
      intro ks hks _
      rw [List.append_assoc]
      exact hpaths _ (by rw [List.map_cons]; exact List.prefix_cons_inj _ |>.mpr hks) (by simp)
    by_cases hvalid : (m.entry ⟨p, pageIndex va level⟩).valid
    · have hnext : m.node root (is ++ [pageIndex va level]) =
          some (m.entry ⟨p, pageIndex va level⟩).ppn := by
        rw [node_concat, hp]
        exact if_pos hvalid
      rw [if_pos hvalid] at hr
      exact ih h hnever (by simp; omega) hnext hrest hr
    · have hchild : (m.memory p (pageIndex va level)).child = none := if_neg hvalid
      rw [if_neg hvalid, if_neg (by simp)] at hr
      unfold Machine.allocPage at hr
      obtain ⟨a, hfails, ⟨hfree, hempty, halloc⟩ | ⟨q, hfree, halloc⟩⟩ :=
        allocPage_of_never hnever
      · rw [halloc] at hr
        cases hr
        refine ⟨⟨?_, ?_, hfails, rfl, fun _ _ _ h => .inl h⟩, fun _ _ => ⟨hempty, ?_⟩⟩
        · dsimp only
          rw [hempty, hfree]
          rfl
        · dsimp only
          rw [hempty]
          exact List.nil_suffix
        · refine List.countP_pos_iff.mpr ⟨_, hmem, ?_⟩
          change (m.node root _).isNone = true
          rw [node_concat, hp, Option.bind_some, hchild]
          rfl
      · have hlt := page_lt (h.inRange q (by simp [hfree]))
        rw [halloc] at hr
        simp only [fromAddress_page hlt] at hr
        obtain ⟨hwalked, hnext⟩ := grow_spec h hfree rfl (by omega) hp hchild
        have hgrown := hplan.grown_grow h hfree rfl hfails (by omega) hp hchild hmem
        obtain ⟨hgrown', hshort⟩ := ih hwalked.separated
          (fun i => (congrFun hfails i).trans (hnever i)) (by simp; omega) hnext hrest hr
        exact ⟨hgrown.trans hgrown', hshort⟩

/-- The path to a page and the path above it are planned. -/
def Within (paths : List (List Index)) (v : ℕ) : Prop :=
  [Memory.pageIndex v .root] ∈ paths ∧ path v ∈ paths

theorem Planned.walk (hplan : Planned paths) (h : Separated root m)
    (hnever : ∀ i, m.allocator.fails i = false) {va : ℕ} (hva : va < maxVirtualAddress)
    (hwithin : Within paths (va / pageSize)) {r : Except WalkError Slot}
    (hr : walk root va true m = .ok (r, m')) :
    Grown paths root m m' ∧ ∀ e, r = .error e → Short paths root m' := by
  have hrange : isOutOfRange va = false := by simpa [isOutOfRange] using hva
  obtain ⟨r', m₁, hloop, -, -⟩ := walkLoop_true h va [.root, .branch] (by simp)
    (show m.node root [] = some root from rfl)
  have hprefix : ∀ ks, ks <+: [Level.root, .branch].map (pageIndex va) → ks ≠ [] →
      [] ++ ks ∈ paths := by
    intro ks hks hne
    rw [map_pageIndex] at hks
    rw [List.nil_append]
    rw [path, List.prefix_cons_iff] at hks
    obtain rfl | ⟨ks, rfl, hks⟩ := hks
    · exact absurd rfl hne
    rw [List.prefix_cons_iff] at hks
    obtain rfl | ⟨ks, rfl, hks⟩ := hks
    · exact hwithin.1
    · rw [List.prefix_nil.mp hks]
      exact hwithin.2
  obtain ⟨hgrown, hshort⟩ := hplan.walkLoop h hnever va [.root, .branch] (by simp) rfl hprefix
    hloop
  rw [VirtualMemory.walk, hrange, hloop] at hr
  cases r' with
  | error e =>
    cases hr
    exact ⟨hgrown, fun _ _ => hshort e rfl⟩
  | ok p =>
    cases hr
    exact ⟨hgrown, fun e he => by cases he⟩

theorem Planned.mapPages (hplan : Planned paths) (h : Separated root m)
    (hnever : ∀ i, m.allocator.fails i = false) (va pa : ℕ) (permissions : PagePermissions)
    (addressSpace : AddressSpace) (i n : ℕ)
    (hwithin : ∀ j < n, Within paths (va / pageSize + i + j)) {r : Except MapError Unit}
    (hr : mapPages root va pa permissions addressSpace i n m = .ok (r, m')) :
    Grown paths root m m' ∧ (r ≠ .ok () → r ≠ .error .alreadyMappedPage → Short paths root m') := by
  induction n generalizing i m with
  | zero =>
    cases hr
    exact ⟨.refl paths root _, fun hok => absurd rfl hok⟩
  | succ n ih =>
    rw [VirtualMemory.mapPages] at hr
    obtain ⟨hv, hadd, hrange⟩ | ⟨hv, q, hq⟩ := add_walk root m va i true
    · obtain ⟨r', m₁, hwalk, hwalked, hslot⟩ := walk_true h hrange
      obtain ⟨hgrown, hshort⟩ := hplan.walk h hnever hrange
        (by rw [add_div]; exact hwithin 0 (by omega)) hwalk
      rw [hadd, ok_bind, hwalk, ok_bind] at hr
      cases r' with
      | error e =>
        cases hr
        exact ⟨hgrown, fun _ _ => hshort e rfl⟩
      | ok slot =>
        obtain ⟨p, hp, rfl⟩ := hslot slot rfl
        simp only at hr
        split at hr
        · cases hr
          exact ⟨hgrown, fun _ halready => absurd rfl halready⟩
        · obtain ⟨hpage, hpte⟩ | ⟨hpage, q, hq⟩ := add_fromAddress pa i
          · rw [← bind_assoc, hpte, ok_bind] at hr
            have hset := hplan.grown_setEntry hwalked.separated hp
            obtain ⟨hgrown', hshort'⟩ := ih (hwalked.separated.setEntry hp _ _)
              (fun j => by rw [(hset _ _).fails, hgrown.fails]; exact hnever j) (i + 1)
              (fun j hj => by
                rw [show va / pageSize + (i + 1) + j = va / pageSize + i + (j + 1) by omega]
                exact hwithin (j + 1) (by omega)) hr
            exact ⟨hgrown.trans ((hset _ _).trans hgrown'), hshort'⟩
          · rw [← bind_assoc, hq] at hr
            cases hr
    · rw [← bind_assoc, hq] at hr
      cases hr

end Zigmaos.VirtualMemory
