import Zigmaos.KernelMemory
import Zigmaos.VirtualMemoryGrowth
import Zigmaos.VirtualMemoryRefinement

/-!
# The boot of the kernel's memory

How many pages the table of the kernel takes, and what the kernel sees through it:
devices, code and data at their own addresses, the trampoline, and the stacks of the
processes between pages without access.
-/
namespace Zigmaos.KernelMemory
open Memory (Page Index pageSize PagePermissions maxVirtualPage)
open VirtualMemory PageTableEntry RadixTree

/-! ## The allocator -/

/-- The free list of `init`, with the last page first. -/
theorem freerange_spec {m : Machine} (k n : ℕ) (hk : k + n = max k (physicalStopAddress / pageSize))
    (hend : m.kernelEndAddress ≤ k * pageSize) :
    ∃ m', freerange (k * pageSize) physicalStopAddress m = .ok m' ∧
      m'.allocator.free = (List.range' k n).reverse ++ m.allocator.free ∧
      m'.allocator.fails = m.allocator.fails ∧ m'.kernelEndAddress = m.kernelEndAddress := by
  have hstop : physicalStopAddress / pageSize = 0x88000 := by decide
  induction n generalizing k m with
  | zero =>
    rw [freerange, if_neg]
    · exact ⟨m, rfl, rfl, rfl, rfl⟩
    · simp only [physicalStopAddress, pageSize]
      omega
  | succ n ih =>
    rw [freerange, if_pos (by simp only [physicalStopAddress, pageSize]; omega),
      Nat.mul_div_cancel _ (by decide)]
    have hin : m.outOfRange k = false := by
      simp only [Machine.outOfRange, Bool.or_eq_false_iff, decide_eq_false_iff_not, not_lt, not_le]
      refine ⟨hend, ?_⟩
      simp only [physicalStopAddress, pageSize]
      omega
    obtain ⟨m₁, hm₁, hfree₁, hfails₁, hend₁⟩ : ∃ m₁, m.freePage k = some m₁ ∧
        m₁.allocator.free = k :: m.allocator.free ∧
        m₁.allocator.fails = m.allocator.fails ∧ m₁.kernelEndAddress = m.kernelEndAddress := by
      rw [Machine.freePage, hin]
      exact ⟨_, rfl, rfl, rfl, rfl⟩
    rw [hm₁, ← Nat.succ_mul]
    obtain ⟨m', hm', hfree, hfails, hend'⟩ := ih (k + 1) (by omega) (m := m₁) (by
      simp only [pageSize] at *
      omega)
    refine ⟨m', hm', ?_, hfails.trans hfails₁, hend'.trans hend₁⟩
    rw [hfree, hfree₁, List.range'_succ, List.reverse_cons, List.append_assoc]
    rfl

/-- The first page behind the kernel. -/
def Image.firstPage (image : Image) : ℕ := alignForward image.kernelEnd / pageSize

/-- The number of pages behind the kernel. -/
def Image.freePages (image : Image) : ℕ := physicalStopAddress / pageSize - image.firstPage

theorem init_spec (image : Image) (memory : Page → Index → PageTableEntry) :
    ∃ m, init (image.machine memory) = .ok m ∧ m.allocator.free.Nodup ∧
      m.allocator.free.length = image.freePages ∧
      (∀ p ∈ m.allocator.free, m.outOfRange p = false) ∧ (∀ i, m.allocator.fails i = false) ∧
      m.kernelEndAddress = image.kernelEnd := by
  have hfirst : alignForward image.kernelEnd = image.firstPage * pageSize := by
    rw [Image.firstPage, alignForward, Nat.mul_div_cancel _ (by decide)]
  have hle : image.kernelEnd ≤ image.firstPage * pageSize := by
    rw [← hfirst]
    simp only [alignForward, pageSize]
    omega
  obtain ⟨m, hm, hfree, hfails, hend⟩ := freerange_spec (m := image.machine memory)
    image.firstPage image.freePages (by rw [Image.freePages]; omega) hle
  rw [show (image.machine memory).allocator.free = [] from rfl, List.append_nil] at hfree
  refine ⟨m, ?_, ?_, ?_, fun p hp => ?_, fun i => by rw [hfails]; rfl, hend⟩
  · rw [init, ← hm, ← hfirst]
    rfl
  · rw [hfree, List.nodup_reverse]
    exact List.nodup_range'
  · rw [hfree, List.length_reverse, List.length_range']
  · rw [hfree, List.mem_reverse, List.mem_range'_1] at hp
    simp only [Machine.outOfRange, Bool.or_eq_false_iff, decide_eq_false_iff_not, not_lt, not_le,
      hend]
    refine ⟨hle.trans (Nat.mul_le_mul_right _ hp.1), ?_⟩
    have hlt := hp.2
    simp only [Image.freePages, physicalStopAddress, pageSize] at *
    omega

/-! ## Computations that may end in a panic -/

/-- The computation comes to an end, or `short` is why it fails. -/
def EndsOr {ε α : Type} (x : Except ε α) (ok : α → Prop) (short : Prop) : Prop :=
  (∃ a, x = .ok a ∧ ok a) ∨ (∃ e, x = .error e) ∧ short

theorem EndsOr.bind {ε α β : Type} {x : Except ε α} {f : α → Except ε β} {ok : α → Prop}
    {ok' : β → Prop} {short : Prop} (h : EndsOr x ok short)
    (hf : ∀ a, ok a → EndsOr (f a) ok' short) : EndsOr (x >>= f) ok' short := by
  obtain ⟨a, rfl, ha⟩ | ⟨⟨e, rfl⟩, hshort⟩ := h
  · exact hf a ha
  · exact .inr ⟨⟨e, rfl⟩, hshort⟩

theorem EndsOr.foldlM_range {ε α : Type} {x : α → ℕ → Except ε α} {short : Prop}
    (ok : ℕ → α → Prop) (n : ℕ) (hx : ∀ i < n, ∀ a, ok i a → EndsOr (x a i) (ok (i + 1)) short)
    {a : α} (ha : ok 0 a) : EndsOr ((List.range n).foldlM x a) (ok n) short := by
  induction n with
  | zero => exact .inl ⟨a, rfl, ha⟩
  | succ n ih =>
    rw [List.range_succ, List.foldlM_append]
    refine (ih fun i hi => hx i (by omega)).bind fun b hb => ?_
    rw [List.foldlM_cons]
    refine (hx n (by omega) b hb).bind fun c hc => ?_
    exact .inl ⟨c, rfl, hc⟩

/-! ## The nodes of the table -/

def trampolinePage : ℕ := trampolineVirtualAddress / pageSize

/-- A page below each node at the end of a path. -/
def leafPages : List ℕ :=
  [0xc000, 0xc200, 0x10000, trampolinePage] ++ (List.range 64).map fun k => 0x80000 + 512 * k

def rootPages : List ℕ := [0xc000, 0x80000, trampolinePage]

/-- The nodes that the table of the kernel has, besides its root. -/
def nodePaths : List (List Index) :=
  (rootPages.map fun v => [Memory.pageIndex v .root]) ++ leafPages.map path

theorem nodePaths_planned : Planned nodePaths where
  nodup := by decide +kernel
  short is his := by
    rw [nodePaths, List.mem_append, List.mem_map, List.mem_map] at his
    obtain ⟨v, -, rfl⟩ | ⟨v, -, rfl⟩ := his
    · exact Nat.le_succ 1
    · exact le_rfl

theorem nodePaths_length : nodePaths.length = 71 := by decide +kernel

theorem within_of_div {u v w : ℕ} (hu : u ∈ rootPages) (hw : w ∈ leafPages)
    (huv : v / 512 / 512 = u / 512 / 512) (hvw : v / 512 = w / 512) : Within nodePaths v := by
  have hroot : ∀ x y : ℕ, x / 512 / 512 = y / 512 / 512 →
      Memory.pageIndex x .root = Memory.pageIndex y .root := by
    intro x y hxy
    apply Fin.ext
    simp only [Memory.pageIndex, hxy]
  have hbranch : Memory.pageIndex v .branch = Memory.pageIndex w .branch := by
    apply Fin.ext
    simp only [Memory.pageIndex, hvw]
  constructor
  · refine List.mem_append_left _ (List.mem_map.mpr ⟨u, hu, ?_⟩)
    rw [hroot v u huv]
  · refine List.mem_append_right _ (List.mem_map.mpr ⟨w, hw, ?_⟩)
    rw [path, path, hroot v w (by rw [hvw]), hbranch]

theorem within_ram {v : ℕ} (hle : 0x80000 ≤ v) (hlt : v < 0x88000) : Within nodePaths v := by
  refine within_of_div (u := 0x80000) (w := 0x80000 + 512 * (v / 512 - 1024)) (by decide) ?_
    (by omega) (by omega)
  refine List.mem_append_right _ (List.mem_map.mpr ⟨_, List.mem_range.mpr ?_, rfl⟩)
  omega

theorem within_device {v : ℕ} (h : 0xc000 ≤ v ∧ v < 0xc400 ∨ v = 0x10000 ∨ v = 0x10001) :
    Within nodePaths v := by
  have hroot : 0xc000 ∈ rootPages := by decide
  by_cases hplic : v < 0xc200
  · exact within_of_div (w := 0xc000) hroot (by decide) (by omega) (by omega)
  by_cases hplic : v < 0xc400
  · exact within_of_div (w := 0xc200) hroot (by decide) (by omega) (by omega)
  · exact within_of_div (w := 0x10000) hroot (by decide) (by omega) (by omega)

theorem within_stack {v : ℕ} (hle : trampolinePage - 511 ≤ v) (hlt : v ≤ trampolinePage) :
    Within nodePaths v := by
  have hpage : trampolinePage = 2 ^ 26 - 1 := by decide
  exact within_of_div (u := trampolinePage) (w := trampolinePage) (by decide) (by decide)
    (by omega) (by omega)

/-! ## What each call of `map` does -/

/-- How far the boot has come: what is bound, and where the pages of the free list
went. -/
structure Stage (image : Image) (taken : ℕ) (root : Page) (f : Bindings) (m : Machine) :
    Prop where
  separated : Separated root m
  bound : ∀ w < maxVirtualPage, bindings root m w = f w
  never : ∀ i, m.allocator.fails i = false
  account : m.allocator.free.length + (nodePaths.length + 1 + taken) =
    image.freePages + missing nodePaths root m
  end_eq : m.kernelEndAddress = image.kernelEnd

variable {image : Image} {taken : ℕ} {root : Page} {f : Bindings} {m : Machine}

theorem coveredPages_mul {v n : ℕ} (hn : n ≠ 0) :
    coveredPages (v * pageSize) (n * pageSize) = n := by
  simp only [coveredPages, pageSize]
  omega

/-- `map` of whole pages is its loop. -/
theorem map_mul {v pa n : ℕ} {permissions : PagePermissions} (hn : n ≠ 0)
    (hv : v + n ≤ maxVirtualPage) :
    map root (v * pageSize) pa (n * pageSize) permissions .kernel m =
      mapPages root (v * pageSize) pa permissions .kernel 0 n m := by
  have hadd : add (v * pageSize) (n * pageSize - 1) = .ok (v * pageSize + (n * pageSize - 1)) := by
    rw [add, if_pos]
    simp only [maxVirtualPage, pageSize] at *
    omega
  rw [map, if_neg (Nat.mul_ne_zero hn (by decide)), coveringPages, hadd, ok_bind]
  change mapPages _ _ _ _ _ 0 (coveredPages (v * pageSize) (n * pageSize)) m = _
  rw [coveredPages_mul hn]

theorem Stage.kernelVirtualMap (h : Stage image taken root f m) (htaken : taken ≤ 384)
    (kind : MappingKind) (v p n : ℕ) (hn : n ≠ 0) (hv : v + n ≤ maxVirtualPage)
    (hp : p + n ≤ 2 ^ 44)
    (hfree : ∀ w, v ≤ w → w < v + n → f w = none)
    (hwithin : ∀ w, v ≤ w → w < v + n → Within nodePaths w) :
    EndsOr (kernelVirtualMap root (v * pageSize) (p * pageSize) (n * pageSize) kind m)
      (fun m' => Stage image taken root (f.bindRange v n p kind.permissions false) m' ∧
        Grown nodePaths root m m') (image.freePages < 456) := by
  have hdiv (a : ℕ) : a * pageSize / pageSize = a := Nat.mul_div_cancel _ (by decide)
  rw [KernelMemory.kernelVirtualMap, map_mul hn hv]
  obtain ⟨hne, -⟩ | ⟨r, m', k, hr, hmaps⟩ := mapPages_spec h.separated (v * pageSize) (p * pageSize)
    kind.permissions .kernel 0 n
  · rw [hdiv, hdiv] at hne
    exact absurd ⟨hv, hp⟩ hne
  obtain ⟨hgrown, hshort⟩ := nodePaths_planned.mapPages h.separated h.never (v * pageSize)
    (p * pageSize) kind.permissions .kernel 0 n
    (fun j hj => by rw [hdiv]; exact hwithin _ (by omega) (by omega)) hr
  rw [hdiv, hdiv] at hmaps
  have haccount := h.account
  have hspent := hgrown.spent
  rw [hr]
  by_cases hok : r = .ok ()
  · subst hok
    refine .inl ⟨m', rfl, ⟨hmaps.separated, fun w hw => ?_, fun i => ?_, by omega,
      hgrown.end_eq.trans h.end_eq⟩, hgrown⟩
    · rw [hmaps.bound w hw, hmaps.ok rfl]
      simp only [Bindings.bindRange, h.bound w hw, Nat.add_zero]
      rfl
    · rw [hgrown.fails]
      exact h.never i
  · have hnot : r ≠ .error .alreadyMappedPage := by
      intro halready
      obtain ⟨hlt, hbound⟩ := hmaps.already halready
      have hk := hmaps.error hok
      rw [h.bound _ hlt, hfree _ (by omega) (by omega)] at hbound
      exact hbound rfl
    obtain ⟨hempty, hmissing⟩ := hshort hok hnot
    rw [hempty, List.length_nil] at hspent
    rw [nodePaths_length] at haccount
    refine .inr ⟨?_, by omega⟩
    cases r with
    | ok u => exact absurd rfl hok
    | error e => exact ⟨_, rfl⟩

/-- `allocPage` takes the first page of the list, unless there is none. -/
theorem allocPage_cases (value : InitialValue) {m : Machine}
    (hnever : ∀ i, m.allocator.fails i = false) :
    (m.allocator.free = [] ∧ (allocPage value m).1 = none) ∨
    ∃ q a, m.allocator.free = q :: a.free ∧ a.fails = m.allocator.fails ∧
      allocPage value m = (some q, { m with
        memory := Function.update m.memory q (fun _ => value.entry)
        allocator := a }) := by
  unfold allocPage
  obtain ⟨a, hfails, ⟨hfree, -, halloc⟩ | ⟨q, hfree, halloc⟩⟩ := allocPage_of_never hnever
  · rw [halloc]
    exact .inl ⟨hfree, rfl⟩
  · rw [halloc]
    exact .inr ⟨q, a, hfree, hfails, rfl⟩

/-- A page that is no node of the table is taken from the list. -/
theorem Stage.allocPage (h : Stage image taken root f m) (htaken : taken < 384)
    (value : InitialValue) :
    (image.freePages < 456 ∧ (allocPage value m).1 = none) ∨
    ∃ q m', allocPage value m = (some q, m') ∧ Stage image (taken + 1) root f m' ∧
      m.allocator.free = q :: m'.allocator.free ∧
      ∀ is : List Index, is.length ≤ 2 → m'.node root is = m.node root is := by
  have haccount := h.account
  obtain ⟨hfree, hnone⟩ | ⟨q, a, hfree, hfails, halloc⟩ := allocPage_cases value h.never
  · rw [hfree, List.length_nil, nodePaths_length] at haccount
    exact .inl ⟨by omega, hnone⟩
  have hmem : ∀ p, (∃ is, is.length ≤ 2 ∧ m.node root is = some p) →
      Function.update m.memory q (fun _ => value.entry) p = m.memory p := by
    rintro p ⟨is, his, hp⟩
    refine Function.update_of_ne ?_ _ _
    rintro rfl
    exact h.separated.fresh p (by simp [hfree]) is his hp
  have hnodup := h.separated.nodup
  rw [hfree, List.nodup_cons] at hnodup
  refine .inr ⟨q, _, halloc, ⟨?_, ?_, fun i => ?_, ?_, h.end_eq⟩, hfree, ?_⟩
  · exact h.separated.congr hmem
      (fun p hp => h.separated.fresh p (by rw [hfree]; exact List.mem_cons_of_mem q hp))
      (fun p hp => h.separated.inRange p (by rw [hfree]; exact List.mem_cons_of_mem q hp)) hnodup.2
  · intro w hw
    rw [bindings_congr hmem]
    exact h.bound w hw
  · exact (congrFun hfails i).trans (h.never i)
  · rw [hfree, List.length_cons] at haccount
    have hmissing : missing nodePaths root { m with
        memory := Function.update m.memory q (fun _ => value.entry)
        allocator := a } = missing nodePaths root m := by
      refine List.countP_congr fun is his => ?_
      rw [node_congr hmem is (nodePaths_planned.short is his)]
    rw [hmissing]
    dsimp only
    omega
  · exact node_congr hmem

/-- The first page becomes the root of an empty table. -/
theorem Stage.initial {m : Machine} (hnodup : m.allocator.free.Nodup)
    (hin : ∀ p ∈ m.allocator.free, m.outOfRange p = false)
    (hnever : ∀ i, m.allocator.fails i = false)
    (htotal : m.allocator.free.length = image.freePages)
    (hend : m.kernelEndAddress = image.kernelEnd) :
    (image.freePages = 0 ∧ (KernelMemory.allocPage .zeroed m).1 = none) ∨
    ∃ q m', KernelMemory.allocPage .zeroed m = (some q, m') ∧ 0 < image.freePages ∧
      Stage image 0 q (fun _ => none) m' := by
  obtain ⟨hfree, hnone⟩ | ⟨q, a, hfree, hfails, halloc⟩ := allocPage_cases .zeroed hnever
  · rw [hfree, List.length_nil] at htotal
    exact .inl ⟨htotal.symm, hnone⟩
  rw [hfree, List.nodup_cons] at hnodup
  rw [hfree, List.length_cons] at htotal
  generalize hm : ({ m with
    memory := Function.update m.memory q (fun _ => InitialValue.zeroed.entry)
    allocator := a } : Machine) = m' at halloc
  have hempty : m'.memory q = fun _ => .empty := by
    rw [← hm]
    exact Function.update_self _ _ _
  have hnode : ∀ is p, m'.node q is = some p → is = [] ∧ p = q := by
    intro is p hp
    cases is with
    | nil => exact ⟨rfl, (Option.some.inj hp).symm⟩
    | cons i is =>
      rw [Machine.node, follow, hempty] at hp
      cases hp
  have hnone : ∀ is, is ≠ [] → m'.node q is = none := by
    intro is his
    exact Option.eq_none_iff_forall_ne_some.mpr fun p hp => his (hnode is p hp).1
  have hfree' : m'.allocator = a := by rw [← hm]
  refine .inr ⟨q, m', halloc, by omega, ⟨?_, ?_, ?_, ?_⟩, ?_, fun i => ?_, ?_, ?_⟩
  · intro is js p _ _ hp hq
    rw [(hnode is p hp).1, (hnode js p hq).1]
  · intro p hp is _ heq
    rw [hfree'] at hp
    rw [(hnode is p heq).2] at hp
    exact hnodup.1 hp
  · intro p hp
    rw [hfree'] at hp
    rw [← hm]
    exact hin p (by rw [hfree]; exact List.mem_cons_of_mem q hp)
  · rw [hfree']
    exact hnodup.2
  · intro w _
    rw [bindings, hnone _ (by simp [path])]
    rfl
  · rw [hfree', hfails]
    exact hnever i
  · have hmissing : missing nodePaths q m' = nodePaths.length := by
      refine List.countP_eq_length.mpr fun is his => ?_
      rw [hnone is]
      · rfl
      · rintro rfl
        revert his
        decide +kernel
    rw [hfree', hmissing]
    omega
  · rw [← hm]
    exact hend

/-! ## The stacks -/

/-- The pages of the stacks, in the order in which they are mapped. -/
def stackPage (j : ℕ) : ℕ := kernelStackAddress (j / 6) / pageSize + j % 6

theorem stackPage_eq {j : ℕ} (hj : j < 384) :
    stackPage j + (7 * (j / 6 + 1)) = trampolinePage + j % 6 := by
  simp only [stackPage, kernelStackAddress, trampolinePage, trampolineVirtualAddress,
    kernelStackPageCount, maxVirtualAddress, pageSize]
  omega

theorem stackPage_address {index i : ℕ} (hindex : index < 64) (hi : i < 6) :
    kernelStackAddress index + i * pageSize = stackPage (6 * index + i) * pageSize := by
  have hdiv : (6 * index + i) / 6 = index := by omega
  have hmod : (6 * index + i) % 6 = i := by omega
  rw [stackPage, hdiv, hmod]
  simp only [kernelStackAddress, trampolineVirtualAddress, kernelStackPageCount,
    maxVirtualAddress, pageSize]
  omega

theorem stackPage_inj {j k : ℕ} (hj : j < 384) (hk : k < 384) (h : stackPage j = stackPage k) :
    j = k := by
  have hj := stackPage_eq hj
  have hk := stackPage_eq hk
  omega

theorem stackPage_range {j : ℕ} (hj : j < 384) :
    trampolinePage - 448 ≤ stackPage j ∧ stackPage j < trampolinePage := by
  have hj := stackPage_eq hj
  have hpage : trampolinePage = 2 ^ 26 - 1 := by decide
  omega

/-- The pages of the stacks are bound to the first physical pages, in order. -/
structure StackBindings (f₀ f : Bindings) (pages : List Page) : Prop where
  mapped : ∀ j p, pages[j]? = some p →
    f (stackPage j) = some ⟨p, MappingKind.data.permissions, false⟩
  other : ∀ w, (∀ j < pages.length, w ≠ stackPage j) → f w = f₀ w

theorem StackBindings.concat {f₀ : Bindings} {pages : List Page} (h : StackBindings f₀ f pages)
    (hlen : pages.length < 384) (p : Page) :
    StackBindings f₀ (f.bindRange (stackPage pages.length) 1 p MappingKind.data.permissions false)
      (pages ++ [p]) where
  mapped j q hj := by
    rw [Bindings.bindRange]
    by_cases hjlen : j < pages.length
    · rw [List.getElem?_append_left hjlen] at hj
      rw [if_neg fun hw => ?_, h.mapped j q hj]
      have := stackPage_inj (k := pages.length) (j := j) (by omega) hlen (by omega)
      omega
    · have hjle := (List.getElem?_eq_some_iff.mp hj).1
      rw [List.length_append, List.length_singleton] at hjle
      obtain rfl : j = pages.length := by omega
      rw [List.getElem?_append_right le_rfl, Nat.sub_self] at hj
      obtain rfl := Option.some.inj hj
      rw [if_pos ⟨le_rfl, by omega⟩, Nat.sub_self, Nat.add_zero]
  other w hw := by
    rw [List.length_append, List.length_singleton] at hw
    have hne := hw pages.length (by omega)
    rw [Bindings.bindRange, if_neg (by omega)]
    exact h.other w fun j hj => hw j (by omega)

/-- The pages of the stacks that are mapped so far. -/
structure Stacked (image : Image) (root : Page) (f₀ : Bindings) (pages : List Page) (m : Machine) :
    Prop where
  stage : ∃ f, Stage image pages.length root f m ∧ StackBindings f₀ f pages
  nodup : pages.Nodup
  taken : ∀ p ∈ pages, p ∉ m.allocator.free ∧ m.outOfRange p = false
  fresh : ∀ p ∈ pages, Fresh child 2 m.memory root p

variable {f₀ : Bindings} {pages : List Page}

theorem Stacked.turn (h : Stacked image root f₀ pages m) {index i : ℕ} (hindex : index < 64)
    (hi : i < 6) (hlen : pages.length = 6 * index + i)
    (hf₀ : ∀ j < 384, f₀ (stackPage j) = none) :
    EndsOr (mapKernelStackPage root index m i)
      (fun m' => ∃ p, Stacked image root f₀ (pages ++ [p]) m') (image.freePages < 456) := by
  obtain ⟨f, hstage, hbindings⟩ := h.stage
  obtain ⟨hshort, hnone⟩ | ⟨p, m₁, halloc, hstage₁, hfree, hnode⟩ :=
    hstage.allocPage (by omega) .garbage
  · rw [mapKernelStackPage, show KernelMemory.allocPage .garbage m =
      (none, (KernelMemory.allocPage .garbage m).2) from Prod.ext hnone rfl]
    exact .inr ⟨⟨_, rfl⟩, hshort⟩
  rw [mapKernelStackPage, halloc, stackPage_address hindex hi, ← hlen]
  have hlt : pages.length < 384 := by omega
  have hrange := stackPage_range hlt
  have hpage : trampolinePage = 2 ^ 26 - 1 := by decide
  have hin : m.outOfRange p = false := hstage.separated.inRange p (by simp [hfree])
  have hnew : f (stackPage pages.length) = none := by
    rw [hbindings.other _ fun j hj heq => ?_, hf₀ _ hlt]
    have := stackPage_inj hlt (by omega) heq
    omega
  have hone : pageSize = 1 * pageSize := (Nat.one_mul _).symm
  have hmap := hstage₁.kernelVirtualMap (by omega) .data (stackPage pages.length) p 1
    (by decide) (by simp only [maxVirtualPage]; omega)
    (Nat.succ_le_of_lt (page_lt hin))
    (fun w hle hlt => by rw [show w = stackPage pages.length by omega, hnew])
    (fun w hle hlt => within_stack (by omega) (by omega))
  rw [← hone] at hmap
  obtain ⟨m', hm', hstage', hgrown⟩ | hshort := hmap
  · refine .inl ⟨m', hm', p, ?_⟩
    have hnodup := hstage.separated.nodup
    rw [hfree, List.nodup_cons] at hnodup
    have hold : ∀ q ∈ pages, q ∉ m₁.allocator.free ∧ q ≠ p := by
      intro q hq
      have hnot := (h.taken q hq).1
      rw [hfree, List.mem_cons, not_or] at hnot
      exact ⟨hnot.2, hnot.1⟩
    have hfresh : ∀ q ∈ pages ++ [p], q ∉ m₁.allocator.free ∧ m.outOfRange q = false ∧
        Fresh child 2 m.memory root q := by
      intro q hq
      obtain hq | hq := List.mem_append.mp hq
      · exact ⟨(hold q hq).1, (h.taken q hq).2, h.fresh q hq⟩
      · rw [List.mem_singleton.mp hq]
        exact ⟨hnodup.1, hin, hstage.separated.fresh p (by simp [hfree])⟩
    refine ⟨⟨_, by rw [List.length_append]; exact hstage', hbindings.concat hlt p⟩, ?_,
      fun q hq => ⟨fun hmem => (hfresh q hq).1 (hgrown.suffix.mem hmem), ?_⟩, fun q hq => ?_⟩
    · refine List.nodup_append.mpr ⟨h.nodup, List.nodup_singleton p, fun a ha b hb => ?_⟩
      rw [List.mem_singleton.mp hb]
      exact (hold a ha).2
    · rw [Machine.outOfRange, hstage'.end_eq, ← hstage.end_eq]
      exact (hfresh q hq).2.1
    · intro is his hnode'
      rcases hgrown.nodes is q his hnode' with hq' | hq'
      · exact (hfresh q hq).2.2 is his ((hnode is his).symm.trans hq')
      · exact (hfresh q hq).1 hq'.1
  · exact .inr hshort

/-- Where the stacks are mapped, one after the other. -/
theorem mapKernelStacks_spec (h : Stage image 0 root f₀ m)
    (hf₀ : ∀ j < 384, f₀ (stackPage j) = none) :
    EndsOr (mapKernelStacks root m)
      (fun m' => ∃ pages, pages.length = 384 ∧ Stacked image root f₀ pages m')
      (image.freePages < 456) := by
  have hstart : ∃ pages : List Page, pages.length = 6 * 0 ∧ Stacked image root f₀ pages m := by
    refine ⟨[], rfl, ⟨f₀, h, fun j p hj => ?_, fun w _ => rfl⟩, List.nodup_nil, fun p hp => ?_,
      fun p hp => ?_⟩
    · cases hj
    · cases hp
    · cases hp
  have hturn : ∀ index < 64, ∀ m₁, (∃ pages : List Page, pages.length = 6 * index ∧
      Stacked image root f₀ pages m₁) → EndsOr ((List.range kernelStackPageCount).foldlM
        (mapKernelStackPage root index) m₁) (fun m₂ => ∃ pages : List Page,
          pages.length = 6 * (index + 1) ∧ Stacked image root f₀ pages m₂)
        (image.freePages < 456) := by
    intro index hindex m₁ hm₁
    refine EndsOr.foldlM_range (fun i m₂ => ∃ pages : List Page,
      pages.length = 6 * index + i ∧ Stacked image root f₀ pages m₂) 6 ?_ hm₁
    rintro i hi m₂ ⟨pages, hlen, hstacked⟩
    obtain ⟨m₃, hm₃, p, hp⟩ | hshort := hstacked.turn hindex hi hlen hf₀
    · refine .inl ⟨m₃, hm₃, pages ++ [p], ?_, hp⟩
      rw [List.length_append, List.length_singleton, hlen, Nat.add_assoc]
    · exact .inr hshort
  exact EndsOr.foldlM_range (fun index m₁ => ∃ pages : List Page,
    pages.length = 6 * index ∧ Stacked image root f₀ pages m₁) 64 hturn hstart

/-! ## The whole table -/

/-- The pages that are mapped to themselves as data. -/
def Image.IsData (image : Image) (v : ℕ) : Prop :=
  v = uart0BaseAddress / pageSize ∨ v = virtio0BaseAddress / pageSize ∨
  (plicBaseAddress / pageSize ≤ v ∧ v < (plicBaseAddress + plicSize) / pageSize) ∨
  (image.etext / pageSize ≤ v ∧ v < physicalStopAddress / pageSize)

/-- The pages of the code of the kernel. -/
def Image.IsCode (image : Image) (v : ℕ) : Prop :=
  kernelBaseAddress / pageSize ≤ v ∧ v < image.etext / pageSize

/-- What the kernel sees at each virtual page; `stack` has the physical pages of the stacks. -/
structure KernelSpace (image : Image) (stack : ℕ → ℕ → Page) (space : Bindings) : Prop where
  data : ∀ v, image.IsData v → space v = some ⟨v, ⟨true, true, false⟩, false⟩
  code : ∀ v, image.IsCode v → space v = some ⟨v, ⟨true, false, true⟩, false⟩
  trampoline : space (trampolineVirtualAddress / pageSize) =
    some ⟨image.trampoline / pageSize, ⟨true, false, true⟩, false⟩
  stackPages : ∀ p < processTableLen, ∀ i < kernelStackPageCount,
    space (kernelStackAddress p / pageSize + i) = some ⟨stack p i, ⟨true, true, false⟩, false⟩
  only : ∀ v, space v ≠ none → image.IsData v ∨ image.IsCode v ∨
    v = trampolineVirtualAddress / pageSize ∨
    ∃ p < processTableLen, ∃ i < kernelStackPageCount, v = kernelStackAddress p / pageSize + i

theorem kernelStackAddress_page {p : ℕ} (hp : p < processTableLen) :
    kernelStackAddress p + kernelStackPageCount * pageSize < maxVirtualAddress ∧
    (kernelStackAddress p - 1) / pageSize = kernelStackAddress p / pageSize - 1 ∧
    (kernelStackAddress p + kernelStackPageCount * pageSize) / pageSize =
      kernelStackAddress p / pageSize + kernelStackPageCount := by
  simp only [processTableLen] at hp
  simp only [kernelStackAddress, trampolineVirtualAddress, kernelStackPageCount,
    maxVirtualAddress, pageSize]
  omega

/-- A stack has a page without access on both sides. -/
theorem KernelSpace.guards {stack : ℕ → ℕ → Page} {space : Bindings}
    (h : KernelSpace image stack space) (hram : image.etext ≤ physicalStopAddress) {p : ℕ}
    (hp : p < processTableLen) :
    space (kernelStackAddress p / pageSize - 1) = none ∧
      space (kernelStackAddress p / pageSize + kernelStackPageCount) = none := by
  have hmany : processTableLen = 64 := rfl
  have hcount : kernelStackPageCount = 6 := rfl
  have hpage (q : ℕ) (hq : q < 64) :
      kernelStackAddress q / pageSize + 7 * (q + 1) = 2 ^ 26 - 1 := by
    simp only [kernelStackAddress, trampolineVirtualAddress, kernelStackPageCount,
      maxVirtualAddress, pageSize]
    omega
  have hp' := hpage p hp
  have hnone : ∀ v, 2 ^ 26 - 450 ≤ v → v < 2 ^ 26 - 1 → (∀ q < 64, ∀ i < 6,
      v ≠ kernelStackAddress q / pageSize + i) → space v = none := by
    intro v hle hlt hne
    by_contra hsome
    rcases h.only v hsome with hdata | hcode | htrampoline | ⟨q, hq, i, hi, heq⟩
    · simp only [Image.IsData, uart0BaseAddress, virtio0BaseAddress, plicBaseAddress, plicSize,
        physicalStopAddress, pageSize] at hdata
      omega
    · simp only [Image.IsCode, physicalStopAddress, pageSize] at hcode hram
      omega
    · rw [show trampolineVirtualAddress / pageSize = 2 ^ 26 - 1 by decide] at htrampoline
      omega
    · exact hne q hq i hi heq
  constructor
  · refine hnone _ (by omega) (by omega) fun q hq i hi => ?_
    have hq' := hpage q hq
    omega
  · refine hnone _ (by omega) (by omega) fun q hq i hi => ?_
    have hq' := hpage q hq
    omega

theorem Image.exists_page (image : Image) : ∃ t, 0x80000 ≤ t ∧ image.trampoline = t * pageSize ∧
    image.etext = (t + 1) * pageSize := by
  have hbase := image.base_le
  have haligned := image.aligned
  have hetext := image.etext_eq
  refine ⟨image.trampoline / pageSize, ?_, ?_, ?_⟩
  · simp only [kernelBaseAddress, pageSize] at *
    omega
  · simp only [pageSize] at *
    omega
  · simp only [pageSize] at *
    omega

/-- What is bound before the stacks are; `t` is the page of the trampoline. -/
def fixedSpace (t : ℕ) : Bindings :=
  let data := MappingKind.data.permissions
  let code := MappingKind.code.permissions
  let f := Bindings.bindRange (fun _ => none) 0x10000 1 0x10000 data false
  let f := Bindings.bindRange f 0x10001 1 0x10001 data false
  let f := Bindings.bindRange f 0xc000 0x400 0xc000 data false
  let f := Bindings.bindRange f 0x80000 (t + 1 - 0x80000) 0x80000 code false
  let f := Bindings.bindRange f (t + 1) (0x88000 - (t + 1)) (t + 1) data false
  Bindings.bindRange f trampolinePage 1 t code false

theorem initPageTable_stage (image : Image) {t : ℕ} (ht : 0x80000 ≤ t)
    (htrampoline : image.trampoline = t * pageSize) (hetext : image.etext = (t + 1) * pageSize)
    {m : Machine} (hm : Stage image 0 root (fun _ => none) m) (hlt : t + 1 < 0x88000)
    {α : Type} {rest : Machine → Except Panic α} {ok : α → Prop}
    (hrest : ∀ m', Stage image 0 root (fixedSpace t) m' →
      EndsOr (rest m') ok (image.freePages < 456)) :
    EndsOr (do
      let m ← kernelInitMap root uart0BaseAddress pageSize .data m
      let m ← kernelInitMap root virtio0BaseAddress pageSize .data m
      let m ← kernelInitMap root plicBaseAddress plicSize .data m
      let m ← kernelInitMap root kernelBaseAddress
        (← offsetFrom image.etext kernelBaseAddress) .code m
      let m ← kernelInitMap root image.etext (← offsetFrom physicalStopAddress image.etext) .data m
      let m ← kernelVirtualMap root trampolineVirtualAddress image.trampoline pageSize .code m
      rest m) ok (image.freePages < 456) := by
  have hpage : trampolinePage = 2 ^ 26 - 1 := by decide
  have hmax : maxVirtualPage = 2 ^ 26 := rfl
  have htext : image.etext - kernelBaseAddress = (t + 1 - 0x80000) * pageSize := by
    rw [hetext, Nat.sub_mul]
    rfl
  have hram : physicalStopAddress - image.etext = (0x88000 - (t + 1)) * pageSize := by
    rw [hetext, Nat.sub_mul]
    rfl
  have hoff : offsetFrom image.etext kernelBaseAddress = .ok ((t + 1 - 0x80000) * pageSize) := by
    rw [offsetFrom, if_pos, htext]
    simp only [hetext, kernelBaseAddress, pageSize]
    omega
  have hoff' : offsetFrom physicalStopAddress image.etext =
      .ok ((0x88000 - (t + 1)) * pageSize) := by
    rw [offsetFrom, if_pos, hram]
    simp only [hetext, physicalStopAddress, pageSize]
    omega
  refine (hm.kernelVirtualMap (by omega) .data 0x10000 0x10000 1
    (by omega) (by omega) (by omega) (fun _ _ _ => rfl)
    (fun w _ _ => within_device (by omega))).bind fun m₁ hm₁ => ?_
  refine (hm₁.1.kernelVirtualMap (by omega) .data 0x10001 0x10001 1
    (by omega) (by omega) (by omega) (fun w _ _ => ?_)
    (fun w _ _ => within_device (by omega))).bind fun m₂ hm₂ => ?_
  · simp only [Bindings.bindRange]
    rw [if_neg (by omega)]
  refine (hm₂.1.kernelVirtualMap (by omega) .data 0xc000 0xc000 0x400
    (by omega) (by omega) (by omega) (fun w _ _ => ?_)
    (fun w _ _ => within_device (by omega))).bind fun m₃ hm₃ => ?_
  · simp only [Bindings.bindRange]
    rw [if_neg (by omega), if_neg (by omega)]
  refine EndsOr.bind (.inl ⟨_, hoff, rfl⟩) fun size hsize => ?_
  subst hsize
  refine (hm₃.1.kernelVirtualMap (by omega) .code 0x80000 0x80000 (t + 1 - 0x80000)
    (by omega) (by omega) (by omega) (fun w _ _ => ?_)
    (fun w _ _ => within_ram (by omega) (by omega))).bind fun m₄ hm₄ => ?_
  · simp only [Bindings.bindRange]
    rw [if_neg (by omega), if_neg (by omega), if_neg (by omega)]
  refine EndsOr.bind (.inl ⟨_, hoff', rfl⟩) fun size hsize => ?_
  subst hsize
  rw [kernelInitMap, hetext]
  refine (hm₄.1.kernelVirtualMap (by omega) .data (t + 1) (t + 1) (0x88000 - (t + 1))
    (by omega) (by omega) (by omega) (fun w _ _ => ?_)
    (fun w _ _ => within_ram (by omega) (by omega))).bind fun m₅ hm₅ => ?_
  · simp only [Bindings.bindRange]
    rw [if_neg (by omega), if_neg (by omega), if_neg (by omega), if_neg (by omega)]
  rw [htrampoline]
  refine (hm₅.1.kernelVirtualMap (by omega) .code trampolinePage t 1
    (by omega) (by omega) (by omega) (fun w _ _ => ?_)
    (fun w _ _ => within_stack (by omega) (by omega))).bind fun m₆ hm₆ => hrest m₆ hm₆.1
  · simp only [Bindings.bindRange]
    rw [if_neg (by omega), if_neg (by omega), if_neg (by omega), if_neg (by omega),
      if_neg (by omega)]

section
variable {v n w p : ℕ} {permissions : PagePermissions} {user : Bool}

theorem bindRange_of_mem (h : v ≤ w ∧ w < v + n) :
    f.bindRange v n p permissions user w = some ⟨p + (w - v), permissions, user⟩ := if_pos h

theorem bindRange_of_not_mem (h : ¬ (v ≤ w ∧ w < v + n)) :
    f.bindRange v n p permissions user w = f w := if_neg h

end

theorem fixedSpace_data {t w : ℕ} (ht : 0x80000 ≤ t) (hlt : t + 1 < 0x88000)
    (hw : w = 0x10000 ∨ w = 0x10001 ∨ (0xc000 ≤ w ∧ w < 0xc400) ∨ (t + 1 ≤ w ∧ w < 0x88000)) :
    fixedSpace t w = some ⟨w, ⟨true, true, false⟩, false⟩ := by
  have hpage : trampolinePage = 2 ^ 26 - 1 := by decide
  simp only [fixedSpace]
  rw [bindRange_of_not_mem (by omega)]
  rcases hw with hw | hw | hw | hw
  · rw [bindRange_of_not_mem (by omega), bindRange_of_not_mem (by omega),
      bindRange_of_not_mem (by omega), bindRange_of_not_mem (by omega),
      bindRange_of_mem (by omega), hw]
    rfl
  · rw [bindRange_of_not_mem (by omega), bindRange_of_not_mem (by omega),
      bindRange_of_not_mem (by omega), bindRange_of_mem (by omega), hw]
    rfl
  · rw [bindRange_of_not_mem (by omega), bindRange_of_not_mem (by omega),
      bindRange_of_mem (by omega), Nat.add_sub_cancel' hw.1]
    rfl
  · rw [bindRange_of_mem (by omega), Nat.add_sub_cancel' hw.1]
    rfl

theorem fixedSpace_code {t w : ℕ} (hlt : t + 1 < 0x88000) (hw : 0x80000 ≤ w ∧ w < t + 1) :
    fixedSpace t w = some ⟨w, ⟨true, false, true⟩, false⟩ := by
  have hpage : trampolinePage = 2 ^ 26 - 1 := by decide
  simp only [fixedSpace]
  rw [bindRange_of_not_mem (by omega), bindRange_of_not_mem (by omega),
    bindRange_of_mem (by omega), Nat.add_sub_cancel' hw.1]
  rfl

theorem fixedSpace_trampoline (t : ℕ) :
    fixedSpace t trampolinePage = some ⟨t, ⟨true, false, true⟩, false⟩ := by
  simp only [fixedSpace]
  rw [bindRange_of_mem (by omega), Nat.sub_self]
  rfl

theorem fixedSpace_none {t w : ℕ} (ht : 0x80000 ≤ t) (hlt : t + 1 < 0x88000)
    (hdata : ¬ (w = 0x10000 ∨ w = 0x10001 ∨ (0xc000 ≤ w ∧ w < 0xc400) ∨
      (t + 1 ≤ w ∧ w < 0x88000))) (hcode : ¬ (0x80000 ≤ w ∧ w < t + 1))
    (htrampoline : w ≠ trampolinePage) : fixedSpace t w = none := by
  simp only [fixedSpace]
  rw [bindRange_of_not_mem (by omega), bindRange_of_not_mem (by omega),
    bindRange_of_not_mem (by omega), bindRange_of_not_mem (by omega),
    bindRange_of_not_mem (by omega), bindRange_of_not_mem (by omega)]

theorem Image.isData_iff {t w : ℕ} (hetext : image.etext = (t + 1) * pageSize) :
    image.IsData w ↔
      w = 0x10000 ∨ w = 0x10001 ∨ (0xc000 ≤ w ∧ w < 0xc400) ∨ (t + 1 ≤ w ∧ w < 0x88000) := by
  rw [IsData, hetext, Nat.mul_div_cancel _ (by decide)]
  rfl

theorem Image.isCode_iff {t w : ℕ} (hetext : image.etext = (t + 1) * pageSize) :
    image.IsCode w ↔ 0x80000 ≤ w ∧ w < t + 1 := by
  rw [IsCode, hetext, Nat.mul_div_cancel _ (by decide)]
  rfl

/-- When everything is mapped, all nodes are there. -/
theorem missing_eq_zero (h : Stage image taken root f m) (hf : ∀ v ∈ leafPages, f v ≠ none) :
    missing nodePaths root m = 0 := by
  have hmax : ∀ v ∈ leafPages, v < maxVirtualPage := by decide +kernel
  have hroots : ∀ v ∈ rootPages, v ∈ leafPages := by decide +kernel
  have hnode : ∀ v ∈ leafPages, ∃ p, m.node root (path v) = some p := by
    intro v hv
    have hbound := hf v hv
    rw [← h.bound v (hmax v hv), bindings] at hbound
    cases hp : m.node root (path v) with
    | none =>
      rw [hp] at hbound
      exact absurd rfl hbound
    | some p => exact ⟨p, rfl⟩
  refine List.countP_eq_zero.mpr fun is his => ?_
  rw [Bool.not_eq_true, Option.isNone_eq_false_iff]
  rw [nodePaths, List.mem_append, List.mem_map, List.mem_map] at his
  obtain ⟨v, hv, rfl⟩ | ⟨v, hv, rfl⟩ := his
  · obtain ⟨p, hp⟩ := hnode v (hroots v hv)
    rw [path, show [Memory.pageIndex v .root, Memory.pageIndex v .branch] =
      [Memory.pageIndex v .root] ++ [Memory.pageIndex v .branch] from rfl, node_concat] at hp
    obtain ⟨q, hq, -⟩ := Option.bind_eq_some_iff.mp hp
    rw [hq]
    rfl
  · obtain ⟨p, hp⟩ := hnode v hv
    rw [hp]
    rfl

/-- Each page of a stack has a page of memory for itself. -/
structure OwnPages (image : Image) (stack : ℕ → ℕ → Page) (root : Page) (m : Machine) :
    Prop where
  inj : ∀ p < processTableLen, ∀ i < kernelStackPageCount, ∀ q < processTableLen,
    ∀ j < kernelStackPageCount, stack p i = stack q j → p = q ∧ i = j
  notFree : ∀ p < processTableLen, ∀ i < kernelStackPageCount, stack p i ∉ m.allocator.free
  inRange : ∀ p < processTableLen, ∀ i < kernelStackPageCount,
    image.kernelEnd ≤ stack p i * pageSize ∧ stack p i * pageSize < physicalStopAddress
  notNode : ∀ p < processTableLen, ∀ i < kernelStackPageCount,
    Fresh child 2 m.memory root (stack p i)

theorem Stacked.ownPages (h : Stacked image root f₀ pages m) (hlen : pages.length = 384) :
    OwnPages image (fun p i => pages.getD (6 * p + i) 0) root m := by
  have hget : ∀ k (hk : k < pages.length), pages.getD k 0 = pages[k] := by
    intro k hk
    rw [List.getD_eq_getElem?_getD, List.getElem?_eq_getElem hk, Option.getD_some]
  have hmem : ∀ p < 64, ∀ i < 6, pages.getD (6 * p + i) 0 ∈ pages := by
    intro p hp i hi
    rw [hget _ (by omega)]
    exact List.getElem_mem _
  refine ⟨fun p hp i hi q hq j hj heq => ?_, fun p hp i hi => (h.taken _ (hmem p hp i hi)).1,
    fun p hp i hi => ?_, fun p hp i hi => h.fresh _ (hmem p hp i hi)⟩
  · have hp' : p < 64 := hp
    have hq' : q < 64 := hq
    have hi' : i < 6 := hi
    have hj' : j < 6 := hj
    rw [hget _ (by omega), hget _ (by omega)] at heq
    have hindex := (List.Nodup.getElem_inj_iff h.nodup).mp heq
    omega
  · obtain ⟨f, hstage, -⟩ := h.stage
    have hin := (h.taken _ (hmem p hp i hi)).2
    rw [Machine.outOfRange, hstage.end_eq, Bool.or_eq_false_iff] at hin
    exact ⟨Nat.le_of_not_lt (of_decide_eq_false hin.1), Nat.lt_of_not_le (of_decide_eq_false hin.2)⟩

/-- What the boot leaves behind. -/
structure Booted (image : Image) (root : Page) (m : Machine) (stack : ℕ → ℕ → Page)
    (space : Bindings) : Prop where
  separated : Separated root m
  kernelSpace : KernelSpace image stack space
  walk : ∀ va < maxVirtualAddress, lookup root va m = .ok (space (va / pageSize))
  ownPages : OwnPages image stack root m
  spent : m.allocator.free.length + 456 = image.freePages

theorem fixedSpace_leafPages {t : ℕ} (ht : 0x80000 ≤ t) (hlt : t + 1 < 0x88000) :
    ∀ v ∈ leafPages, fixedSpace t v ≠ none := by
  intro v hv
  have hcases : v = 0xc000 ∨ v = 0xc200 ∨ v = 0x10000 ∨ v = trampolinePage ∨
      (0x80000 ≤ v ∧ v < 0x88000) := by
    rcases List.mem_append.mp hv with hv | hv
    · simp only [List.mem_cons, List.not_mem_nil, or_false] at hv
      omega
    · obtain ⟨k, hk, rfl⟩ := List.mem_map.mp hv
      have hk := List.mem_range.mp hk
      omega
  by_cases htv : v = trampolinePage
  · rw [htv, fixedSpace_trampoline]
    exact Option.some_ne_none _
  by_cases hc : 0x80000 ≤ v ∧ v < t + 1
  · rw [fixedSpace_code hlt hc]
    exact Option.some_ne_none _
  · rw [fixedSpace_data ht hlt (by omega)]
    exact Option.some_ne_none _

theorem fixedSpace_stackPage {t j : ℕ} (ht : 0x80000 ≤ t) (hlt : t + 1 < 0x88000) (hj : j < 384) :
    fixedSpace t (stackPage j) = none := by
  have hpage : trampolinePage = 2 ^ 26 - 1 := by decide
  have hrange := stackPage_range hj
  exact fixedSpace_none ht hlt (by omega) (by omega) (by omega)

/-- The stacks take nothing from what was bound before. -/
theorem StackBindings.fixed {t : ℕ} (h : StackBindings (fixedSpace t) f pages)
    (ht : 0x80000 ≤ t) (hlt : t + 1 < 0x88000) (hlen : pages.length = 384) {w : ℕ} {b : Binding}
    (hw : fixedSpace t w = some b) : f w = some b := by
  rw [h.other w fun j hj heq => ?_, hw]
  rw [heq, fixedSpace_stackPage ht hlt (by omega)] at hw
  cases hw

theorem StackBindings.kernelSpace {t : ℕ}
    (h : StackBindings (fixedSpace t) f pages) (ht : 0x80000 ≤ t) (hlt : t + 1 < 0x88000)
    (htrampoline : image.trampoline = t * pageSize) (hetext : image.etext = (t + 1) * pageSize)
    (hlen : pages.length = 384) :
    KernelSpace image (fun p i => pages.getD (6 * p + i) 0)
      (fun w => if w < maxVirtualPage then f w else none) := by
  have hpage : trampolinePage = 2 ^ 26 - 1 := by decide
  have hmax : maxVirtualPage = 2 ^ 26 := rfl
  refine ⟨fun w hw => ?_, fun w hw => ?_, ?_, fun p hp i hi => ?_, fun w hw => ?_⟩
  · have hcases := (Image.isData_iff hetext).mp hw
    rw [if_pos (by omega), h.fixed ht hlt hlen (fixedSpace_data ht hlt hcases)]
  · have hcases := (Image.isCode_iff hetext).mp hw
    rw [if_pos (by omega), h.fixed ht hlt hlen (fixedSpace_code hlt hcases)]
  · rw [if_pos (by decide), htrampoline, Nat.mul_div_cancel _ (by decide)]
    exact h.fixed ht hlt hlen (fixedSpace_trampoline t)
  · have hp' : p < 64 := hp
    have hi' : i < 6 := hi
    have hstack : kernelStackAddress p / pageSize + i = stackPage (6 * p + i) := by
      rw [stackPage, show (6 * p + i) / 6 = p by omega, show (6 * p + i) % 6 = i by omega]
    have hrange := stackPage_range (j := 6 * p + i) (by omega)
    rw [hstack, if_pos (by omega)]
    apply h.mapped
    rw [List.getD_eq_getElem?_getD, List.getElem?_eq_getElem (by omega), Option.getD_some]
  · by_cases hlt' : w < maxVirtualPage
    · rw [if_pos hlt'] at hw
      by_cases hstack : ∃ j < 384, w = stackPage j
      · obtain ⟨j, hj, hwj⟩ := hstack
        refine .inr (.inr (.inr ⟨j / 6, ?_, j % 6, Nat.mod_lt _ (by decide), hwj⟩))
        simp only [processTableLen]
        omega
      · rw [h.other w fun j hj heq => hstack ⟨j, by omega, heq⟩] at hw
        by_contra hne
        rw [not_or, not_or, not_or] at hne
        obtain ⟨hd, hc, htw, -⟩ := hne
        exact hw (fixedSpace_none ht hlt (fun hx => hd ((Image.isData_iff hetext).mpr hx))
          (fun hx => hc ((Image.isCode_iff hetext).mpr hx)) htw)
    · rw [if_neg hlt'] at hw
      exact absurd rfl hw

theorem Stacked.booted {t : ℕ} (ht : 0x80000 ≤ t) (hlt : t + 1 < 0x88000)
    (htrampoline : image.trampoline = t * pageSize) (hetext : image.etext = (t + 1) * pageSize)
    (h : Stacked image root (fixedSpace t) pages m) (hlen : pages.length = 384) :
    ∃ stack space, Booted image root m stack space := by
  obtain ⟨f, hstage, hbindings⟩ := h.stage
  have hleaf : ∀ v ∈ leafPages, f v ≠ none := by
    intro v hv
    obtain ⟨b, hb⟩ := Option.ne_none_iff_exists'.mp (fixedSpace_leafPages ht hlt v hv)
    rw [hbindings.fixed ht hlt hlen hb]
    exact Option.some_ne_none _
  refine ⟨_, _, hstage.separated,
    hbindings.kernelSpace ht hlt htrampoline hetext hlen, fun va hva => ?_, h.ownPages hlen, ?_⟩
  · have hlt' : va / pageSize < maxVirtualPage := by
      simp only [maxVirtualAddress, maxVirtualPage, pageSize] at *
      omega
    rw [lookup_eq hva, if_pos hlt', hstage.bound _ hlt']
  · have haccount := hstage.account
    rw [missing_eq_zero hstage hleaf, nodePaths_length, hlen] at haccount
    omega

theorem initPageTable_spec (image : Image) {m : Machine} (hnodup : m.allocator.free.Nodup)
    (hin : ∀ p ∈ m.allocator.free, m.outOfRange p = false)
    (hnever : ∀ i, m.allocator.fails i = false)
    (htotal : m.allocator.free.length = image.freePages)
    (hend : m.kernelEndAddress = image.kernelEnd) :
    EndsOr (initPageTable image m)
      (fun x => ∃ stack space, Booted image x.1 x.2 stack space) (image.freePages < 456) := by
  obtain ⟨hzero, hnone⟩ | ⟨root, m₁, halloc, hpos, hstage⟩ :=
    Stage.initial hnodup hin hnever htotal hend
  · rw [initPageTable, show KernelMemory.allocPage .zeroed m =
      (none, (KernelMemory.allocPage .zeroed m).2) from Prod.ext hnone rfl]
    exact .inr ⟨⟨_, rfl⟩, by omega⟩
  obtain ⟨t, ht, htrampoline, hetext⟩ := image.exists_page
  have hlt : t + 1 < 0x88000 := by
    have hle := image.etext_le
    simp only [Image.freePages, Image.firstPage, alignForward, physicalStopAddress, pageSize]
      at hpos hle hetext
    omega
  rw [initPageTable, halloc]
  refine initPageTable_stage image ht htrampoline hetext hstage hlt fun m₂ hm₂ => ?_
  have hfree : ∀ j < 384, fixedSpace t (stackPage j) = none := fun j hj =>
    fixedSpace_stackPage ht hlt hj
  refine (mapKernelStacks_spec hm₂ hfree).bind fun m₃ hm₃ => ?_
  obtain ⟨pages, hlen, hstacked⟩ := hm₃
  exact .inl ⟨(root, m₃), rfl, hstacked.booted ht hlt htrampoline hetext hlen⟩

/-- Where there are 456 free pages behind the kernel, the boot builds the table of the kernel
with them: devices, code and data are mapped to themselves, the trampoline to its page, and
each stack to pages of its own between two guard pages. With fewer pages it panics. -/
theorem boot_kernelSpace (image : Image) (memory : Page → Index → PageTableEntry) :
    (456 ≤ image.freePages → ∃ root m, boot image memory = .ok (root, m) ∧
      ∃ stack space, Booted image root m stack space ∧
        ∀ p < processTableLen, lookup root (kernelStackAddress p - 1) m = .ok none ∧
          lookup root (kernelStackAddress p + kernelStackPageCount * pageSize) m = .ok none) ∧
    (image.freePages < 456 → ∃ p, boot image memory = .error p) := by
  obtain ⟨m₀, hinit, hnodup, htotal, hin, hnever, hend⟩ := init_spec image memory
  have hboot : boot image memory = initPageTable image m₀ := by
    rw [boot, hinit]
    rfl
  rw [hboot]
  obtain ⟨⟨root, m⟩, hok, stack, space, hbooted⟩ | ⟨herror, hshort⟩ :=
    initPageTable_spec image hnodup hin hnever htotal hend
  · have hspent := hbooted.spent
    refine ⟨fun _ => ⟨root, m, hok, stack, space, hbooted, fun p hp => ?_⟩, fun hlt => ?_⟩
    · have hram : image.etext ≤ physicalStopAddress := by
        have hle := image.etext_le
        simp only [Image.freePages, Image.firstPage, alignForward, physicalStopAddress, pageSize]
          at hspent hle ⊢
        omega
      have hguards := hbooted.kernelSpace.guards hram hp
      obtain ⟨hlt, hbelow, habove⟩ := kernelStackAddress_page hp
      rw [hbooted.walk _ (by omega), hbooted.walk _ (by omega), hbelow, habove]
      exact ⟨congrArg Except.ok hguards.1, congrArg Except.ok hguards.2⟩
    · omega
  · exact ⟨fun hle => absurd hle (by omega), fun _ => herror⟩

/-- An image of 34 pages, with eight pages of code. -/
def smallImage : Image where
  trampoline := 0x80007000
  etext := 0x80008000
  kernelEnd := 0x80021d60
  base_le := by decide
  aligned := by decide
  etext_eq := by decide
  etext_le := by decide

theorem boot_kernelSpace_small : ∃ root m, boot smallImage (fun _ _ => .empty) = .ok (root, m) ∧
    m.allocator.free.length = 32278 ∧ lookup root 0x80007abc m =
      .ok (some ⟨0x80007, ⟨true, false, true⟩, false⟩) := by
  have hpages : smallImage.freePages = 32734 := by decide
  obtain ⟨root, m, hboot, stack, space, hbooted, -⟩ :=
    (boot_kernelSpace smallImage (fun _ _ => .empty)).1 (by rw [hpages]; decide)
  have hspent := hbooted.spent
  refine ⟨root, m, hboot, by omega, ?_⟩
  rw [hbooted.walk _ (by decide), hbooted.kernelSpace.code _ ⟨by decide, by decide⟩]
  rfl

end Zigmaos.KernelMemory
