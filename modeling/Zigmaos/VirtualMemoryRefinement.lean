import Zigmaos.VirtualMemoryInvariant

/-!
# Runs of map and unmap

The operations one by one, as updates of the partial function, and the states
that they reach in any order. Between them the rest of the kernel may take and
free pages and write to every page that is not a node of the table.
-/
namespace Zigmaos.VirtualMemory
open Memory RadixTree PageTableEntry

variable {root : Page} {m m' : Machine} {va pa size n : ℕ} {permissions : PagePermissions}
  {addressSpace : AddressSpace} {doFree : Bool}

/-! ## The operations -/

/-- What `map` makes of the bindings. -/
structure Maps (root : Page) (va pa size : ℕ) (permissions : PagePermissions)
    (addressSpace : AddressSpace) (m : Machine) (r : Except MapError Unit) (m' : Machine) :
    Prop where
  separated : Separated root m'
  /-- The pages of the range are bound to consecutive physical pages. -/
  bound : r = .ok () → ∀ w, Covers va size w → w < maxVirtualPage ∧ bindings root m' w =
    some ⟨pa / pageSize + (w - va / pageSize), permissions, addressSpace = .user⟩
  other : ∀ w < maxVirtualPage, ¬ Covers va size w → bindings root m' w = bindings root m w
  /-- Also where `map` fails. -/
  kept : ∀ w < maxVirtualPage, bindings root m w ≠ none → bindings root m' w = bindings root m w
  fails : ∀ w < maxVirtualPage, Covers va size w → bindings root m w ≠ none → r ≠ .ok ()

theorem MapsPages.maps {r : Except MapError Unit} {k : ℕ} (hsize : size ≠ 0)
    (h : MapsPages root m (va / pageSize) (coveredPages va size) (pa / pageSize) permissions
      (addressSpace = .user) r m' k) : Maps root va pa size permissions addressSpace m r m' where
  separated := h.separated
  bound hok w hw := by
    obtain ⟨hle, hlt⟩ := (covers_iff hsize).mp hw
    have hk := h.ok hok
    have hmax := h.inRange (by omega)
    refine ⟨by omega, ?_⟩
    rw [h.bound w (by omega), Bindings.bindRange, if_pos (by omega)]
  other w hw hne := by
    rw [covers_iff hsize] at hne
    have := h.le
    rw [h.bound w hw, Bindings.bindRange, if_neg (by omega)]
  kept w hw hne := by
    rw [h.bound w hw, Bindings.bindRange, if_neg]
    rintro ⟨hle, hlt⟩
    exact hne (h.unbound w hle hlt)
  fails w hw hcov hne hok := by
    obtain ⟨hle, hlt⟩ := (covers_iff hsize).mp hcov
    exact hne (h.unbound w hle (by rw [h.ok hok]; exact hlt))

/-- Nothing is bound where no page is to be mapped. -/
theorem maps_zero (h : Separated root m) {e : MapError} :
    Maps root va pa size permissions addressSpace m (.error e) m :=
  ⟨h, nofun, fun _ _ _ => rfl, fun _ _ _ => rfl, fun _ _ _ _ => nofun⟩

theorem map_spec (h : Separated root m) (va pa size : ℕ) (permissions : PagePermissions)
    (addressSpace : AddressSpace) :
    (¬ (va + size ≤ maxVirtualAddress ∧ pa / pageSize + coveredPages va size ≤ 2 ^ 44) ∧
      ∃ q, map root va pa size permissions addressSpace m = .error q) ∨
    ∃ r m', map root va pa size permissions addressSpace m = .ok (r, m') ∧
      Maps root va pa size permissions addressSpace m r m' := by
  unfold map
  by_cases hsize : size = 0
  · rw [if_pos hsize]
    exact .inr ⟨_, m, rfl, maps_zero h⟩
  rw [if_neg hsize, coveringPages, add]
  by_cases hadd : va + (size - 1) < 2 ^ 64
  · rw [if_pos hadd, ok_bind]
    change _ ∨ ∃ r m', mapPages root va pa permissions addressSpace 0 (coveredPages va size) m =
      .ok (r, m') ∧ _
    obtain ⟨hne, q, hq⟩ | ⟨r, m', k, hr, hmaps⟩ := mapPages_spec h va pa permissions
      addressSpace 0 (coveredPages va size)
    · refine .inl ⟨?_, q, hq⟩
      rintro ⟨hva, hpa⟩
      refine hne ⟨?_, hpa⟩
      simp only [coveredPages, maxVirtualPage, maxVirtualAddress, pageSize] at hva ⊢
      omega
    · exact .inr ⟨r, m', hr, hmaps.maps hsize⟩
  · rw [if_neg hadd]
    refine .inl ⟨?_, _, rfl⟩
    simp only [maxVirtualAddress]
    omega

/-- The pages that `unmap` is about. -/
def AllRemovable (root : Page) (m : Machine) (va n : ℕ) : Prop :=
  ∀ w, va / pageSize ≤ w → w < va / pageSize + n → Removable root m w

theorem unmap_spec (h : Separated root m)
    (howned : doFree = true → Owned root m (va / pageSize) n) :
    (¬ (va % pageSize = 0 ∧ AllRemovable root m va n) ∧
      ∃ q, unmap root va n doFree m = .error q) ∨
    (va % pageSize = 0 ∧ AllRemovable root m va n) ∧ ∃ m', unmap root va n doFree m = .ok m' ∧
      UnmapsPages root m (va / pageSize) n m' := by
  unfold unmap
  by_cases haligned : va % pageSize = 0
  · rw [if_neg (by simpa using haligned)]
    obtain ⟨hne, q, hq⟩ | ⟨hall, m', hm', hunmaps⟩ := unmapPages_spec h 0 n howned
    · exact .inl ⟨fun hr => hne hr.2, q, hq⟩
    · exact .inr ⟨⟨haligned, hall⟩, m', hm', hunmaps⟩
  · rw [if_pos haligned]
    exact .inl ⟨fun hr => haligned hr.1, _, rfl⟩

/-- The entry that `walk` finds. -/
def lookup (root : Page) (va : ℕ) (m : Machine) : Except Panic (Option Binding) := do
  let (slot, m) ← walk root va false m
  match slot with
  | .error _ => return none
  | .ok slot => return (m.entry slot).binding

theorem lookup_eq (hva : va < maxVirtualAddress) :
    lookup root va m = .ok (bindings root m (va / pageSize)) := by
  rw [lookup, walk_false hva, ok_bind, bindings]
  cases m.node root (path (va / pageSize)) <;> rfl

theorem translateAddress_spec : ∃ r, translateAddress root va m = .ok (r, m) ∧
    ∀ a, r = .ok a ↔ va < maxVirtualAddress ∧ ∃ b, bindings root m (va / pageSize) = some b ∧
      b.user = true ∧ a = b.page * pageSize := by
  unfold translateAddress
  by_cases hva : va < maxVirtualAddress
  · have hrange : isOutOfRange va = false := by simpa [isOutOfRange] using hva
    rw [hrange, if_neg (by decide), walk_false hva, ok_bind, bindings]
    cases hp : m.node root (path (va / pageSize)) with
    | none => exact ⟨_, rfl, fun a => by simp⟩
    | some p =>
      obtain ⟨pte, hpte⟩ : ∃ pte, m.entry ⟨p, Memory.pageIndex (va / pageSize) .leaf⟩ = pte :=
        ⟨_, rfl⟩
      rw [Option.bind_some, show m.memory p (Memory.pageIndex (va / pageSize) .leaf) = pte from hpte]
      simp only [hpte]
      by_cases hvalid : pte.valid = false
      · rw [if_pos hvalid, binding_eq_none.mpr hvalid]
        exact ⟨_, rfl, fun a => by simp⟩
      · have hb : pte.binding = some ⟨pte.ppn, pte.permissions, pte.user⟩ := by
          simpa [binding] using hvalid
        rw [if_neg hvalid, hb]
        by_cases huser : pte.user = false
        · rw [if_pos huser]
          exact ⟨_, rfl, fun a => by simp [huser]⟩
        · rw [if_neg huser]
          refine ⟨_, rfl, fun a => ?_⟩
          simp only [Except.ok.injEq, Option.some.injEq, exists_eq_left', hva, true_and,
            Bool.not_eq_false] at huser ⊢
          rw [and_iff_right huser]
          exact eq_comm
  · have hrange : isOutOfRange va = true := by simpa [isOutOfRange] using hva
    rw [hrange, if_pos rfl]
    exact ⟨_, rfl, fun a => by simp [hva]⟩

/-! ## Runs -/

/-- What the rest of the kernel does: it leaves the nodes alone, and what it
frees is not a node. -/
structure Environment (root : Page) (m m' : Machine) : Prop where
  nodes : ∀ p, (∃ is, is.length ≤ 2 ∧ m.node root is = some p) → m'.memory p = m.memory p
  fresh : ∀ p ∈ m'.allocator.free, Fresh child 2 m.memory root p
  inRange : ∀ p ∈ m'.allocator.free, m'.outOfRange p = false
  nodup : m'.allocator.free.Nodup

/-- A step that comes to its end. Whoever lets `unmap` free the pages owns them. -/
inductive Step (root : Page) : Machine → Machine → Prop
  | map {m m' : Machine} {va pa size : ℕ} {permissions : PagePermissions}
      {addressSpace : AddressSpace} {r : Except MapError Unit}
      (h : map root va pa size permissions addressSpace m = .ok (r, m')) : Step root m m'
  | unmap {m m' : Machine} {va n : ℕ} {doFree : Bool}
      (howned : doFree = true → Owned root m (va / pageSize) n)
      (h : unmap root va n doFree m = .ok m') : Step root m m'
  | environment {m m' : Machine} (h : Environment root m m') : Step root m m'

theorem Separated.step (h : Separated root m) (hs : Step root m m') : Separated root m' := by
  cases hs with
  | @map va pa size permissions addressSpace r hr =>
    obtain ⟨-, q, hq⟩ | ⟨r', m'', hr', hmaps⟩ := map_spec h va pa size permissions
      addressSpace
    · rw [hq] at hr
      cases hr
    · rw [hr'] at hr
      cases hr
      exact hmaps.separated
  | @unmap va n doFree howned hr =>
    obtain ⟨-, q, hq⟩ | ⟨-, m'', hm'', hunmaps⟩ := unmap_spec h howned
    · rw [hq] at hr
      cases hr
    · rw [hm''] at hr
      cases hr
      exact hunmaps.separated
  | environment he => exact h.congr he.nodes he.fresh he.inRange he.nodup

theorem Separated.run (h : Separated root m) (hs : Relation.ReflTransGen (Step root) m m') :
    Separated root m' := by
  induction hs with
  | refl => exact h
  | tail _ hstep ih => exact ih.step hstep

/-- In every state that is reached, the walk reads one partial function;
`map` of a range in range binds its pages, unless one is bound or memory runs
out, and then keeps what is bound; `unmap` removes its pages, if all are bound with
some permission; and `translateAddress` finds the pages of the user. -/
theorem refines_partial_function {s : Machine} (h₀ : Separated root m)
    (hrun : Relation.ReflTransGen (Step root) m s) :
    (∀ va < maxVirtualAddress, lookup root va s = .ok (bindings root s (va / pageSize))) ∧
    (∀ va pa size permissions addressSpace,
      (∀ r s', map root va pa size permissions addressSpace s = .ok (r, s') →
        Maps root va pa size permissions addressSpace s r s') ∧
      (va + size ≤ maxVirtualAddress → pa / pageSize + coveredPages va size ≤ 2 ^ 44 →
        ∃ r s', map root va pa size permissions addressSpace s = .ok (r, s'))) ∧
    (∀ va n doFree, (doFree = true → Owned root s (va / pageSize) n) →
      (∀ s', unmap root va n doFree s = .ok s' → AllRemovable root s va n ∧
        ∀ w < maxVirtualPage, bindings root s' w =
          (bindings root s).unbindRange (va / pageSize) n w) ∧
      (va % pageSize = 0 → AllRemovable root s va n → ∃ s', unmap root va n doFree s = .ok s')) ∧
    ∀ va, ∃ r, translateAddress root va s = .ok (r, s) ∧
      ∀ a, r = .ok a ↔ va < maxVirtualAddress ∧ ∃ b, bindings root s (va / pageSize) = some b ∧
        b.user = true ∧ a = b.page * pageSize := by
  have h := h₀.run hrun
  refine ⟨fun va hva => lookup_eq hva, fun va pa size permissions addressSpace => ?_,
    fun va n doFree howned => ?_, fun va => translateAddress_spec⟩
  · obtain ⟨hne, q, hq⟩ | ⟨r, s', hr, hmaps⟩ := map_spec h va pa size permissions
      addressSpace
    · refine ⟨fun r s' hr => ?_, fun hva hpa => absurd ⟨hva, hpa⟩ hne⟩
      rw [hq] at hr
      cases hr
    · refine ⟨fun r' s'' hr' => ?_, fun _ _ => ⟨r, s', hr⟩⟩
      rw [hr] at hr'
      cases hr'
      exact hmaps
  · obtain ⟨hne, q, hq⟩ | ⟨hall, s', hs', hunmaps⟩ := unmap_spec h howned
    · refine ⟨fun s' hs' => ?_, fun haligned hall => absurd ⟨haligned, hall⟩ hne⟩
      rw [hq] at hs'
      cases hs'
    · refine ⟨fun s'' hs'' => ?_, fun _ _ => ⟨s', hs'⟩⟩
      rw [hs'] at hs''
      cases hs''
      exact ⟨hall.2, hunmaps.bound⟩

/-- An empty table and free pages after it. -/
def boot : Machine where
  memory _ _ := .empty
  allocator := ⟨[0x80002, 0x80003, 0x80004], fun _ => false, 0⟩
  kernelEndAddress := 0x80001000

theorem boot_node {is : List Index} {p : Page} (h : boot.node 0x80001 is = some p) :
    is = [] ∧ p = 0x80001 := by
  cases is with
  | nil => exact ⟨rfl, (Option.some.inj h).symm⟩
  | cons i is => cases h

theorem separated_boot : Separated 0x80001 boot where
  nodes is js p _ _ hp hq := by rw [(boot_node hp).1, (boot_node hq).1]
  fresh p hp is _ heq := by
    rw [(boot_node heq).2] at hp
    exact absurd hp (by decide)
  inRange := by decide
  nodup := by decide

/-- Two bytes across a page boundary are two pages, of which the first is then unmapped. -/
theorem refines_partial_function_boot : ∃ s s' : Machine,
    Relation.ReflTransGen (Step 0x80001) boot s' ∧
    bindings 0x80001 s 3 = some ⟨0x80007, ⟨true, false, false⟩, true⟩ ∧
    bindings 0x80001 s' 2 = none ∧
    bindings 0x80001 s' 3 = some ⟨0x80007, ⟨true, false, false⟩, true⟩ := by
  have hmap : ((map 0x80001 0x2fff 0x80006000 2 ⟨true, false, false⟩ .user boot).toOption.any
      fun x => x.1.toOption.isSome &&
        (unmap 0x80001 0x2000 1 false x.2).toOption.isSome) = true := by decide +kernel
  obtain ⟨⟨r, s⟩, hs, hcond⟩ := (Option.any_eq_true _ _).mp hmap
  obtain ⟨hok, hunmap⟩ := (Bool.and_eq_true _ _).mp hcond
  cases hres : map 0x80001 0x2fff 0x80006000 2 ⟨true, false, false⟩ .user boot with
  | error q => simp [hres, Except.toOption] at hs
  | ok x =>
    obtain rfl : x = (r, s) := by simpa [hres, Except.toOption] using hs
    obtain rfl : r = .ok () := by
      cases r with
      | error e => simp [Except.toOption] at hok
      | ok u => rfl
    cases hres' : unmap 0x80001 0x2000 1 false s with
    | error q => simp [hres', Except.toOption] at hunmap
    | ok s' =>
      have hrun : Relation.ReflTransGen (Step 0x80001) boot s := .single (.map hres)
      have hbound := (((refines_partial_function separated_boot .refl).2.1 _ _ _ _ _).1 _ _ hres).bound
        rfl 3 (by constructor <;> decide)
      have hremoved := (((refines_partial_function separated_boot hrun).2.2.1 0x2000 1 false
        nofun).1 s' hres').2
      refine ⟨s, s', hrun.tail (.unmap (fun h => absurd h (by decide)) hres'), hbound.2, hremoved 2 (by decide), ?_⟩
      exact (hremoved 3 (by decide)).trans hbound.2

end Zigmaos.VirtualMemory
