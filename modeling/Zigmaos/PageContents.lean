import Zigmaos.Boundary
import Zigmaos.LittleEndian
import Zigmaos.UserMemory

/-!
# User memory with the bytes of its pages

The functions that allocate and free pages, with physical memory: a page is
zeroed when it is handed out, and overwritten when it is given back. Without the
bytes they are the functions of `UserMemory`.
-/
namespace Zigmaos.Memory
open LittleEndian (byteLE)

/-- `@memset` of a page. -/
def PhysicalMemory.fill (memory : PhysicalMemory) (page : Page) (byte : UInt8) : PhysicalMemory :=
  fun a => if a / pageSize = page then byte else memory a

/-- The free list, and physical memory. -/
structure Frames where
  allocator : Allocator
  memory : PhysicalMemory

namespace Frames

/-- `allocPage(.zeroed)` -/
def allocPage (m : Frames) : Option Page × Frames :=
  match m.allocator.allocPage with
  | (none, a) => (none, { m with allocator := a })
  | (some page, a) => (some page, ⟨a, (m.memory.fill page 5).fill page 0⟩)

/-- The address of the block that a freed page points to. -/
def next (a : Allocator) : ℕ := a.free.head?.elim 0 (· * pageSize)

def freePage (m : Frames) (page : Page) : Frames where
  allocator := m.allocator.freePage page
  memory := (m.memory.fill page 1).store (page * pageSize)
    ((List.range 8).map (byteLE (next m.allocator)))

def descend {ε : Type} (e : Option (Node ε)) (m : Frames) : Option (Node ε) × Frames :=
  match e with
  | some n => (some n, m)
  | none =>
    match m.allocPage with
    | (some p, m) => (some (.empty p), m)
    | (none, m) => (none, m)

def walk (t : PageTable) (v : ℕ) (m : Frames) : Bool × PageTable × Frames :=
  match descend (t.entries (pageIndex v .root)) m with
  | (none, m) => (false, t, m)
  | (some b, m) =>
    match descend (b.entries (pageIndex v .branch)) m with
    | (none, m) => (false, t.set (pageIndex v .root) (some b), m)
    | (some l, m) =>
      (true, t.set (pageIndex v .root) (some (b.set (pageIndex v .branch) (some l))), m)

def map (t : PageTable) (m : Frames) (v : ℕ) (page : Page) (permissions : PagePermissions)
    (user : Bool) : PageTable.MapResult × PageTable × Frames :=
  match walk t v m with
  | (false, t, m) => (.outOfMemory, t, m)
  | (true, t, m) =>
    if (t.leaf v).isSome then (.alreadyMappedPage, t, m)
    else (.ok, t.setEntry v (some ⟨permissions, user, page⟩), m)

def unmap (doFree : Bool) : PageTable → Frames → (startPage numPages : ℕ) →
    Except Panic (PageTable × Frames)
  | t, m, _, 0 => .ok (t, m)
  | t, m, v, n + 1 =>
    if maxVirtualPage ≤ v then .error .walk
    else
      match t.lookup v with
      | none => .error .uvmUnmapWalk
      | some none => .error .uvmUnmapNotMapped
      | some (some pte) =>
        if pte.isBranch then .error .uvmUnmapNotALeaf
        else unmap doFree (t.setEntry v none) (if doFree then m.freePage pte.page else m) (v + 1) n

def dealloc (t : PageTable) (m : Frames) (oldSize newSize : ℕ) :
    Except Panic (ℕ × PageTable × Frames) :=
  if oldSize ≤ newSize then .ok (oldSize, t, m)
  else if pageCount newSize < pageCount oldSize then
    match unmap true t m (pageCount newSize) (pageCount oldSize - pageCount newSize) with
    | .error p => .error p
    | .ok (t, m) => .ok (newSize, t, m)
  else .ok (newSize, t, m)

def allocPages (oldSize : ℕ) (permissions : PagePermissions) (t : PageTable) (m : Frames)
    (v : ℕ) : ℕ → Except Panic (Bool × PageTable × Frames)
  | 0 => .ok (true, t, m)
  | n + 1 =>
    match m.allocPage with
    | (none, m) =>
      match dealloc t m (v * pageSize) oldSize with
      | .error p => .error p
      | .ok (_, t, m) => .ok (false, t, m)
    | (some page, m) =>
      if maxVirtualPage ≤ v then .error .walk
      else
        match map t m v page permissions true with
        | (.ok, t, m) => allocPages oldSize permissions t m (v + 1) n
        | (_, t, m) =>
          match dealloc t (m.freePage page) (v * pageSize) oldSize with
          | .error p => .error p
          | .ok (_, t, m) => .ok (false, t, m)

def alloc (t : PageTable) (m : Frames) (oldSize newSize : ℕ) (permissions : PagePermissions) :
    Except Panic (Option ℕ × PageTable × Frames) :=
  if newSize < oldSize then .ok (some oldSize, t, m)
  else
    match allocPages oldSize permissions t m (pageCount oldSize)
        (pageCount newSize - pageCount oldSize) with
    | .error p => .error p
    | .ok (done, t, m) => .ok (if done then some newSize else none, t, m)

/-! ## Without the bytes -/

variable {α : Type}

/-- A result without the bytes of the pages. -/
def forget (r : α × PageTable × Frames) : α × PageTable × Allocator :=
  (r.1, r.2.1, r.2.2.allocator)

theorem allocPage_forget (m : Frames) :
    (m.allocPage.1, m.allocPage.2.allocator) = m.allocator.allocPage := by
  unfold allocPage
  obtain ⟨_ | page, a⟩ := m.allocator.allocPage <;> rfl

@[simp] theorem allocator_freePage (m : Frames) (page : Page) :
    (m.freePage page).allocator = m.allocator.freePage page := rfl

theorem descend_forget {ε : Type} (e : Option (Node ε)) (m : Frames) :
    ((descend e m).1, (descend e m).2.allocator) = PageTable.descend e m.allocator := by
  cases e with
  | some n => rfl
  | none =>
    rw [PageTable.descend, ← allocPage_forget, descend]
    obtain ⟨_ | page, m'⟩ := m.allocPage <;> rfl

theorem walk_forget (t : PageTable) (v : ℕ) (m : Frames) :
    forget (walk t v m) = t.walk v m.allocator := by
  rw [PageTable.walk, ← descend_forget, walk]
  obtain ⟨_ | b, m₁⟩ := descend (t.entries (pageIndex v .root)) m
  · rfl
  · simp only
    rw [← descend_forget]
    obtain ⟨_ | l, m₂⟩ := descend (b.entries (pageIndex v .branch)) m₁ <;> rfl

theorem map_forget (t : PageTable) (m : Frames) (v : ℕ) (page : Page)
    (permissions : PagePermissions) (user : Bool) :
    forget (map t m v page permissions user) = t.map m.allocator v page permissions user := by
  rw [PageTable.map, ← walk_forget, map]
  obtain ⟨_ | _, t', m'⟩ := walk t v m
  · rfl
  · simp only [forget]
    split <;> rfl

theorem unmap_forget (doFree : Bool) (t : PageTable) (m : Frames) (v n : ℕ) :
    (unmap doFree t m v n).map (fun r => (r.1, r.2.allocator)) =
      t.unmap doFree m.allocator v n := by
  induction n generalizing t m v with
  | zero => rfl
  | succ n ih =>
    rw [PageTable.unmap, unmap]
    split
    · rfl
    · obtain _ | _ | pte := t.lookup v
      · rfl
      · rfl
      · simp only
        split
        · rfl
        · rw [ih]
          cases doFree <;> rfl

theorem dealloc_forget (t : PageTable) (m : Frames) (oldSize newSize : ℕ) :
    (dealloc t m oldSize newSize).map forget = t.dealloc m.allocator oldSize newSize := by
  rw [PageTable.dealloc, dealloc, ← unmap_forget]
  split
  · rfl
  · split
    · cases unmap true t m (pageCount newSize) (pageCount oldSize - pageCount newSize) <;> rfl
    · rfl

theorem allocPages_forget (oldSize : ℕ) (permissions : PagePermissions) (t : PageTable) (m : Frames)
    (v n : ℕ) : (allocPages oldSize permissions t m v n).map forget =
      t.allocPages oldSize permissions m.allocator v n := by
  induction n generalizing t m v with
  | zero => rfl
  | succ n ih =>
    rw [PageTable.allocPages, ← allocPage_forget, allocPages]
    obtain ⟨_ | page, m₁⟩ := m.allocPage
    · simp only
      rw [← dealloc_forget]
      cases dealloc t m₁ (v * pageSize) oldSize <;> rfl
    · simp only
      split
      · rfl
      · rw [← map_forget]
        obtain ⟨_ | _ | _, t₂, m₂⟩ := map t m₁ v page permissions true
        · exact ih t₂ m₂ (v + 1)
        · simp only [forget, ← allocator_freePage, ← dealloc_forget]
          cases dealloc t₂ (m₂.freePage page) (v * pageSize) oldSize <;> rfl
        · simp only [forget, ← allocator_freePage, ← dealloc_forget]
          cases dealloc t₂ (m₂.freePage page) (v * pageSize) oldSize <;> rfl

theorem alloc_forget (t : PageTable) (m : Frames) (oldSize newSize : ℕ)
    (permissions : PagePermissions) : (alloc t m oldSize newSize permissions).map forget =
      t.alloc m.allocator oldSize newSize permissions := by
  rw [PageTable.alloc, alloc, ← allocPages_forget]
  split
  · rfl
  · cases allocPages oldSize permissions t m (pageCount oldSize)
      (pageCount newSize - pageCount oldSize) <;> rfl

/-! ## What becomes of the bytes -/

/-- Pages have been taken from the free list, and each has been zeroed. -/
structure Taken (m m' : Frames) : Prop where
  free : ∀ page ∈ m'.allocator.free, page ∈ m.allocator.free
  outside : ∀ a, a / pageSize ∉ m.allocator.free → m'.memory a = m.memory a
  zero : ∀ a, m.memory a = 0 → m'.memory a = 0

theorem Taken.refl (m : Frames) : Taken m m :=
  ⟨fun _ h => h, fun _ _ => rfl, fun _ h => h⟩

theorem Taken.trans {m₁ m₂ m₃ : Frames} (h : Taken m₁ m₂) (h' : Taken m₂ m₃) : Taken m₁ m₃ where
  free page hpage := h.free page (h'.free page hpage)
  outside a ha := by rw [h'.outside a fun hin => ha (h.free _ hin), h.outside a ha]
  zero a ha := h'.zero a (h.zero a ha)

theorem allocPage_none {m m' : Frames} (h : m.allocPage = (none, m')) : Taken m m' := by
  unfold allocPage at h
  unfold Allocator.allocPage at h
  simp only at h
  split at h
  next a ha =>
    cases h
    split at ha
    · cases ha
      exact ⟨fun _ hin => hin, fun _ _ => rfl, fun _ hz => hz⟩
    · split at ha
      · cases ha
        exact ⟨fun _ hin => hin, fun _ _ => rfl, fun _ hz => hz⟩
      · cases ha
  next => cases h

theorem allocPage_some {m m' : Frames} {page : Page} (h : m.allocPage = (some page, m')) :
    Taken m m' ∧ page ∈ m.allocator.free ∧ ∀ a, a / pageSize = page → m'.memory a = 0 := by
  unfold allocPage Allocator.allocPage at h
  simp only at h
  split at h
  next => cases h
  next p a ha =>
    obtain ⟨hp, rfl⟩ := Prod.mk.inj h
    obtain rfl := Option.some.inj hp
    split at ha
    · cases ha
    · split at ha
      · cases ha
      next q rest hfree =>
        cases ha
        have hmem : p ∈ m.allocator.free := by rw [hfree]; exact List.mem_cons_self
        refine ⟨⟨fun x hx => by rw [hfree]; exact List.mem_cons_of_mem _ hx, fun x hx => ?_,
          fun x hx => ?_⟩, hmem, fun x hx => ?_⟩
        · have hne : x / pageSize ≠ p := fun heq => hx (heq ▸ hmem)
          simp [PhysicalMemory.fill, hne]
        · by_cases heq : x / pageSize = p <;> simp [PhysicalMemory.fill, heq, hx]
        · simp [PhysicalMemory.fill, hx]

theorem descend_taken {ε : Type} (e : Option (Node ε)) (m : Frames) :
    Taken m (descend e m).2 := by
  cases e with
  | some n => exact Taken.refl m
  | none =>
    unfold descend
    rcases h : m.allocPage with ⟨_ | page, m'⟩
    · exact allocPage_none h
    · exact (allocPage_some h).1

theorem walk_taken (t : PageTable) (v : ℕ) (m : Frames) : Taken m (walk t v m).2.2 := by
  have hroot := descend_taken (t.entries (pageIndex v .root)) m
  unfold walk
  rcases h : descend (t.entries (pageIndex v .root)) m with ⟨_ | b, m₁⟩
  · rw [h] at hroot
    exact hroot
  · rw [h] at hroot
    have hbranch := descend_taken (b.entries (pageIndex v .branch)) m₁
    simp only
    rcases h' : descend (b.entries (pageIndex v .branch)) m₁ with ⟨_ | l, m₂⟩
    · rw [h'] at hbranch
      exact hroot.trans hbranch
    · rw [h'] at hbranch
      exact hroot.trans hbranch

theorem map_taken (t : PageTable) (m : Frames) (v : ℕ) (page : Page) (permissions : PagePermissions)
    (user : Bool) : Taken m (map t m v page permissions user).2.2 := by
  have hwalk := walk_taken t v m
  unfold map
  rcases h : walk t v m with ⟨_ | _, t', m'⟩
  · rw [h] at hwalk
    exact hwalk
  · rw [h] at hwalk
    simp only
    split
    · exact hwalk
    · exact hwalk

/-- A page that is freed is overwritten, and no other. -/
theorem freePage_outside (m : Frames) {page : Page} {a : ℕ} (ha : a / pageSize ≠ page) :
    (m.freePage page).memory a = m.memory a := by
  simp only [freePage]
  rw [PhysicalMemory.store_of_not_mem, PhysicalMemory.fill, if_neg ha]
  simp only [List.length_map, List.length_range, pageSize] at *
  omega

theorem unmap_outside {t t' : PageTable} {m m' : Frames} {v n a : ℕ}
    (h : unmap true t m v n = .ok (t', m')) (hle : v + n ≤ maxVirtualPage)
    (ha : ∀ w, v ≤ w → w < v + n → ∀ pte, t.leaf w = some pte → pte.page ≠ a / pageSize) :
    m'.memory a = m.memory a := by
  induction n generalizing t m v with
  | zero =>
    cases h
    rfl
  | succ n ih =>
    rw [unmap, if_neg (by omega)] at h
    rcases hlookup : t.lookup v with _ | _ | pte
    · simp only [hlookup] at h
      cases h
    · simp only [hlookup] at h
      cases h
    · simp only [hlookup] at h
      split at h
      · cases h
      have hleaf : t.leaf v = some pte := by rw [PageTable.leaf, hlookup, Option.join_some]
      rw [ih h (by omega), if_true, freePage_outside m (ha v le_rfl (by omega) pte hleaf).symm]
      intro w hw hlt q hq
      rw [PageTable.leaf_setEntry t none (by omega) (by omega) (by rw [hlookup]; rfl),
        if_neg (by omega)] at hq
      exact ha w (by omega) (by omega) q hq

theorem dealloc_outside {t t' : PageTable} {m m' : Frames} {oldSize newSize size a : ℕ}
    (h : dealloc t m oldSize newSize = .ok (size, t', m')) (hle : pageCount oldSize ≤ maxVirtualPage)
    (ha : ∀ w, pageCount newSize ≤ w → w < pageCount oldSize → ∀ pte, t.leaf w = some pte →
      pte.page ≠ a / pageSize) : m'.memory a = m.memory a := by
  unfold dealloc at h
  split at h
  · cases h
    rfl
  · split at h
    next hlt =>
      split at h
      · cases h
      next t₁ m₁ hunmap =>
        cases h
        exact unmap_outside hunmap (by omega) fun w hw hwlt => ha w hw (by omega)
    · cases h
      rfl

/-- `n` pages from `v` on are new, and zero; nothing else has been mapped, and what was zero is. -/
structure NewPages (t₀ : PageTable) (m₀ : Frames) (permissions : PagePermissions) (v n : ℕ)
    (t : PageTable) (m : Frames) : Prop where
  fresh : ∀ w, v ≤ w → w < v + n → ∃ page,
    t.leaf w = some ⟨permissions, true, page⟩ ∧ ∀ a, a / pageSize = page → m.memory a = 0
  leaf_eq : ∀ w < maxVirtualPage, ¬ (v ≤ w ∧ w < v + n) → t.leaf w = t₀.leaf w
  zero : ∀ a, m₀.memory a = 0 → m.memory a = 0

section Growth
variable {P : Page → Prop} {oldSize v n : ℕ} {permissions : PagePermissions} {done : Bool}
  {t t' : PageTable} {m m' : Frames}

/-- Giving up writes to pages that have been mapped since. -/
theorem undo_outside {size : ℕ} (h : dealloc t m (v * pageSize) oldSize = .ok (size, t', m'))
    (hv : v ≤ maxVirtualPage)
    (hmapped : ∀ w, pageCount oldSize ≤ w → w < v → ∀ pte, t.leaf w = some pte → P pte.page)
    {a : ℕ} (ha : ¬ P (a / pageSize)) : m'.memory a = m.memory a := by
  refine dealloc_outside h (by rwa [PageTable.pageCount_mul]) fun w hw hlt pte hpte heq => ?_
  rw [PageTable.pageCount_mul] at hlt
  exact ha (heq ▸ hmapped w hw hlt pte hpte)

/-- The pages that the loop has mapped so far come from the free list, as those to come do. -/
theorem allocPages_bytes (hfree : ∀ page ∈ m.allocator.free, P page)
    (hmapped : ∀ w, pageCount oldSize ≤ w → w < v → ∀ pte, t.leaf w = some pte → P pte.page)
    (hv : v ≤ maxVirtualPage)
    (h : allocPages oldSize permissions t m v n = .ok (done, t', m')) :
    (∀ a, ¬ P (a / pageSize) → m'.memory a = m.memory a) ∧
      (done = true → NewPages t m permissions v n t' m') := by
  induction n generalizing t m v with
  | zero =>
    cases h
    exact ⟨fun _ _ => rfl, fun _ => ⟨fun w hw hlt => absurd hlt (by omega), fun _ _ _ => rfl,
      fun _ hz => hz⟩⟩
  | succ n ih =>
    rw [allocPages] at h
    rcases halloc : m.allocPage with ⟨_ | page, m₁⟩
    · have htaken := allocPage_none halloc
      simp only [halloc] at h
      split at h
      · cases h
      next size t₁ m₂ hdealloc =>
        cases h
        refine ⟨fun a ha => ?_, nofun⟩
        rw [undo_outside hdealloc hv hmapped ha]
        exact htaken.outside a fun hin => ha (hfree _ hin)
    · obtain ⟨htaken, hpage, hzero⟩ := allocPage_some halloc
      simp only [halloc] at h
      split at h
      · cases h
      rename_i hlt
      have hmap := map_taken t m₁ v page permissions true
      have hspec := t.map_spec m₁.allocator (show v < maxVirtualPage by omega) page permissions true
      rw [← map_forget] at hspec
      rcases hresult : map t m₁ v page permissions true with ⟨result, t₂, m₂⟩
      rw [hresult] at hmap hspec
      simp only [hresult] at h
      have hall := htaken.trans hmap
      have houtside : ∀ a, ¬ P (a / pageSize) → m₂.memory a = m.memory a := fun a ha =>
        hall.outside a fun hin => ha (hfree _ hin)
      obtain ⟨-, ⟨hok, hnone, hleaf⟩ | ⟨hfail, hleaf⟩⟩ := hspec
      · obtain rfl : result = .ok := hok
        have hleaf : ∀ w < maxVirtualPage, t₂.leaf w =
            if w = v then some ⟨permissions, true, page⟩ else t.leaf w := hleaf
        obtain ⟨hrest, hnew⟩ := ih (fun q hq => hfree q (hall.free q hq))
          (fun w hw hlt pte hpte => by
            rw [hleaf w (by omega)] at hpte
            split at hpte
            · cases hpte
              exact hfree _ hpage
            · exact hmapped w hw (by omega) pte hpte) (by omega) h
        refine ⟨fun a ha => (hrest a ha).trans (houtside a ha), fun hdone => ?_⟩
        obtain ⟨hfresh, hsame, hkeeps⟩ := hnew hdone
        refine ⟨fun w hw hlt => ?_, fun w hw hout => ?_, fun a hz => hkeeps a (hall.zero a hz)⟩
        · by_cases hwv : w = v
          · refine ⟨page, ?_, fun a ha => hkeeps a (hmap.zero a (hzero a ha))⟩
            rw [hsame w (by omega) (by omega), hleaf w (by omega), if_pos hwv]
          · exact hfresh w (by omega) (by omega)
        · rw [hsame w hw (by omega), hleaf w hw, if_neg (by omega)]
      · have hleaf : ∀ w, t₂.leaf w = t.leaf w := hleaf
        have hgive : ∀ {size t' m'}, dealloc t₂ (m₂.freePage page) (v * pageSize) oldSize =
            .ok (size, t', m') → ∀ a, ¬ P (a / pageSize) → m'.memory a = m.memory a := by
          intro size t' m' hdealloc a ha
          rw [undo_outside hdealloc (by omega) (fun w hw hlt pte hpte =>
            hmapped w hw hlt pte (by rwa [hleaf] at hpte)) ha,
            freePage_outside m₂ (fun heq => ha (heq ▸ hfree _ hpage)), houtside a ha]
        cases result with
        | ok => exact absurd rfl hfail
        | outOfMemory =>
          simp only at h
          split at h
          · cases h
          next hdealloc =>
            cases h
            exact ⟨hgive hdealloc, nofun⟩
        | alreadyMappedPage =>
          simp only at h
          split at h
          · cases h
          next hdealloc =>
            cases h
            exact ⟨hgive hdealloc, nofun⟩

/-- `alloc` writes to pages that were free only, and the pages it maps are zero. -/
theorem alloc_bytes {newSize : ℕ} {r : Option ℕ} (hle : pageCount oldSize ≤ maxVirtualPage)
    (h : alloc t m oldSize newSize permissions = .ok (r, t', m')) :
    (∀ a, a / pageSize ∉ m.allocator.free → m'.memory a = m.memory a) ∧
      (oldSize ≤ newSize → r.isSome → NewPages t m permissions (pageCount oldSize)
        (pageCount newSize - pageCount oldSize) t' m') := by
  unfold alloc at h
  split at h
  next hlt =>
    cases h
    exact ⟨fun _ _ => rfl, fun hge => absurd hge (by omega)⟩
  next hge =>
    have hmono := PageTable.pageCount_mono (Nat.not_lt.mp hge)
    split at h
    · cases h
    next done t₁ m₁ hpages =>
      cases h
      obtain ⟨houtside, hnew⟩ := allocPages_bytes (P := fun page => page ∈ m.allocator.free)
        (fun _ hin => hin) (fun w hw hlt => absurd hlt (by omega)) (by omega) hpages
      refine ⟨houtside, fun _ hsome => hnew ?_⟩
      cases done
      · cases hsome
      · rfl

theorem exists_of_forget {α : Type} {x : Except Panic (α × PageTable × Frames)} {r : α}
    {a : Allocator} (h : x.map forget = .ok (r, t, a)) :
    ∃ m, x = .ok (r, t, m) ∧ m.allocator = a := by
  cases x with
  | error q => cases h
  | ok y =>
    cases h
    exact ⟨y.2.2, rfl, rfl⟩

/-- `PageTable.alloc_spec` with the bytes. -/
theorem alloc_spec {S : ℕ → Prop} (newSize : ℕ) (h : t.Mapped S) (m : Frames)
    (hp : permissions ≠ .none) (hS : S trapframePage) (hold : pageCount oldSize ≤ trapframePage) :
    ∃ r t' m', alloc t m oldSize newSize permissions = .ok (r, t', m') ∧
      t.Extended m.allocator S (pageCount oldSize) (pageCount (r.getD oldSize)) t' m'.allocator ∧
      (∀ size, r = some size → size = max oldSize newSize) ∧
      (∀ a, a / pageSize ∉ m.allocator.free → m'.memory a = m.memory a) ∧
      (oldSize ≤ newSize → r.isSome → NewPages t m permissions (pageCount oldSize)
        (pageCount newSize - pageCount oldSize) t' m') := by
  obtain ⟨r, t', a', hforget, hext⟩ := PageTable.alloc_spec newSize h m.allocator hp hS hold
  rw [← alloc_forget] at hforget
  obtain ⟨m', heq, rfl⟩ := exists_of_forget hforget
  have hmax := PageTable.trapframePage_lt
  refine ⟨r, t', m', heq, hext, ?_, alloc_bytes (by omega) heq⟩
  rintro size rfl
  unfold alloc at heq
  split at heq
  · cases heq
    omega
  · split at heq
    · cases heq
    next done _ _ _ =>
      cases done
      · cases heq
      · cases heq
        omega

end Growth

/-! ## Freeing a table -/

/-- A turn of the loop of `freeWalk`. -/
def freeEntry {ε : Type} (child : ε → Frames → Except Panic Frames) (n : Node ε) (m : Frames)
    (i : Index) : Except Panic Frames :=
  match n.entries i with
  | none => .ok m
  | some e => child e m

/-- The loop of `freeWalk` over the entries of a page, and its end. -/
def freeNode {ε : Type} (child : ε → Frames → Except Panic Frames) (n : Node ε) (m : Frames) :
    Except Panic Frames :=
  match (List.finRange 512).foldlM (freeEntry child n) m with
  | .error p => .error p
  | .ok m => .ok (m.freePage n.page)

def freeWalk (t : PageTable) (m : Frames) : Except Panic Frames :=
  freeNode (freeNode (freeNode (fun pte _ =>
    .error (if pte.isBranch then .freewalkData else .freewalkLeaf)))) t m

def free (t : PageTable) (m : Frames) (size : ℕ) : Except Panic Frames :=
  match (if 0 < size then unmap true t m 0 (pageCount size) else .ok (t, m)) with
  | .error p => .error p
  | .ok (t, m) => freeWalk t m

def freePageTable (t : PageTable) (m : Frames) (size : ℕ) : Except Panic Frames :=
  match unmap false t m trampolinePage 1 with
  | .error p => .error p
  | .ok (t, m) =>
    match unmap false t m trapframePage 1 with
    | .error p => .error p
    | .ok (t, m) => free t m size

def createPagetable (trampoline trapframe : Page) (m : Frames) :
    Except Panic (Option PageTable × Frames) :=
  match m.allocPage with
  | (none, m) => .ok (none, m)
  | (some page, m) =>
    match map (.empty page) m trampolinePage trampoline .code false with
    | (.ok, t, m) =>
      match map t m trapframePage trapframe .data false with
      | (.ok, t, m) => .ok (some t, m)
      | (_, t, m) =>
        match unmap false t m trampolinePage 1 with
        | .error p => .error p
        | .ok (t, m) =>
          match free t m 0 with
          | .error p => .error p
          | .ok m => .ok (none, m)
    | (_, t, m) =>
      match free t m 0 with
      | .error p => .error p
      | .ok m => .ok (none, m)

theorem freeNode_forget {ε : Type} {child : ε → Frames → Except Panic Frames}
    {child' : ε → Allocator → Except Panic Allocator}
    (h : ∀ e m, (child e m).map Frames.allocator = child' e m.allocator) (n : Node ε) (m : Frames) :
    (freeNode child n m).map Frames.allocator = n.freeWalk child' m.allocator := by
  have hentry : ∀ m i, (freeEntry child n m i).map Frames.allocator =
      n.freeEntry child' m.allocator i := by
    intro m i
    unfold freeEntry Node.freeEntry
    cases n.entries i with
    | none => rfl
    | some e => exact h e m
  have hfold : ∀ (l : List Index) (m : Frames),
      (l.foldlM (freeEntry child n) m).map Frames.allocator =
        l.foldlM (n.freeEntry child') m.allocator := by
    intro l
    induction l with
    | nil => exact fun _ => rfl
    | cons i l ih =>
      intro m
      rw [List.foldlM_cons, List.foldlM_cons, ← hentry]
      cases freeEntry child n m i with
      | error p => rfl
      | ok m' => exact ih m'
  unfold freeNode Node.freeWalk
  rw [← hfold]
  cases (List.finRange 512).foldlM (freeEntry child n) m <;> rfl

theorem freeWalk_forget (t : PageTable) (m : Frames) :
    (freeWalk t m).map Frames.allocator = t.freeWalk m.allocator :=
  freeNode_forget (freeNode_forget (freeNode_forget fun _ _ => rfl)) t m

theorem free_forget (t : PageTable) (m : Frames) (size : ℕ) :
    (free t m size).map Frames.allocator = t.free m.allocator size := by
  unfold free PageTable.free
  by_cases hpos : 0 < size
  · rw [if_pos hpos, if_pos hpos, ← unmap_forget]
    cases unmap true t m 0 (pageCount size) with
    | error p => rfl
    | ok r => exact freeWalk_forget r.1 r.2
  · rw [if_neg hpos, if_neg hpos]
    exact freeWalk_forget t m

theorem freePageTable_forget (t : PageTable) (m : Frames) (size : ℕ) :
    (freePageTable t m size).map Frames.allocator = t.freePageTable m.allocator size := by
  unfold freePageTable PageTable.freePageTable
  rw [← unmap_forget]
  cases unmap false t m trampolinePage 1 with
  | error p => rfl
  | ok r =>
    simp only [Except.map]
    rw [← unmap_forget]
    cases unmap false r.1 r.2 trapframePage 1 with
    | error p => rfl
    | ok r => exact free_forget r.1 r.2 size

theorem createPagetable_forget (trampoline trapframe : Page) (m : Frames) :
    (createPagetable trampoline trapframe m).map (fun r => (r.1, r.2.allocator)) =
      Memory.createPagetable trampoline trapframe m.allocator := by
  unfold createPagetable Memory.createPagetable
  rw [← allocPage_forget]
  obtain ⟨_ | page, m₁⟩ := m.allocPage
  · rfl
  · simp only
    rw [← map_forget]
    obtain ⟨_ | _ | _, t₁, m₂⟩ := map (.empty page) m₁ trampolinePage trampoline .code false
    · simp only [forget]
      rw [← map_forget]
      obtain ⟨_ | _ | _, t₂, m₃⟩ := map t₁ m₂ trapframePage trapframe .data false
      · rfl
      · simp only [forget]
        rw [← unmap_forget]
        cases unmap false t₂ m₃ trampolinePage 1 with
        | error p => rfl
        | ok r =>
          simp only [Except.map]
          rw [← free_forget]
          cases free r.1 r.2 0 <;> rfl
      · simp only [forget]
        rw [← unmap_forget]
        cases unmap false t₂ m₃ trampolinePage 1 with
        | error p => rfl
        | ok r =>
          simp only [Except.map]
          rw [← free_forget]
          cases free r.1 r.2 0 <;> rfl
    · simp only [forget]
      rw [← free_forget]
      cases free t₁ m₂ 0 <;> rfl
    · simp only [forget]
      rw [← free_forget]
      cases free t₁ m₂ 0 <;> rfl

/-- Pages have been given back, and nothing else has been overwritten. -/
structure Given (m m' : Frames) : Prop where
  free : ∀ page ∈ m.allocator.free, page ∈ m'.allocator.free
  outside : ∀ a, a / pageSize ∉ m'.allocator.free → m'.memory a = m.memory a

theorem Given.refl (m : Frames) : Given m m where
  free _ h := h
  outside _ _ := rfl

theorem Given.trans {m₁ m₂ m₃ : Frames} (h : Given m₁ m₂) (h' : Given m₂ m₃) : Given m₁ m₃ where
  free page hpage := h'.free page (h.free page hpage)
  outside a ha := by rw [h'.outside a ha, h.outside a fun hin => ha (h'.free _ hin)]

theorem freePage_given (m : Frames) (page : Page) : Given m (m.freePage page) where
  free _ h := List.mem_cons_of_mem _ h
  outside _ ha := freePage_outside m fun heq => ha (heq ▸ List.mem_cons_self)

theorem unmap_given {doFree : Bool} {t t' : PageTable} {m m' : Frames} {v n : ℕ}
    (h : unmap doFree t m v n = .ok (t', m')) : Given m m' := by
  induction n generalizing t m v with
  | zero =>
    cases h
    exact Given.refl _
  | succ n ih =>
    unfold unmap at h
    split at h
    · cases h
    · split at h
      · cases h
      · cases h
      next pte _ =>
        split at h
        · cases h
        · refine Given.trans ?_ (ih h)
          cases doFree
          · exact Given.refl m
          · exact freePage_given m pte.page

theorem freeNode_given {ε : Type} {child : ε → Frames → Except Panic Frames}
    (hchild : ∀ {e m m'}, child e m = .ok m' → Given m m') {n : Node ε} {m m' : Frames}
    (h : freeNode child n m = .ok m') : Given m m' := by
  have hfold : ∀ (l : List Index) {m m' : Frames},
      l.foldlM (freeEntry child n) m = .ok m' → Given m m' := by
    intro l
    induction l with
    | nil =>
      intro m m' h
      cases h
      exact Given.refl m
    | cons i l ih =>
      intro m m' h
      rw [List.foldlM_cons] at h
      rcases hentry : freeEntry child n m i with p | m₁
      · rw [hentry] at h
        cases h
      · rw [hentry] at h
        refine Given.trans ?_ (ih h)
        unfold freeEntry at hentry
        split at hentry
        · cases hentry
          exact Given.refl m
        · exact hchild hentry
  unfold freeNode at h
  split at h
  · cases h
  next m₁ hloop =>
    cases h
    exact (hfold _ hloop).trans (freePage_given m₁ n.page)

theorem free_given {t : PageTable} {m m' : Frames} {size : ℕ} (h : free t m size = .ok m') :
    Given m m' := by
  have hwalk {t : PageTable} {m m' : Frames} (h : freeWalk t m = .ok m') : Given m m' :=
    freeNode_given (freeNode_given (freeNode_given fun h => by cases h)) h
  unfold free at h
  split at h
  · cases h
  next t₁ m₁ hunmap =>
    refine Given.trans ?_ (hwalk h)
    split at hunmap
    · exact unmap_given hunmap
    · cases hunmap
      exact Given.refl m

theorem freePageTable_given {t : PageTable} {m m' : Frames} {size : ℕ}
    (h : freePageTable t m size = .ok m') : Given m m' := by
  unfold freePageTable at h
  split at h
  · cases h
  next t₁ m₁ h₁ =>
    split at h
    · cases h
    next t₂ m₂ h₂ => exact ((unmap_given h₁).trans (unmap_given h₂)).trans (free_given h)

end Frames

end Zigmaos.Memory
