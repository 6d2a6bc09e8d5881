import Zigmaos.FileSystem
import Zigmaos.PageContents
import Zigmaos.ProcessMemoryInvariant

/-!
# Fork with the bytes of its pages

The copy of a user page table with physical memory, and `fork` with what it
does to the child: its pages, its trapframe, its files and its directory. A fork
that fails gives back every page, so the free pages are what they were and no
byte outside of them has changed.
-/
namespace Zigmaos.Memory
namespace Frames

/-- `allocPage(.garbage)` -/
def allocGarbage (m : Frames) : Option Page × Frames :=
  match m.allocator.allocPage with
  | (none, a) => (none, { m with allocator := a })
  | (some page, a) => (some page, ⟨a, m.memory.fill page 5⟩)

/-- `@memmove` of a page. -/
def copyPage (m : Frames) (source destination : Page) : Frames :=
  { m with
    memory := m.memory.store (destination * pageSize) (m.memory.load (source * pageSize) pageSize) }

/-- The loop of `copyPageTable` from the page `v` on, with `n` pages to go. -/
def copyPages (oldTable t : PageTable) (m : Frames) (v : ℕ) :
    ℕ → Except Panic (Bool × PageTable × Frames)
  | 0 => .ok (true, t, m)
  | n + 1 =>
    if maxVirtualPage ≤ v then .error .walk
    else
      match oldTable.lookup v with
      | none => .error .uvmCopyPteShouldExist
      | some none => .error .uvmCopyPageNotPresent
      | some (some pte) =>
        match m.allocGarbage with
        | (none, m) =>
          match unmap true t m 0 v with
          | .error p => .error p
          | .ok (t, m) => .ok (false, t, m)
        | (some page, m) =>
          match map t (m.copyPage pte.page page) v page pte.permissions pte.user with
          | (.ok, t, m) => copyPages oldTable t m (v + 1) n
          | (_, t, m) =>
            match unmap true t (m.freePage page) 0 v with
            | .error p => .error p
            | .ok (t, m) => .ok (false, t, m)

def copyPageTable (oldTable newTable : PageTable) (m : Frames) (size : ℕ) :
    Except Panic (Bool × PageTable × Frames) :=
  copyPages oldTable newTable m 0 (pageCount size)

theorem allocGarbage_forget (m : Frames) :
    (m.allocGarbage.1, m.allocGarbage.2.allocator) = m.allocator.allocPage := by
  unfold allocGarbage
  obtain ⟨_ | page, a⟩ := m.allocator.allocPage <;> rfl

@[simp] theorem allocator_copyPage (m : Frames) (source destination : Page) :
    (m.copyPage source destination).allocator = m.allocator := rfl

theorem copyPages_forget (oldTable t : PageTable) (m : Frames) (v n : ℕ) :
    (copyPages oldTable t m v n).map forget = oldTable.copyPages t m.allocator v n := by
  induction n generalizing t m v with
  | zero => rfl
  | succ n ih =>
    rw [PageTable.copyPages, copyPages]
    split
    · rfl
    · obtain _ | _ | pte := oldTable.lookup v
      · rfl
      · rfl
      · simp only
        rw [← allocGarbage_forget]
        obtain ⟨_ | page, m₁⟩ := m.allocGarbage
        · simp only
          rw [← unmap_forget]
          cases unmap true t m₁ 0 v <;> rfl
        · simp only
          rw [← allocator_copyPage m₁ pte.page page, ← map_forget]
          obtain ⟨_ | _ | _, t₂, m₂⟩ :=
            map t (m₁.copyPage pte.page page) v page pte.permissions pte.user
          · exact ih t₂ m₂ (v + 1)
          · simp only [forget, ← allocator_freePage]
            rw [← unmap_forget]
            cases unmap true t₂ (m₂.freePage page) 0 v <;> rfl
          · simp only [forget, ← allocator_freePage]
            rw [← unmap_forget]
            cases unmap true t₂ (m₂.freePage page) 0 v <;> rfl

theorem copyPageTable_forget (oldTable t : PageTable) (m : Frames) (size : ℕ) :
    (copyPageTable oldTable t m size).map forget = oldTable.copyPageTable t m.allocator size :=
  copyPages_forget oldTable t m 0 (pageCount size)

/-! ## What becomes of the bytes -/

/-- Pages have been taken from the free list, and nothing else has been written to. -/
structure Used (m m' : Frames) : Prop where
  free : ∀ page ∈ m'.allocator.free, page ∈ m.allocator.free
  outside : ∀ a, a / pageSize ∉ m.allocator.free → m'.memory a = m.memory a

theorem Used.refl (m : Frames) : Used m m := ⟨fun _ h => h, fun _ _ => rfl⟩

theorem Used.trans {m₁ m₂ m₃ : Frames} (h : Used m₁ m₂) (h' : Used m₂ m₃) : Used m₁ m₃ where
  free page hpage := h.free page (h'.free page hpage)
  outside a ha := by rw [h'.outside a fun hin => ha (h.free _ hin), h.outside a ha]

theorem Taken.used {m m' : Frames} (h : Taken m m') : Used m m' := ⟨h.free, h.outside⟩

/-- Pages have been taken and given back. -/
def Changed (m m' : Frames) : Prop := ∃ m₁, Used m m₁ ∧ Given m₁ m'

theorem Used.changed {m m' : Frames} (h : Used m m') : Changed m m' := ⟨m', h, Given.refl m'⟩

theorem Given.changed {m m' : Frames} (h : Given m m') : Changed m m' := ⟨m, Used.refl m, h⟩

theorem Used.then {m m₁ m₂ : Frames} (h : Used m m₁) (h' : Changed m₁ m₂) : Changed m m₂ := by
  obtain ⟨m₃, hused, hgiven⟩ := h'
  exact ⟨m₃, h.trans hused, hgiven⟩

theorem Changed.then {m m₁ m₂ : Frames} (h : Changed m m₁) (h' : Given m₁ m₂) : Changed m m₂ := by
  obtain ⟨m₃, hused, hgiven⟩ := h
  exact ⟨m₃, hused, hgiven.trans h'⟩

/-- With the same pages free in the end, no other page has changed. -/
theorem Changed.outside {m m' : Frames} (h : Changed m m')
    (hpages : m'.allocator.pages = m.allocator.pages) {a : ℕ} (ha : a / pageSize ∉ m.allocator.free) : m'.memory a = m.memory a := by
  obtain ⟨m₁, hused, hgiven⟩ := h
  have hsame : a / pageSize ∉ m'.allocator.free := by
    intro hin
    have : a / pageSize ∈ m'.allocator.pages := hin
    rw [hpages] at this
    exact ha this
  rw [hgiven.outside a hsame, hused.outside a ha]

theorem allocPage_free (a : Allocator) :
    (a.allocPage.1 = none ∧ a.allocPage.2.free = a.free) ∨
      ∃ page, a.allocPage.1 = some page ∧ a.free = page :: a.allocPage.2.free := by
  unfold Allocator.allocPage
  simp only
  split
  · exact .inl ⟨rfl, rfl⟩
  · split
    next hfree => exact .inl ⟨rfl, rfl⟩
    next page rest hfree => exact .inr ⟨page, rfl, hfree⟩

/-- A page for the caller, or nothing has happened. -/
theorem allocGarbage_used {m m' : Frames} {r : Option Page} (h : m.allocGarbage = (r, m')) :
    Used m m' ∧ m.allocator.free = r.toList ++ m'.allocator.free := by
  have hcases := allocPage_free m.allocator
  unfold allocGarbage at h
  split at h
  next a ha =>
    obtain ⟨rfl, rfl⟩ := Prod.mk.inj h
    rw [ha] at hcases
    obtain ⟨-, hfree⟩ | ⟨_, hpage, -⟩ := hcases
    · exact ⟨⟨fun page hpage => hfree ▸ hpage, fun _ _ => rfl⟩, hfree.symm⟩
    · cases hpage
  next page a ha =>
    obtain ⟨rfl, rfl⟩ := Prod.mk.inj h
    rw [ha] at hcases
    obtain ⟨hpage, -⟩ | ⟨q, hq, hfree⟩ := hcases
    · cases hpage
    · obtain rfl := Option.some.inj hq
      refine ⟨⟨fun q hq => ?_, fun x hx => ?_⟩, hfree⟩
      · rw [hfree]
        exact List.mem_cons_of_mem page hq
      · have hne : x / pageSize ≠ page := by
          rintro rfl
          exact hx (hfree ▸ List.mem_cons_self)
        exact if_neg hne

/-! ### The order of the free list -/

theorem copyPage_outside (m : Frames) {source destination : Page} {a : ℕ}
    (ha : a / pageSize ≠ destination) : (m.copyPage source destination).memory a = m.memory a := by
  refine PhysicalMemory.store_of_not_mem _ _ _ _ ?_
  rw [PhysicalMemory.length_load]
  simp only [pageSize] at *
  omega

theorem page_of_offset {page offset : ℕ} (h : offset < pageSize) :
    (page * pageSize + offset) / pageSize = page := by
  simp only [pageSize] at *
  omega

section Copy
variable {oldTable t t' : PageTable} {m m' : Frames} {v n : ℕ} {done : Bool}

theorem copyPages_changed (h : copyPages oldTable t m v n = .ok (done, t', m')) :
    Changed m m' ∧ (done = true → Used m m') := by
  induction n generalizing t m v with
  | zero =>
    cases h
    exact ⟨(Used.refl _).changed, fun _ => Used.refl _⟩
  | succ n ih =>
    rw [copyPages] at h
    split at h
    · cases h
    split at h
    · cases h
    · cases h
    next pte _ =>
    rcases halloc : m.allocGarbage with ⟨_ | page, m₁⟩
    · obtain ⟨hused, -⟩ := allocGarbage_used halloc
      simp only [halloc] at h
      split at h
      · cases h
      next hunmap =>
        cases h
        exact ⟨hused.changed.then (unmap_given hunmap), nofun⟩
    · obtain ⟨hused, hfree⟩ := allocGarbage_used halloc
      have hcopy : Used m (m₁.copyPage pte.page page) := by
        refine ⟨hused.free, fun a ha => ?_⟩
        rw [copyPage_outside m₁ fun hin => ha (hin ▸ hfree ▸ List.mem_cons_self),
          hused.outside a ha]
      have hmap := map_taken t (m₁.copyPage pte.page page) v page pte.permissions pte.user
      simp only [halloc] at h
      rcases hresult : map t (m₁.copyPage pte.page page) v page pte.permissions pte.user with
        ⟨result, t₂, m₂⟩
      rw [hresult] at hmap
      simp only [hresult] at h
      have hall : Used m m₂ := hcopy.trans hmap.used
      have hundo : ∀ {t₃ m₃}, unmap true t₂ (m₂.freePage page) 0 v = .ok (t₃, m₃) → Changed m m₃ :=
        fun hunmap => hall.changed.then ((freePage_given m₂ page).trans (unmap_given hunmap))
      cases result with
      | ok =>
        obtain ⟨hchanged, hdone⟩ := ih h
        exact ⟨hall.then hchanged, fun hd => hall.trans (hdone hd)⟩
      | outOfMemory =>
        simp only at h
        split at h
        · cases h
        next hunmap =>
          cases h
          exact ⟨hundo hunmap, nofun⟩
      | alreadyMappedPage =>
        simp only at h
        split at h
        · cases h
        next hunmap =>
          cases h
          exact ⟨hundo hunmap, nofun⟩

/-- The page `w` has been copied: the same entry but for the frame, with the same bytes. -/
def Copied (oldTable : PageTable) (m : Frames) (t' : PageTable) (m' : Frames) (w : ℕ) : Prop :=
  ∃ pte page, oldTable.leaf w = some pte ∧ t'.leaf w = some { pte with page := page } ∧
    page ∈ m.allocator.free ∧ ∀ offset < pageSize,
      m'.memory (page * pageSize + offset) = m.memory (pte.page * pageSize + offset)

end Copy

theorem createPagetable_changed {trampoline trapframe : Page} {m m' : Frames}
    {r : Option PageTable} (h : createPagetable trampoline trapframe m = .ok (r, m')) :
    Changed m m' ∧ (r.isSome → Used m m') := by
  unfold createPagetable at h
  split at h
  next m₁ halloc =>
    cases h
    have hused := (allocPage_none halloc).used
    exact ⟨hused.changed, nofun⟩
  next page m₁ halloc =>
    have hused := (allocPage_some halloc).1.used
    have hmap := map_taken (.empty page) m₁ trampolinePage trampoline .code false
    split at h
    next t₁ m₂ hresult =>
      rw [hresult] at hmap
      have hused₂ := hused.trans hmap.used
      have hmap' := map_taken t₁ m₂ trapframePage trapframe .data false
      split at h
      next hresult' =>
        cases h
        rw [hresult'] at hmap'
        have hused₃ := hused₂.trans hmap'.used
        exact ⟨hused₃.changed, fun _ => hused₃⟩
      next hresult' =>
        rw [hresult'] at hmap'
        have hused₃ := hused₂.trans hmap'.used
        split at h
        · cases h
        next hunmap =>
          split at h
          · cases h
          next hfree =>
            cases h
            exact ⟨hused₃.changed.then ((unmap_given hunmap).trans (free_given hfree)), nofun⟩
    next hresult =>
      rw [hresult] at hmap
      split at h
      · cases h
      next hfree =>
        cases h
        exact ⟨(hused.trans hmap.used).changed.then (free_given hfree), nofun⟩

end Frames
end Zigmaos.Memory

namespace Zigmaos.ForkContents
open Memory
open FileSystem (Handle FileIndex FileDescriptor noFile)

inductive ProcessState
  | unused | used | runnable
  deriving DecidableEq

/-- `trapFrame` and `pageTable` are there where they are allocated. -/
structure Process (π : Type) where
  state : ProcessState
  pid : ℕ
  parentProcess : Option π
  trapFrame : Option Page
  pageTable : Option PageTable
  size : ℕ
  openFiles : FileDescriptor → Option FileIndex
  currentWorkingDirectory : Handle

structure State (π : Type) where
  frames : Frames
  /-- The physical page of the trampoline. -/
  trampoline : Page
  processes : π → Process π
  processTable : List π
  nextProcessId : ℕ
  fileReferences : FileIndex → ℕ
  inodeReferences : Handle → ℕ

inductive Panic
  | memory (p : Memory.Panic)
  | fileDuplicationFailed
  | noPageTable
  deriving DecidableEq

def trapFrameSize : ℕ := 36 * 8

/-- The offset of `a0` in a `TrapFrame`. -/
def a0Offset : ℕ := 14 * 8

/-- `child.trapFrame.* = parent.trapFrame.*`, and then 0 for `a0`. -/
def copyTrapFrame (m : Frames) (frame childFrame : Page) : Frames :=
  { m with
    memory := (m.memory.store (childFrame * pageSize)
      (m.memory.load (frame * pageSize) trapFrameSize)).store
        (childFrame * pageSize + a0Offset) (List.replicate 8 0) }

/-- The loop that duplicates the open files. -/
def duplicateFiles (parentFiles : FileDescriptor → Option FileIndex) :
    List FileDescriptor → (FileDescriptor → Option FileIndex) → (FileIndex → ℕ) →
      Except Panic ((FileDescriptor → Option FileIndex) × (FileIndex → ℕ))
  | [], files, references => .ok (files, references)
  | fd :: fds, files, references =>
    match parentFiles fd with
    | none => duplicateFiles parentFiles fds files references
    | some f =>
      if references f < 1 then .error .fileDuplicationFailed
      else duplicateFiles parentFiles fds (Function.update files fd (some f))
        (Function.update references f (references f + 1))

namespace Process
variable {π : Type}

def free (p : Process π) (m : Frames) : Except Memory.Panic (Process π × Frames) := do
  let m := p.trapFrame.elim m m.freePage
  let m ← match p.pageTable with
    | none => pure m
    | some t => m.freePageTable t p.size
  return ({ p with
    state := .unused, pid := 0, parentProcess := none, trapFrame := none, pageTable := none,
    size := 0 }, m)

/-- `init`, with whether it succeeds. -/
def init (p : Process π) (pid : ℕ) (trampoline : Page) (m : Frames) :
    Except Memory.Panic (Bool × Process π × Frames) :=
  let p := { p with pid := pid, state := .used }
  match m.allocGarbage with
  | (none, m) => do
    let (p, m) ← p.free m
    return (false, p, m)
  | (some page, m) => do
    let p := { p with trapFrame := some page }
    match ← Frames.createPagetable trampoline page m with
    | (none, m) =>
      let (p, m) ← p.free m
      return (false, p, m)
    | (some t, m) => return (true, { p with pageTable := some t }, m)

/-- The trapframe, the table and the user pages. -/
def pages (p : Process π) : Multiset Page :=
  p.trapFrame.elim 0 (fun page => {page}) +
    p.pageTable.elim 0 (fun t => t.pages + t.pagesFrom 0 (pageCount p.size))

end Process

namespace State
variable {π : Type} [DecidableEq π]

def setProcess (s : State π) (q : π) (p : Process π) (m : Frames) : State π :=
  { s with processes := Function.update s.processes q p, frames := m }

/-- What `fork` does once `init` has made the process `c` for the slot `child`: it copies
the memory, the saved registers, the files and the directory. `none` is an error. -/
def forkInto (s : State π) (parent child : π) (c : Process π) (m : Frames) :
    Except Panic (Option ℕ × State π) := do
  let p := s.processes parent
  match p.pageTable, c.pageTable, p.trapFrame, c.trapFrame with
  | some oldTable, some t, some frame, some childFrame =>
    match ← (Frames.copyPageTable oldTable t m p.size).mapError .memory with
    | (false, t, m) =>
      let (c, m) ← (({ c with pageTable := some t } : Process π).free m).mapError .memory
      return (none, s.setProcess child c m)
    | (true, t, m) =>
      let (files, references) ←
        duplicateFiles p.openFiles (List.finRange noFile) c.openFiles s.fileReferences
      let inode := p.currentWorkingDirectory
      let c := { c with
        state := .runnable
        parentProcess := some parent
        pageTable := some t
        size := p.size
        openFiles := files
        currentWorkingDirectory := inode }
      let s := { s with
        fileReferences := references
        inodeReferences := Function.update s.inodeReferences inode (s.inodeReferences inode + 1) }
      return (some c.pid, s.setProcess child c (copyTrapFrame m frame childFrame))
  | _, _, _, _ => .error .noPageTable

def fork (s : State π) (parent : π) : Except Panic (Option ℕ × State π) := do
  match s.processTable.find? (fun q => (s.processes q).state = .unused) with
  | none => return (none, s)
  | some child =>
    let pid := s.nextProcessId
    let s := { s with nextProcessId := (pid + 1) % 2 ^ 32 }
    match ← ((s.processes child).init pid s.trampoline s.frames).mapError .memory with
    | (false, c, m) => return (none, s.setProcess child c m)
    | (true, c, m) => s.forkInto parent child c m

end State

/-! ## The files -/

namespace Process
variable {π : Type} {p : Process π} {m : Frames}

/-- What `free` leaves of a slot. -/
def freed (p : Process π) : Process π :=
  { p with
    state := .unused, pid := 0, parentProcess := none, trapFrame := none, pageTable := none,
    size := 0 }

theorem free_spec (h : ProcessMemory.TableOk p.pageTable p.size) (m : Frames) :
    ∃ m', p.free m = .ok (p.freed, m') ∧ Frames.Given m m' ∧
      m'.allocator.pages = p.pages + m.allocator.pages := by
  have htrap : Frames.Given m (p.trapFrame.elim m m.freePage) := by
    cases p.trapFrame with
    | none => exact Frames.Given.refl m
    | some page => exact Frames.freePage_given m page
  have hpages : (p.trapFrame.elim m m.freePage).allocator.pages =
      p.trapFrame.elim 0 (fun page => {page}) + m.allocator.pages := by
    cases p.trapFrame <;> simp
  unfold free pages
  cases ht : p.pageTable with
  | none => exact ⟨_, rfl, htrap, by rw [hpages]; simp⟩
  | some t =>
    obtain ⟨hmapped, hle⟩ := h t ht
    obtain ⟨a', heq, ha'⟩ := PageTable.freePageTable_spec hmapped hle
      (p.trapFrame.elim m m.freePage).allocator
    rw [← Frames.freePageTable_forget] at heq
    cases hfree : (p.trapFrame.elim m m.freePage).freePageTable t p.size with
    | error e =>
      rw [hfree] at heq
      cases heq
    | ok m' =>
      rw [hfree] at heq
      obtain rfl := Except.ok.inj heq
      refine ⟨m', ?_, htrap.trans (Frames.freePageTable_given hfree), ?_⟩
      · simp only [hfree]
        rfl
      · rw [ha', hpages, Option.elim_some]
        ext x
        simp only [Multiset.count_add]
        omega

/-- A slot that is not in use, as `free` leaves it. -/
structure Clean (p : Process π) : Prop where
  freed : p = p.freed
  openFiles : ∀ fd, p.openFiles fd = none

/-- The process in the slot, once `init` has succeeded. -/
def fresh (p : Process π) (pid : ℕ) (page : Page) (t : PageTable) : Process π :=
  { p with state := .used, pid := pid, trapFrame := some page, pageTable := some t }

theorem Clean.init_spec (h : p.Clean) (pid : ℕ) (trampoline : Page) (m : Frames) :
    (∃ m', p.init pid trampoline m = .ok (false, p, m') ∧ Frames.Changed m m' ∧
      m'.allocator.pages = m.allocator.pages) ∨
    ∃ page t m', p.init pid trampoline m = .ok (true, p.fresh pid page t, m') ∧ Frames.Used m m' ∧
      t.Mapped (PageTable.userPages 0) ∧
      {page} + t.pages + m'.allocator.pages = m.allocator.pages := by
  have hpage : ∀ page, { p with pid := pid, state := .used, trapFrame := page }.freed = p := by
    intro page
    rw [h.freed]
    rfl
  have htable : p.pageTable = none := by rw [h.freed]; rfl
  have hframe : p.trapFrame = none := by rw [h.freed]; rfl
  have hsize : p.size = 0 := by rw [h.freed]; rfl
  have hok : ProcessMemory.TableOk p.pageTable p.size := by
    rw [htable]
    exact ProcessMemory.TableOk.none _
  unfold init
  rcases halloc : m.allocGarbage with ⟨_ | page, m₁⟩
  · obtain ⟨hused, hfree⟩ := Frames.allocGarbage_used halloc
    left
    obtain ⟨m', heq, hgiven, hpages⟩ :=
      free_spec (p := { p with pid := pid, state := .used }) hok m₁
    have hfreed := hpage p.trapFrame
    refine ⟨m', ?_, hused.changed.then hgiven, ?_⟩
    · simp only [heq]
      exact congrArg (fun p => Except.ok (false, p, m')) hfreed
    · rw [hpages, Allocator.pages, Allocator.pages, hfree]
      simp [pages, htable, hframe]
  obtain ⟨hused, hfree⟩ := Frames.allocGarbage_used halloc
  have hpages₁ : {page} + m₁.allocator.pages = m.allocator.pages := by
    rw [Allocator.pages, Allocator.pages, hfree]
    rfl
  obtain ⟨r, a', hcreate, hnone, hsome⟩ :=
    createPagetable_spec trampoline page m₁.allocator
  rw [← Frames.createPagetable_forget] at hcreate
  rcases hresult : Frames.createPagetable trampoline page m₁ with e | ⟨r', m₂⟩
  · rw [hresult] at hcreate
    cases hcreate
  rw [hresult] at hcreate
  obtain ⟨rfl, rfl⟩ := Prod.mk.inj (Except.ok.inj hcreate)
  obtain ⟨hchanged, hgrown⟩ := Frames.createPagetable_changed hresult
  cases r' with
  | none =>
    left
    obtain ⟨m', heq, hgiven, hpages⟩ := free_spec
      (p := { p with pid := pid, state := .used, trapFrame := some page }) hok m₂
    have hfreed := hpage (some page)
    refine ⟨m', ?_, (hused.then hchanged).then hgiven, ?_⟩
    · simp only [hresult]
      change (Process.free _ m₂ >>= fun r => pure (false, r.1, r.2)) = _
      rw [heq]
      exact congrArg (fun p => Except.ok (false, p, m')) hfreed
    · rw [hpages, hnone rfl, ← hpages₁]
      simp [pages, htable]
  | some t =>
    right
    obtain ⟨hmapped, hpages⟩ := hsome t rfl
    refine ⟨page, t, m₂, ?_, hused.trans (hgrown rfl), hmapped, ?_⟩
    · simp only [hresult]
      rfl
    · rw [add_assoc, hpages, hpages₁]

end Process

/-! ## The trapframe -/

section TrapFrame
variable (m : Frames) (frame childFrame : Page)

@[simp] theorem allocator_copyTrapFrame :
    (copyTrapFrame m frame childFrame).allocator = m.allocator := rfl

end TrapFrame

/-! ## Fork -/

section Fork
variable {π : Type} [DecidableEq π]

/-- What is known when `fork` is called: the parent runs and its pages are mapped and not
free, slots that are not in use are as `free` leaves them, and open files are referenced. -/
structure Ready (s : State π) (parent : π) : Prop where
  running : (s.processes parent).state ≠ .unused
  trapFrame : (s.processes parent).trapFrame.isSome
  pageTable : ∃ t, (s.processes parent).pageTable = some t ∧
    ∀ w < pageCount (s.processes parent).size, ∃ pte,
      t.lookup w = some (some pte) ∧ pte.isBranch = false
  owned : ∀ page ∈ (s.processes parent).pages, page ∉ s.frames.allocator.free
  free : s.frames.allocator.free.Nodup
  unused : ∀ q, (s.processes q).state = .unused → (s.processes q).Clean
  files : ∀ fd f, (s.processes parent).openFiles fd = some f → 1 ≤ s.fileReferences f

/-- Nothing has come of a fork. -/
structure Unchanged (s s' : State π) : Prop where
  processes : s'.processes = s.processes
  fileReferences : s'.fileReferences = s.fileReferences
  inodeReferences : s'.inodeReferences = s.inodeReferences
  free : s'.frames.allocator.pages = s.frames.allocator.pages
  memory : ∀ a, a / pageSize ∉ s.frames.allocator.free → s'.frames.memory a = s.frames.memory a

/-- The process in the slot `child` is a copy of `parent`. -/
structure Forked (s s' : State π) (parent child : π) : Prop where
  unused : (s.processes child).state = .unused
  others : ∀ q ≠ child, s'.processes q = s.processes q
  state : (s'.processes child).state = .runnable
  parentProcess : (s'.processes child).parentProcess = some parent
  size : (s'.processes child).size = (s.processes parent).size
  pages : ∃ t t', (s.processes parent).pageTable = some t ∧
    (s'.processes child).pageTable = some t' ∧
    (∀ w < pageCount (s.processes parent).size, Frames.Copied t s.frames t' s'.frames w) ∧
    t'.Mapped (PageTable.userPages (s.processes parent).size)
  trapFrame : ∃ frame frame', (s.processes parent).trapFrame = some frame ∧
    (s'.processes child).trapFrame = some frame' ∧ ∀ offset < trapFrameSize,
      s'.frames.memory (frame' * pageSize + offset) =
        if a0Offset ≤ offset ∧ offset < a0Offset + 8 then 0
        else s.frames.memory (frame * pageSize + offset)
  taken : s'.frames.allocator.pages + (s'.processes child).pages = s.frames.allocator.pages
  nodup : (s'.processes child).pages.Nodup
  memory : ∀ a, a / pageSize ∉ s.frames.allocator.free → s'.frames.memory a = s.frames.memory a
  openFiles : (s'.processes child).openFiles = (s.processes parent).openFiles
  currentWorkingDirectory : (s'.processes child).currentWorkingDirectory =
    (s.processes parent).currentWorkingDirectory
  fileReferences : ∀ f, s'.fileReferences f = s.fileReferences f +
    (List.finRange noFile).countP (fun fd => (s.processes parent).openFiles fd = some f)
  inodeReferences : s'.inodeReferences = Function.update s.inodeReferences
    (s.processes parent).currentWorkingDirectory
    (s.inodeReferences (s.processes parent).currentWorkingDirectory + 1)

variable {s : State π} {parent child : π}

omit [DecidableEq π] in
/-- `copyPageTable` of the parent, which copies every page or gives back those it took. -/
theorem Ready.copyPageTable (h : Ready s parent) {oldTable t : PageTable}
    (hold : (s.processes parent).pageTable = some oldTable) {m : Frames}
    (hmapped : t.Mapped (PageTable.userPages 0)) :
    ∃ done t' m', Frames.copyPageTable oldTable t m (s.processes parent).size =
        .ok (done, t', m') ∧ Frames.Changed m m' ∧
      t'.Mapped (PageTable.userPages (if done then (s.processes parent).size else 0)) ∧
      ProcessMemory.TableOk (some t') (if done then (s.processes parent).size else 0) ∧
      t'.pages + t'.pagesFrom 0 (pageCount (if done then (s.processes parent).size else 0)) +
        m'.allocator.pages = t.pages + m.allocator.pages := by
  obtain ⟨oldTable', hold', hpages⟩ := h.pageTable
  obtain rfl := Option.some.inj (hold'.symm.trans hold)
  obtain ⟨done, t', a', hcopy, hext⟩ := PageTable.copyPageTable_spec hpages hmapped
    (ProcessMemory.Process.userPages_trapframe 0) m.allocator
  rw [← Frames.copyPageTable_forget] at hcopy
  obtain ⟨m', hdone, rfl⟩ := Frames.exists_of_forget hcopy
  have hext' : PageTable.Extended t m.allocator (PageTable.userPages 0) (pageCount 0)
      (pageCount (if done then (s.processes parent).size else 0)) t' m'.allocator := by
    have hzero : pageCount 0 = 0 := rfl
    cases done
    · simpa only [hzero, Bool.false_eq_true, if_false] using hext
    · simpa only [hzero, if_true] using hext
  obtain ⟨hok, hsame⟩ := ProcessMemory.Process.extended_user 0 _ hext' (Nat.zero_le _)
  refine ⟨done, t', m', hdone, (Frames.copyPages_changed hdone).1, (hok t' rfl).1, hok, ?_⟩
  rw [ProcessMemory.Process.tablePages_some, ProcessMemory.Process.tablePages_some] at hsame
  rw [hsame, show pageCount 0 = 0 from rfl, PageTable.pagesFrom, add_zero]

omit [DecidableEq π] in
theorem Forked.disjoint {s' : State π} (hf : Forked s s' parent child) (h : Ready s parent) :
    child ≠ parent ∧ ∀ page ∈ (s'.processes parent).pages, page ∉ (s'.processes child).pages := by
  have hne : parent ≠ child := by
    rintro rfl
    exact h.running hf.unused
  refine ⟨hne.symm, fun page hpage hin => ?_⟩
  rw [hf.others parent hne] at hpage
  have hfree : page ∈ s.frames.allocator.pages := by
    rw [← hf.taken]
    exact Multiset.mem_add.mpr (.inr hin)
  exact h.owned page hpage hfree

end Fork

/-! ## One page -/

/-- A table with the one page 103, which may be read and written. -/
def onePage : PageTable :=
  ((PageTable.map (.empty 100) ⟨[101, 102], fun _ => false, 0⟩ 0 103 .data true).2).1

/-- A process with one page, a free slot and twenty free pages. -/
def single : State Bool where
  frames := ⟨⟨List.range 20, fun _ => false, 0⟩, fun a => UInt8.ofNat a⟩
  trampoline := 99
  processes q :=
    if q then ⟨.unused, 0, none, none, none, 0, fun _ => none, 0⟩
    else
      ⟨.runnable, 1, none, some 104, some onePage, 10, fun fd => if fd = 0 then some 5 else none, 7⟩
  processTable := [false, true]
  nextProcessId := 2
  fileReferences f := if f = 5 then 1 else 0
  inodeReferences h := if h = 7 then 1 else 0

end Zigmaos.ForkContents
