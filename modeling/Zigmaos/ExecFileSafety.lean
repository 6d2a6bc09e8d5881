import Zigmaos.ExecFile
import Zigmaos.LeafEntries

/-!
# Which files `exec` takes without a fault

The loop over the program headers meets a fault exactly where it reaches a header
whose place, type, offset or size does not fit the type that it is narrowed to.
Everywhere else the pages that are mapped are those of the program, so that each
segment can be loaded, and an error gives all of them back.
-/
namespace Zigmaos.Memory.PageTable

variable {t t' : PageTable} {a a' : Allocator}

/-- The entries that `alloc` adds are for the user. -/
theorem allocPages_true {oldSize v n : ℕ} {permissions : PagePermissions}
    (h : allocPages oldSize permissions t a v n = .ok (true, t', a')) :
    ∀ w < maxVirtualPage, (v ≤ w → w < v + n → ∃ page, t'.leaf w = some ⟨permissions, true, page⟩) ∧
      (¬ (v ≤ w ∧ w < v + n) → t'.leaf w = t.leaf w) := by
  induction n generalizing t a v with
  | zero =>
    simp only [allocPages, Except.ok.injEq, Prod.mk.injEq, true_and] at h
    obtain ⟨rfl, rfl⟩ := h
    exact fun w _ => ⟨fun hle hlt => absurd hlt (by omega), fun _ => rfl⟩
  | succ n ih =>
    rw [allocPages] at h
    split at h
    · split at h
      · cases h
      · simp at h
    next page a₁ _ =>
      split at h
      · cases h
      next hv =>
        have hspec := t.map_spec a₁ (Nat.not_le.mp hv) page permissions true
        generalize t.map a₁ v page permissions true = r at hspec h
        obtain ⟨result, t₁, a₂⟩ := r
        simp only at hspec h
        cases result with
        | ok =>
          obtain ⟨-, ⟨-, -, hleaf⟩ | ⟨hne, -⟩⟩ := hspec
          · intro w hw
            obtain ⟨hin, hout⟩ := ih h w hw
            refine ⟨fun hle hlt => ?_, fun hnot => ?_⟩
            · by_cases hwv : w = v
              · refine ⟨page, ?_⟩
                rw [hout (by omega), hleaf w hw, if_pos hwv]
              · exact hin (by omega) (by omega)
            · rw [hout (by omega), hleaf w hw, if_neg (by omega)]
          · exact absurd rfl hne
        | outOfMemory =>
          simp only at h
          split at h
          · cases h
          · simp at h
        | alreadyMappedPage =>
          simp only at h
          split at h
          · cases h
          · simp at h

theorem alloc_size {oldSize newSize size : ℕ} {permissions : PagePermissions}
    (h : t.alloc a oldSize newSize permissions = .ok (some size, t', a')) :
    size = max oldSize newSize := by
  unfold alloc at h
  split at h
  · simp only [Except.ok.injEq, Prod.mk.injEq, Option.some.injEq] at h
    omega
  · split at h
    · exact absurd h nofun
    next done _ _ _ =>
      cases done with
      | false => simp at h
      | true =>
        simp only [if_true, Except.ok.injEq, Prod.mk.injEq, Option.some.injEq] at h
        omega

theorem alloc_user {oldSize newSize size : ℕ} {permissions : PagePermissions}
    (h : t.alloc a oldSize newSize permissions = .ok (some size, t', a')) {w : ℕ}
    (hw : w < maxVirtualPage) (hle : pageCount oldSize ≤ w) (hlt : w < pageCount size) :
    ∃ pte, t'.leaf w = some pte ∧ pte.user = true := by
  have hsize := alloc_size h
  unfold alloc at h
  split at h
  next hsmall =>
    rw [hsize, Nat.max_eq_left (by omega)] at hlt
    omega
  next hlarge =>
    rw [hsize, Nat.max_eq_right (by omega)] at hlt
    split at h
    · exact absurd h nofun
    next done t₁ a₁ hpages =>
      cases done with
      | false => simp at h
      | true =>
        simp only [if_true, Except.ok.injEq, Prod.mk.injEq] at h
        obtain ⟨-, rfl, -⟩ := h
        obtain ⟨page, hpage⟩ := (allocPages_true hpages w hw).1 hle (by omega)
        exact ⟨_, hpage, rfl⟩

/-- A page of the user is found. -/
theorem translateAddress_user {v address : ℕ} {pte : PageTableEntry} (hv : v < maxVirtualPage)
    (hleaf : t.leaf v = some pte) (huser : pte.user = true) (haddress : address / pageSize = v) :
    translateAddress t address = .ok (pte.page * pageSize) := by
  have hlookup := lookup_isSome_of_leaf (t := t) (v := v) (by rw [hleaf]; rfl)
  unfold translateAddress
  rw [if_neg, haddress, hlookup, hleaf]
  · simp [huser]
  · simp only [maxVirtualAddress, pageSize] at *
    omega

end Zigmaos.Memory.PageTable

namespace Zigmaos.ExecFile
open Memory
open ProcessMemory (maxArg TableOk)
open ProcessMemory.Process (tablePages)

/-! ## The address space -/

/-- The table maps the pages of the program, and no page is lost. -/
structure Built (total : Multiset Page) (img : Image) : Prop where
  table : TableOk (some img.pageTable) img.programSize
  pages : tablePages (some img.pageTable) img.programSize + img.allocator.pages = total

/-- All pages of the program are for the user. -/
structure ImageOk (total : Multiset Page) (img : Image) : Prop extends Built total img where
  user : ∀ v < pageCount img.programSize, ∃ pte, img.pageTable.leaf v = some pte ∧ pte.user = true

variable {total : Multiset Page} {img : Image}

theorem ImageOk.alloc (h : ImageOk total img) (newSize : ℕ) {permissions : PagePermissions}
    (hp : permissions ≠ .none ∨
      img.pageTable.mapsPage img.allocator img.programSize newSize = false) :
    ∃ r t a, img.pageTable.alloc img.allocator img.programSize newSize permissions = .ok (r, t, a) ∧
      ImageOk total ⟨t, a, img.memory, r.getD img.programSize⟩ := by
  -- Without a permission nothing is mapped, and any permissions will do.
  obtain ⟨permissions', hne, heq⟩ : ∃ q : PagePermissions, q ≠ .none ∧
      img.pageTable.alloc img.allocator img.programSize newSize permissions =
        img.pageTable.alloc img.allocator img.programSize newSize q := by
    by_cases hnone : permissions = .none
    · refine ⟨.data, by decide, ?_⟩
      rw [hnone]
      exact PageTable.alloc_congr (hp.resolve_left (fun hne => hne hnone))
    · exact ⟨permissions, hnone, rfl⟩
  obtain ⟨hmapped, hle⟩ := h.table img.pageTable rfl
  obtain ⟨r, t, a, halloc, htable, hpages⟩ :=
    ProcessMemory.Process.alloc_user newSize permissions' h.table img.allocator hne
  obtain ⟨r', t', a', halloc', hext⟩ := PageTable.alloc_spec newSize hmapped img.allocator hne
    (ProcessMemory.Process.userPages_trapframe img.programSize) hle
  rw [halloc] at halloc'
  obtain ⟨rfl, rfl, rfl⟩ := by simpa using halloc'
  refine ⟨r, t, a, heq.trans halloc, ⟨htable, hpages.trans h.pages⟩, fun v hv => ?_⟩
  have hmax := PageTable.trapframePage_lt
  obtain ⟨-, hle'⟩ := htable t rfl
  have hvmax : v < maxVirtualPage := by
    have : pageCount (r.getD img.programSize) ≤ trapframePage := hle'
    simp only at hv
    omega
  by_cases hold : v < pageCount img.programSize
  · obtain ⟨pte, hleaf, huser⟩ := h.user v hold
    refine ⟨pte, ?_, huser⟩
    rw [← hleaf]
    exact hext.leaf_eq v hvmax (by omega)
  · cases r with
    | none => exact absurd hv hold
    | some size => exact PageTable.alloc_user halloc hvmax (Nat.not_lt.mp hold) hv

/-! ## Reading the file -/

theorem readInode_length {content bytes : List UInt8} {offset count : ℕ}
    (h : readInode content offset count = .ok bytes) (hcount : 0 < count)
    (hlength : bytes.length = count) : offset + count ≤ content.length := by
  unfold readInode at h
  split at h
  · obtain rfl := Except.ok.inj h
    rw [List.length_nil] at hlength
    omega
  · split at h
    · exact absurd h nofun
    · obtain rfl := Except.ok.inj h
      rw [List.length_take, List.length_drop] at hlength
      omega

/-- The loop of `loadSegment` has read the pages before `currentPage`. -/
theorem loadPages_spec {t : PageTable} {virtualAddress offset size n k : ℕ} {content : List UInt8}
    (hcontent : content.length ≤ FileSystem.maxFileSize) (hoffset : offset < 2 ^ 32)
    (huser : ∀ v, virtualAddress / pageSize ≤ v → v < virtualAddress / pageSize + pageCount size →
      v < maxVirtualPage ∧ ∃ pte, t.leaf v = some pte ∧ pte.user = true)
    (hn : k + n = pageCount size)
    (hread : 0 < k → offset + min size (k * pageSize) ≤ content.length) (memory : PhysicalMemory) :
    ∃ r memory', loadPages t virtualAddress content offset size memory (k * pageSize) n =
        .ok (r, memory') ∧ (r = .ok () → 0 < size → offset + size ≤ content.length) := by
  have hpage : pageSize = 4096 := rfl
  have hmaxFile : FileSystem.maxFileSize = 274432 := rfl
  induction n generalizing memory k with
  | zero =>
    refine ⟨.ok (), memory, rfl, fun _ hsize => ?_⟩
    have hk : 0 < k ∧ size ≤ k * pageSize := by
      rw [← PageTable.pageCount_le_iff]
      simp only [pageCount, hpage] at *
      omega
    have := hread hk.1
    rwa [Nat.min_eq_left hk.2] at this
  | succ n ih =>
    have hlt : k * pageSize < size := by
      have : ¬ pageCount size ≤ k := by omega
      rw [PageTable.pageCount_le_iff] at this
      omega
    have hplace : (virtualAddress + k * pageSize) / pageSize = virtualAddress / pageSize + k := by
      rw [Nat.add_mul_div_right _ _ (by omega)]
    obtain ⟨hvmax, pte, hleaf, hpte⟩ := huser (virtualAddress / pageSize + k) (by omega) (by omega)
    rw [loadPages, PageTable.translateAddress_user hvmax hleaf hpte hplace]
    simp only
    have hno : ¬ 2 ^ 32 ≤ offset + k * pageSize := by
      obtain rfl | hk := Nat.eq_zero_or_pos k
      · omega
      · have := hread hk
        omega
    rw [if_neg hno]
    generalize hcount : (if size - k * pageSize < pageSize then size - k * pageSize else pageSize) =
      readCount
    have hcountEq : readCount = min (size - k * pageSize) pageSize := by
      rw [← hcount]
      split <;> omega
    cases hbytes : readInode content (offset + k * pageSize) readCount with
    | error e => exact ⟨_, _, rfl, by simp⟩
    | ok bytes =>
      simp only
      by_cases hlength : bytes.length = readCount
      · have hin := readInode_length hbytes (by omega) hlength
        rw [if_neg (fun hne => hne hlength), if_neg (by omega), ← Nat.succ_mul]
        refine ih (by omega) (fun _ => ?_) _
        rw [Nat.succ_mul]
        omega
      · rw [if_pos hlength]
        exact ⟨_, _, rfl, by simp⟩

/-! ## Program headers -/

/-- `exec` goes on to allocate the pages of the segment. -/
structure ProgramHeader.Valid (programHeader : ProgramHeader) : Prop where
  memorySize : programHeader.fileSize ≤ programHeader.memorySize
  newSize : programHeader.virtualAddress + programHeader.memorySize < 2 ^ 64
  aligned : programHeader.virtualAddress % pageSize = 0

def ProgramHeader.alloc (programHeader : ProgramHeader) (img : Image) :
    Except Memory.Panic (Option ℕ × PageTable × Allocator) :=
  img.pageTable.alloc img.allocator img.programSize
    (programHeader.virtualAddress + programHeader.memorySize) programHeader.flags.toPagePermissions

/-- A segment that adds a page has a flag. -/
def ProgramHeader.Flagged (programHeader : ProgramHeader) (img : Image) : Prop :=
  programHeader.Valid → programHeader.flags.toPagePermissions ≠ .none ∨
    img.pageTable.mapsPage img.allocator img.programSize
      (programHeader.virtualAddress + programHeader.memorySize) = false

/-- The offset and the size of a segment that gets its pages fit 32 bits. -/
def ProgramHeader.Narrow (programHeader : ProgramHeader) (img : Image) : Prop :=
  programHeader.Valid → ∀ size t a, programHeader.alloc img = .ok (some size, t, a) →
    programHeader.offset < 2 ^ 32 ∧ programHeader.fileSize < 2 ^ 32

/-- The bytes of the segment are in the file. -/
def ProgramHeader.Inside (programHeader : ProgramHeader) (content : List UInt8) : Prop :=
  0 < programHeader.fileSize → programHeader.offset + programHeader.fileSize ≤ content.length

theorem loadHeader_spec (h : ImageOk total img) {content : List UInt8}
    {programHeader : ProgramHeader} (hcontent : content.length ≤ FileSystem.maxFileSize)
    (hflagged : programHeader.Flagged img) :
    (¬ programHeader.Narrow img ∧ ∃ f, loadHeader content programHeader img = .error f) ∨
    (programHeader.Narrow img ∧ ∃ r img', loadHeader content programHeader img = .ok (r, img') ∧
      ImageOk total img' ∧ (r = .ok () → programHeader.Inside content)) := by
  unfold loadHeader
  simp only
  by_cases hmemory : programHeader.memorySize < programHeader.fileSize
  · rw [if_pos hmemory]
    exact .inr ⟨fun hv => absurd hv.memorySize (by omega), _, img, rfl, h, by simp⟩
  rw [if_neg hmemory]
  by_cases hoverflow : 2 ^ 64 ≤ programHeader.virtualAddress + programHeader.memorySize
  · rw [if_pos hoverflow]
    exact .inr ⟨fun hv => absurd hv.newSize (by omega), _, img, rfl, h, by simp⟩
  rw [if_neg hoverflow]
  by_cases haligned : programHeader.virtualAddress % pageSize = 0
  · rw [if_neg (fun hne => hne haligned)]
    have hvalid : programHeader.Valid := ⟨by omega, by omega, haligned⟩
    obtain ⟨r, t, a, halloc, himage⟩ :=
      h.alloc (programHeader.virtualAddress + programHeader.memorySize) (hflagged hvalid)
    rw [halloc]
    cases r with
    | none =>
      refine .inr ⟨fun _ size t' a' hsome => ?_, _, _, rfl, himage, by simp⟩
      rw [ProgramHeader.alloc, halloc] at hsome
      simp at hsome
    | some programSize =>
      simp only
      by_cases hnarrow : 2 ^ 32 ≤ programHeader.offset ∨ 2 ^ 32 ≤ programHeader.fileSize
      · rw [if_pos hnarrow]
        refine .inl ⟨fun hfits => ?_, _, rfl⟩
        have := hfits hvalid _ _ _ halloc
        omega
      · rw [if_neg hnarrow]
        rw [not_or, Nat.not_le, Nat.not_le] at hnarrow
        -- The segment lies in the program, whose pages are all mapped.
        have hsize := PageTable.alloc_size halloc
        obtain ⟨-, hle⟩ := himage.table t rfl
        have hmax := PageTable.trapframePage_lt
        have hcount : programHeader.virtualAddress / pageSize + pageCount programHeader.fileSize ≤
            pageCount programSize := by
          have : programHeader.virtualAddress + programHeader.fileSize ≤ programSize := by omega
          simp only [pageCount, pageSize] at haligned this ⊢
          omega
        obtain ⟨r, memory, hload, hinside⟩ := loadPages_spec (k := 0) hcontent hnarrow.1
          (fun v _ hv => by
            have hle : pageCount programSize ≤ trapframePage := hle
            exact ⟨by omega, himage.user v (lt_of_lt_of_le hv hcount)⟩)
          (Nat.zero_add _) (fun hk => absurd hk (lt_irrefl 0)) img.memory
        rw [Nat.zero_mul] at hload
        rw [loadSegment, hload]
        refine .inr ⟨fun _ _ _ _ _ => hnarrow, r, _, rfl, ⟨⟨himage.table, himage.pages⟩, himage.user⟩,
          hinside⟩
  · rw [if_pos haligned]
    exact .inr ⟨fun hv => absurd hv.aligned haligned, _, img, rfl, h, by simp⟩

/-- The program header at an index, if the file has all its bytes. -/
def headerAt (content : List UInt8) (elfHeader : ElfHeader) (index : ℕ) : Option ProgramHeader :=
  match readInode content (elfHeader.programHeaderOffset + index * programHeaderSize)
      programHeaderSize with
  | .error _ => none
  | .ok bytes => if bytes.length = programHeaderSize then some (.ofBytes bytes) else none

/-- The header is in reach of 32 bits and of type `load`, and so is its segment. -/
def InRange (content : List UInt8) (elfHeader : ElfHeader) (index : ℕ) (img : Image) : Prop :=
  elfHeader.programHeaderOffset + index * programHeaderSize < 2 ^ 32 ∧
    ∀ programHeader, headerAt content elfHeader index = some programHeader →
      programHeader.type = 1 ∧ programHeader.Narrow img

def HeaderInside (content : List UInt8) (elfHeader : ElfHeader) (index : ℕ) : Prop :=
  elfHeader.programHeaderOffset + (index + 1) * programHeaderSize ≤ content.length ∧
    ∀ programHeader, headerAt content elfHeader index = some programHeader →
      programHeader.Inside content

theorem loadIndex_spec (h : ImageOk total img) {content : List UInt8} {elfHeader : ElfHeader}
    (index : ℕ) (hcontent : content.length ≤ FileSystem.maxFileSize)
    (hflagged : ∀ programHeader, headerAt content elfHeader index = some programHeader →
      programHeader.Flagged img) :
    (¬ InRange content elfHeader index img ∧ ∃ f, loadIndex content elfHeader index img = .error f) ∨
    (InRange content elfHeader index img ∧ ∃ r img',
      loadIndex content elfHeader index img = .ok (r, img') ∧ ImageOk total img' ∧
      (r = .ok () → HeaderInside content elfHeader index)) := by
  unfold loadIndex InRange HeaderInside
  simp only
  by_cases hwide : 2 ^ 64 ≤ elfHeader.programHeaderOffset + index * programHeaderSize
  · rw [if_pos hwide]
    exact .inl ⟨fun hin => absurd hin.1 (by omega), _, rfl⟩
  rw [if_neg hwide]
  by_cases hnarrow : 2 ^ 32 ≤ elfHeader.programHeaderOffset + index * programHeaderSize
  · rw [if_pos hnarrow]
    exact .inl ⟨fun hin => absurd hin.1 (by omega), _, rfl⟩
  rw [if_neg hnarrow]
  unfold headerAt at *
  cases hbytes : readInode content (elfHeader.programHeaderOffset + index * programHeaderSize)
      programHeaderSize with
  | error e => exact .inr ⟨⟨by omega, nofun⟩, _, img, rfl, h, nofun⟩
  | ok bytes =>
    rw [hbytes] at hflagged
    simp only at hflagged ⊢
    by_cases hlength : bytes.length = programHeaderSize
    · rw [if_neg (not_not.mpr hlength)]
      simp only [if_pos hlength, Option.some.injEq, forall_eq'] at hflagged ⊢
      have hin := readInode_length hbytes (by decide) hlength
      rw [add_assoc, ← Nat.succ_mul] at hin
      unfold ProgramType.ofInt
      by_cases htype : (ProgramHeader.ofBytes bytes).type = 1
      · rw [if_pos htype]
        simp only [ne_eq, not_true, if_false]
        obtain ⟨hwide, hf⟩ | ⟨hfits, r, img', heq, hok, hinside⟩ :=
          loadHeader_spec h hcontent hflagged
        · exact .inl ⟨fun hin => hwide hin.2.2, hf⟩
        · exact .inr ⟨⟨by omega, htype, hfits⟩, r, img', heq, hok, fun hr => ⟨hin, hinside hr⟩⟩
      · rw [if_neg htype]
        exact .inl ⟨fun hin => htype hin.2.1, _, rfl⟩
    · rw [if_pos hlength]
      refine .inr ⟨⟨by omega, ?_⟩, _, img, rfl, h, nofun⟩
      rw [if_neg hlength]
      exact nofun

/-! ## The loop -/

/-- The loop comes to the program header `index + j` with the image. -/
def Arrives (content : List UInt8) (elfHeader : ElfHeader) (index : ℕ) (img : Image) (j : ℕ)
    (img' : Image) : Prop :=
  loadProgram content elfHeader index img j = .ok (.ok (), img')

theorem arrives_succ {content : List UInt8} {elfHeader : ElfHeader} {index j : ℕ} {img₁ : Image}
    (h : loadIndex content elfHeader index img = .ok (.ok (), img₁)) (img' : Image) :
    Arrives content elfHeader index img (j + 1) img' ↔
      Arrives content elfHeader (index + 1) img₁ j img' := by
  unfold Arrives
  rw [loadProgram, h]

theorem not_arrives_succ {content : List UInt8} {elfHeader : ElfHeader} {index j : ℕ}
    (h : ∀ img₁, loadIndex content elfHeader index img ≠ .ok (.ok (), img₁)) (img' : Image) :
    ¬ Arrives content elfHeader index img (j + 1) img' := by
  unfold Arrives
  rw [loadProgram]
  split
  · exact nofun
  · simp
  next img₁ heq => exact absurd heq (h img₁)

/-- All program headers that the loop comes to are in range, or it ends in a fault. -/
theorem loadProgram_spec (h : ImageOk total img) {content : List UInt8} (elfHeader : ElfHeader)
    (index : ℕ) {n : ℕ} (hcontent : content.length ≤ FileSystem.maxFileSize)
    (hflagged : ∀ j < n, ∀ img', Arrives content elfHeader index img j img' →
      ∀ programHeader, headerAt content elfHeader (index + j) = some programHeader →
        programHeader.Flagged img') :
    (¬ (∀ j < n, ∀ img', Arrives content elfHeader index img j img' →
        InRange content elfHeader (index + j) img') ∧
      ∃ f, loadProgram content elfHeader index img n = .error f) ∨
    ((∀ j < n, ∀ img', Arrives content elfHeader index img j img' →
        InRange content elfHeader (index + j) img') ∧
      ∃ r img', loadProgram content elfHeader index img n = .ok (r, img') ∧ ImageOk total img' ∧
        (r = .ok () → ∀ j < n, HeaderInside content elfHeader (index + j))) := by
  induction n generalizing index img with
  | zero =>
    exact .inr ⟨fun j hj => absurd hj (Nat.not_lt_zero j), .ok (), img, rfl, h,
      fun _ j hj => absurd hj (Nat.not_lt_zero j)⟩
  | succ n ih =>
    have hhere : Arrives content elfHeader index img 0 img := rfl
    obtain ⟨hout, f, hf⟩ | ⟨hin, r, img₁, heq, hok, hinside⟩ :=
      loadIndex_spec h index hcontent (hflagged 0 (Nat.succ_pos n) img hhere)
    · refine .inl ⟨fun hall => hout (hall 0 (Nat.succ_pos n) img hhere), f, ?_⟩
      rw [loadProgram, hf]
    cases r with
    | error e =>
      refine .inr ⟨fun j hj img' harrives => ?_, .error e, img₁, by rw [loadProgram, heq], hok, nofun⟩
      cases j with
      | zero =>
        obtain rfl : img = img' := by simpa [Arrives, loadProgram] using harrives
        exact hin
      | succ j =>
        refine absurd harrives (not_arrives_succ (fun img₂ h₂ => ?_) img')
        rw [heq] at h₂
        simp at h₂
    | ok u =>
      have hsucc : ∀ j img', Arrives content elfHeader index img (j + 1) img' ↔
          Arrives content elfHeader (index + 1) img₁ j img' := fun j img' => arrives_succ heq img'
      have hplace : ∀ j, index + 1 + j = index + (j + 1) := fun j => by omega
      have hloop : loadProgram content elfHeader index img (n + 1) =
          loadProgram content elfHeader (index + 1) img₁ n := by rw [loadProgram, heq]
      have hrest := ih hok (index + 1) (fun j hj img' harrives => by
        rw [hplace]
        exact hflagged (j + 1) (by omega) img' ((hsucc j img').mpr harrives))
      have hall : (∀ j < n + 1, ∀ img', Arrives content elfHeader index img j img' →
          InRange content elfHeader (index + j) img') ↔
          ∀ j < n, ∀ img', Arrives content elfHeader (index + 1) img₁ j img' →
            InRange content elfHeader (index + 1 + j) img' := by
        constructor
        · intro hall j hj img' harrives
          rw [hplace]
          exact hall (j + 1) (by omega) img' ((hsucc j img').mpr harrives)
        · intro hall j hj img' harrives
          cases j with
          | zero =>
            obtain rfl : img = img' := by simpa [Arrives, loadProgram] using harrives
            exact hin
          | succ j =>
            rw [← hplace]
            exact hall j (by omega) img' ((hsucc j img').mp harrives)
      rw [hall, hloop]
      refine hrest.imp_right (fun ⟨hrange, r, img', heq', hok', hinside'⟩ =>
        ⟨hrange, r, img', heq', hok', fun hr j hj => ?_⟩)
      cases j with
      | zero => exact hinside rfl
      | succ j =>
        rw [← hplace]
        exact hinside' hr j (by omega)

/-! ## The stack -/

/-- Every argument fits a page with its terminator. -/
def Fitting (argv : List (List UInt8)) : Prop := ∀ arg ∈ argv, arg.length < pageSize

theorem pushArguments_spec (t : PageTable) (memory : PhysicalMemory) (userStack : List ℕ)
    {stackBase stackPointer : ℕ} {argv : List (List UInt8)} (hargv : Fitting argv)
    (hbase : pageSize ≤ stackBase) (hpointer : stackBase ≤ stackPointer) :
    ∃ r memory', pushArguments t stackBase memory stackPointer userStack argv = .ok (r, memory') ∧
      ∀ stackPointer' userStack', r = .ok (stackPointer', userStack') →
        stackBase ≤ stackPointer' ∧ userStack'.length = userStack.length + argv.length := by
  induction argv generalizing memory stackPointer userStack with
  | nil =>
    refine ⟨_, memory, rfl, fun stackPointer' userStack' hr => ?_⟩
    obtain ⟨rfl, rfl⟩ := Prod.mk.inj (Except.ok.inj hr)
    exact ⟨hpointer, rfl⟩
  | cons arg argv ih =>
    have harg := hargv arg (List.mem_cons_self)
    rw [pushArguments, if_neg (by omega)]
    simp only
    split
    · exact ⟨_, _, rfl, nofun⟩
    next hspace =>
      split
      · exact ⟨_, _, rfl, nofun⟩
      next memory' _ =>
        obtain ⟨r, memory'', heq, hr⟩ := ih memory'
          (userStack ++ [alignDown16 (stackPointer - (arg.length + 1))])
          (fun a ha => hargv a (List.mem_cons_of_mem _ ha)) (Nat.not_lt.mp hspace)
        refine ⟨r, memory'', heq, fun stackPointer' userStack' h => ?_⟩
        obtain ⟨hle, hlength⟩ := hr stackPointer' userStack' h
        refine ⟨hle, ?_⟩
        rw [hlength, List.length_append, List.length_cons, List.length_cons, List.length_nil]
        omega

theorem pushPointers_spec (t : PageTable) (memory : PhysicalMemory) {userStack : List ℕ}
    {stackBase stackPointer : ℕ} (hcount : userStack.length ≤ maxArg) (hbase : pageSize ≤ stackBase)
    (hpointer : stackBase ≤ stackPointer) :
    ∃ r memory', pushPointers t stackBase memory stackPointer userStack = .ok (r, memory') := by
  have hmax : maxArg = 32 := rfl
  have hpage : pageSize = 4096 := rfl
  unfold pushPointers
  simp only
  rw [if_neg (by omega)]
  split
  · exact ⟨_, _, rfl⟩
  · split
    · exact ⟨_, _, rfl⟩
    · exact ⟨_, _, rfl⟩

theorem makeStack_spec (h : ImageOk total img) {argv : List (List UInt8)} (hargv : Fitting argv)
    (hcount : argv.length ≤ maxArg) :
    ∃ r img', makeStack argv img = .ok (r, img') ∧ Built total img' := by
  have hrounded : pageCount (pageCount img.programSize * pageSize) = pageCount img.programSize :=
    PageTable.pageCount_mul _
  have htable : TableOk (some img.pageTable) (pageCount img.programSize * pageSize) := by
    intro u hu
    obtain ⟨hmapped, hle⟩ := h.table u hu
    refine ⟨hmapped.congr (fun w _ => ?_), by rw [hrounded]; exact hle⟩
    unfold PageTable.userPages
    rw [hrounded]
  obtain ⟨r, t, a, halloc, htable', hpages⟩ := ProcessMemory.Process.alloc_user
    (pageCount img.programSize * pageSize + 2 * pageSize) .data htable img.allocator (by decide)
  have htotal : tablePages (some img.pageTable) (pageCount img.programSize * pageSize) +
      img.allocator.pages = total := by
    rw [← h.pages, ProcessMemory.Process.tablePages_some, ProcessMemory.Process.tablePages_some,
      hrounded]
  rw [htotal] at hpages
  unfold makeStack
  simp only [halloc]
  cases r with
  | none =>
    refine ⟨_, _, rfl, fun u hu => ?_, ?_⟩
    · obtain ⟨hmapped, hle⟩ := htable' u hu
      simp only [Option.getD_none] at hmapped hle
      refine ⟨hmapped.congr (fun w _ => ?_), by rw [← hrounded]; exact hle⟩
      unfold PageTable.userPages
      rw [hrounded]
    · rw [← hpages, ProcessMemory.Process.tablePages_some, ProcessMemory.Process.tablePages_some,
        Option.getD_none, hrounded]
  | some programSize =>
    have hsize := PageTable.alloc_size halloc
    have hpage : pageSize = 4096 := rfl
    rw [Nat.max_eq_right (by omega)] at hsize
    obtain ⟨hmapped, hle⟩ := htable' t rfl
    simp only [Option.getD_some] at hmapped hle hpages
    have hplace : programSize / pageSize - 2 = pageCount img.programSize := by
      rw [hsize, hpage]
      omega
    have hpages' : pageCount programSize = pageCount img.programSize + 2 := by
      rw [hsize, ← Nat.add_mul, PageTable.pageCount_mul]
    have hmax := PageTable.trapframePage_lt
    obtain ⟨t', hclear, hmapped', hnodes, hleaf⟩ := PageTable.clearUser_spec hmapped
      (v := programSize / pageSize - 2) (by omega) (.inl (by omega))
    simp only [hclear]
    have hbuilt : ∀ memory, Built total ⟨t', a, memory, programSize⟩ := by
      intro memory
      refine ⟨fun u hu => ?_, ?_⟩
      · obtain rfl := Option.some.inj hu
        exact ⟨hmapped', hle⟩
      · rw [← hpages, ProcessMemory.Process.tablePages_some, ProcessMemory.Process.tablePages_some,
          hnodes, PageTable.pagesFrom_congr (fun w _ hw => hleaf w (by
            simp only at hw
            omega))]
    obtain ⟨r, memory, hargs, hr⟩ := pushArguments_spec t' img.memory [] hargv
      (show pageSize ≤ programSize - pageSize by omega) (Nat.sub_le programSize pageSize)
    rw [hargs]
    cases r with
    | error e => exact ⟨_, _, rfl, hbuilt memory⟩
    | ok pushed =>
      obtain ⟨stackPointer, userStack⟩ := pushed
      obtain ⟨hpointer, hlength⟩ := hr stackPointer userStack rfl
      obtain ⟨r, memory', hpointers⟩ := pushPointers_spec t' memory
        (show userStack.length ≤ maxArg by rw [hlength, List.length_nil]; omega)
        (show pageSize ≤ programSize - pageSize by omega) hpointer
      simp only [hpointers]
      exact ⟨_, _, rfl, hbuilt memory'⟩

/-! ## The call -/

/-- A process with its own memory, outside of `exec`, and arguments that its
caller has copied in. -/
structure Ready (s : State) (file : Option (List UInt8)) (argv : List (List UInt8)) : Prop where
  table : TableOk (some s.process.pageTable) s.process.size
  inode : s.inode.locked = false
  file : ∀ content, file = some content → content.length ≤ FileSystem.maxFileSize
  arguments : Fitting argv

/-- `exec` comes to the program header at an index, with the image. -/
def Reached (s : State) (content : List UInt8) (argv : List (List UInt8)) (elfHeader : ElfHeader)
    (index : ℕ) (img : Image) : Prop :=
  argv.length ≤ maxArg ∧ readElfHeader content = .ok elfHeader ∧
    index < elfHeader.programHeaderEntryNum ∧
    ∃ t a, createPagetable s.trampoline s.process.trapFrame s.allocator = .ok (some t, a) ∧
      Arrives content elfHeader 0 ⟨t, a, s.memory, 0⟩ index img

/-- Each program header that `exec` comes to satisfies the condition. -/
def EachHeader (s : State) (file : Option (List UInt8)) (argv : List (List UInt8))
    (P : List UInt8 → ElfHeader → ℕ → Image → Prop) : Prop :=
  ∀ content elfHeader index img, file = some content →
    Reached s content argv elfHeader index img → P content elfHeader index img

def FlaggedAt (content : List UInt8) (elfHeader : ElfHeader) (index : ℕ) (img : Image) : Prop :=
  ∀ programHeader, headerAt content elfHeader index = some programHeader →
    programHeader.Flagged img

/-- The program headers and the segments lie in the file. -/
def FileInside (content : List UInt8) : Prop :=
  ∃ elfHeader, readElfHeader content = .ok elfHeader ∧
    ∀ index < elfHeader.programHeaderEntryNum, HeaderInside content elfHeader index

/-- No fault; a file that is accepted has all its parts; an error changes nothing
and gives back every page. -/
def Clean (s : State) (file : Option (List UInt8)) (r : Outcome ℕ State) : Prop :=
  ∃ result s', r = .ok (result, s') ∧ s'.inode = s.inode ∧
    (∀ argc, result = .ok argc → ∃ content, file = some content ∧ FileInside content) ∧
    ∀ e, result = .error e →
      s'.process = s.process ∧ s'.allocator.pages = s.allocator.pages

theorem Built.fail {s₀ s : State} (h : Built s₀.allocator.pages img)
    (hs : s.process = s₀.process ∧ s.inode = s₀.inode) (file : Option (List UInt8)) (e : ExecError) :
    Clean s₀ file (s.fail img e) := by
  obtain ⟨hmapped, hle⟩ := h.table img.pageTable rfl
  obtain ⟨a, heq, hpages⟩ := PageTable.freePageTable_spec hmapped hle img.allocator
  unfold State.fail
  rw [heq]
  refine ⟨_, _, rfl, hs.2, nofun, fun _ _ => ⟨hs.1, ?_⟩⟩
  rw [← h.pages]
  exact hpages

theorem releasePut_inode {s : State} (h : s.inode.locked = false) :
    s.acquireInode.releasePut.inode = s.inode := by
  obtain ⟨process, allocator, memory, ⟨references, locked⟩, trampoline⟩ := s
  obtain rfl : locked = false := h
  rfl

theorem created_image (s : State) :
    ∃ r a, createPagetable s.trampoline s.process.trapFrame s.allocator = .ok (r, a) ∧
      (r = none → a.pages = s.allocator.pages) ∧
      ∀ t, r = some t → ImageOk s.allocator.pages ⟨t, a, s.memory, 0⟩ := by
  obtain ⟨r, a, heq, hnone, hsome⟩ :=
    createPagetable_spec s.trampoline s.process.trapFrame s.allocator
  refine ⟨r, a, heq, hnone, fun t ht => ?_⟩
  obtain ⟨hmapped, hpages⟩ := hsome t ht
  have hzero : pageCount 0 = 0 := rfl
  refine ⟨⟨fun u hu => ?_, ?_⟩, fun v hv => absurd hv (by simp only [hzero]; omega)⟩
  · obtain rfl := Option.some.inj hu
    exact ⟨hmapped, by rw [hzero]; exact Nat.zero_le _⟩
  · rw [ProcessMemory.Process.tablePages_some, hzero]
    simpa [PageTable.pagesFrom] using hpages

/-- Where every segment that adds a page has a flag, `exec` is clean exactly if
each program header that it comes to is in range. -/
theorem exec_clean_iff {s : State} {file : Option (List UInt8)} {argv : List (List UInt8)}
    (h : Ready s file argv) (hflagged : EachHeader s file argv FlaggedAt) (path : List UInt8) :
    Clean s file (exec s file path argv) ↔ EachHeader s file argv InRange := by
  have hself : s.process = s.process ∧ s.inode = s.inode := ⟨rfl, rfl⟩
  unfold exec
  by_cases hmany : maxArg < argv.length
  · rw [if_pos hmany]
    refine iff_of_true ⟨_, s, rfl, rfl, nofun, fun _ _ => ⟨rfl, rfl⟩⟩ ?_
    exact fun content elfHeader index img _ hr => absurd hr.1 (by omega)
  rw [if_neg hmany]
  obtain ⟨r, a, hcreate, hnone, hsome⟩ := created_image s
  rw [hcreate]
  cases r with
  | none =>
    refine iff_of_true ⟨_, _, rfl, rfl, nofun, fun _ _ => ⟨rfl, hnone rfl⟩⟩ ?_
    intro content elfHeader index img _ hr
    obtain ⟨-, -, -, t, a', heq, -⟩ := hr
    rw [hcreate] at heq
    simp at heq
  | some t =>
    have himage := hsome t rfl
    cases file with
    | none =>
      exact iff_of_true (himage.toBuilt.fail hself _ _)
        (fun content elfHeader index img hfile => absurd hfile nofun)
    | some content =>
      have hcontent := h.file content rfl
      have hreleased : s.acquireInode.releasePut.process = s.process ∧
          s.acquireInode.releasePut.inode = s.inode := ⟨rfl, releasePut_inode h.inode⟩
      simp only
      unfold loadFile
      cases helf : readElfHeader content with
      | error e =>
        refine iff_of_true (himage.toBuilt.fail hreleased _ _) ?_
        intro content' elfHeader index img hfile hr
        obtain rfl := Option.some.inj hfile
        have := hr.2.1
        rw [helf] at this
        exact absurd this nofun
      | ok elfHeader =>
        simp only
        have hreached : ∀ index img, Reached s content argv elfHeader index img ↔
            index < elfHeader.programHeaderEntryNum ∧
              Arrives content elfHeader 0 ⟨t, a, s.memory, 0⟩ index img := by
          intro index img
          constructor
          · intro ⟨_, _, hlt, t', a', heq, harrives⟩
            rw [hcreate] at heq
            obtain ⟨rfl, rfl⟩ := by simpa using heq
            exact ⟨hlt, harrives⟩
          · intro ⟨hlt, harrives⟩
            exact ⟨Nat.not_lt.mp hmany, helf, hlt, t, a, hcreate, harrives⟩
        have heach : ∀ P, EachHeader s (some content) argv P ↔
            ∀ j < elfHeader.programHeaderEntryNum, ∀ img',
              Arrives content elfHeader 0 ⟨t, a, s.memory, 0⟩ j img' → P content elfHeader j img' := by
          intro P
          constructor
          · intro hall j hj img' harrives
            exact hall content elfHeader j img' rfl ((hreached j img').mpr ⟨hj, harrives⟩)
          · intro hall content' elfHeader' index img hfile hr
            obtain rfl := Option.some.inj hfile
            have hsame := hr.2.1
            rw [helf] at hsame
            obtain rfl := Except.ok.inj hsame
            obtain ⟨hlt, harrives⟩ := (hreached index img).mp hr
            exact hall index hlt img harrives
        rw [heach]
        have hload := loadProgram_spec himage elfHeader 0
          (n := elfHeader.programHeaderEntryNum) hcontent (fun j hj img' harrives => by
            rw [Nat.zero_add]
            exact (heach _).mp hflagged j hj img' harrives)
        simp only [Nat.zero_add] at hload
        obtain ⟨hout, f, hf⟩ | ⟨hin, r, img, hr, hok, hinside⟩ := hload
        · refine iff_of_false ?_ hout
          rw [hf]
          rintro ⟨result, s', heq, -⟩
          exact absurd heq nofun
        · refine iff_of_true ?_ hin
          rw [hr]
          cases r with
          | error e => exact hok.toBuilt.fail hreleased _ _
          | ok u =>
            simp only
            obtain ⟨r, img', hstack, hbuilt⟩ := makeStack_spec hok h.arguments (Nat.not_lt.mp hmany)
            rw [hstack]
            cases r with
            | error e => exact hbuilt.fail hreleased _ _
            | ok stackPointer =>
              obtain ⟨hmapped, hle⟩ := h.table _ rfl
              obtain ⟨a', hfree, -⟩ := PageTable.freePageTable_spec hmapped hle img'.allocator
              have hfree' : s.acquireInode.releasePut.process.pageTable.freePageTable img'.allocator
                  s.acquireInode.releasePut.process.size = .ok a' := hfree
              simp only [State.commit, hfree']
              exact ⟨_, _, rfl, hreleased.2,
                fun _ _ => ⟨content, rfl, elfHeader, helf, hinside rfl⟩, nofun⟩

/-! ## Files -/

/-- The bytes of a number. -/
def numberBytes (width n : ℕ) : List UInt8 := (List.range width).map (LittleEndian.byteLE n)

/-- An ELF header with one program header. -/
def elfBytes (programHeaderOffset : ℕ) : List UInt8 :=
  numberBytes 4 correctMagic ++ List.replicate 28 0 ++ numberBytes 8 programHeaderOffset ++
    List.replicate 16 0 ++ numberBytes 2 1 ++ List.replicate 6 0

/-- A program header for memory at address zero, with four bytes behind it in the file. -/
def programHeaderBytes (type flags memorySize : ℕ) : List UInt8 :=
  numberBytes 4 type ++ numberBytes 4 flags ++ numberBytes 8 120 ++ List.replicate 16 0 ++
    numberBytes 8 4 ++ numberBytes 8 memorySize ++ List.replicate 8 0 ++ [19, 0, 0, 0]

def program : List UInt8 := elfBytes 64 ++ programHeaderBytes 1 5 pageSize

def farHeader : List UInt8 := elfBytes (2 ^ 32)
def otherType : List UInt8 := elfBytes 64 ++ programHeaderBytes 4 5 pageSize
/-- Without flags, and more than there is memory for. -/
def noFlags : List UInt8 := elfBytes 64 ++ programHeaderBytes 1 0 (40 * pageSize)

/-- A process without memory of its own. -/
def launch : Option State :=
  match createPagetable 0 1 ⟨List.range' 2 30, fun _ => false, 0⟩ with
  | .ok (some t, a) => some ⟨⟨t, 0, 1, ⟨0, 0, 0⟩, []⟩, a, fun _ => 0, ⟨1, false⟩, 0⟩
  | _ => none

theorem launch_ready {s : State} (h : launch = some s) {file : Option (List UInt8)}
    (hfile : ∀ content, file = some content → content.length ≤ FileSystem.maxFileSize)
    {argv : List (List UInt8)} (hargv : Fitting argv) : Ready s file argv := by
  obtain ⟨r, a, heq, -, hsome⟩ := createPagetable_spec 0 1 ⟨List.range' 2 30, fun _ => false, 0⟩
  unfold launch at h
  rw [heq] at h
  cases r with
  | none => exact absurd h nofun
  | some t =>
    obtain rfl := Option.some.inj h
    refine ⟨fun u hu => ?_, rfl, hfile, hargv⟩
    obtain rfl := Option.some.inj hu
    exact ⟨(hsome t rfl).1, (by decide : pageCount 0 ≤ trapframePage)⟩

/-- The one program header of the file is as `exec` needs it. -/
def GoodHeader (content : List UInt8) : Bool :=
  match readElfHeader content with
  | .error _ => false
  | .ok elfHeader => elfHeader.programHeaderEntryNum = 1 &&
    elfHeader.programHeaderOffset < 2 ^ 32 && (headerAt content elfHeader 0).all (fun ph =>
      ph.type = 1 && ph.flags.toPagePermissions ≠ .none && ph.offset < 2 ^ 32 && ph.fileSize < 2 ^ 32)

theorem goodHeader_each {content : List UInt8} (h : GoodHeader content = true) (s : State)
    (argv : List (List UInt8)) : EachHeader s (some content) argv FlaggedAt ∧
      EachHeader s (some content) argv InRange := by
  unfold GoodHeader at h
  split at h
  · exact absurd h Bool.false_ne_true
  next elfHeader helf =>
    simp only [Bool.and_eq_true, decide_eq_true_eq] at h
    obtain ⟨⟨hone, hoffset⟩, hheader⟩ := h
    have hzero : ∀ content' elfHeader' index img, some content = some content' →
        Reached s content' argv elfHeader' index img →
          content' = content ∧ elfHeader' = elfHeader ∧ index = 0 := by
      intro content' elfHeader' index img hfile ⟨_, hread, hlt, _⟩
      obtain rfl := Option.some.inj hfile
      rw [helf] at hread
      obtain rfl := Except.ok.inj hread
      exact ⟨rfl, rfl, by omega⟩
    have hfields : ∀ ph, headerAt content elfHeader 0 = some ph → ph.type = 1 ∧
        ph.flags.toPagePermissions ≠ .none ∧ ph.offset < 2 ^ 32 ∧ ph.fileSize < 2 ^ 32 := by
      intro ph hph
      rw [hph, Option.all_some] at hheader
      simpa [and_assoc] using hheader
    constructor
    · intro content' elfHeader' index img hfile hr
      obtain ⟨rfl, rfl, rfl⟩ := hzero content' elfHeader' index img hfile hr
      exact fun ph hph _ => .inl (hfields ph hph).2.1
    · intro content' elfHeader' index img hfile hr
      obtain ⟨rfl, rfl, rfl⟩ := hzero content' elfHeader' index img hfile hr
      refine ⟨by rw [Nat.zero_mul, Nat.add_zero]; exact hoffset, fun ph hph => ?_⟩
      obtain ⟨htype, -, hnarrow⟩ := hfields ph hph
      exact ⟨htype, fun _ _ _ _ _ => hnarrow⟩

theorem fitting_one : Fitting [[97]] := by
  intro arg harg
  obtain rfl := List.mem_singleton.mp harg
  decide

theorem exec_clean_iff_program : ∃ s, launch = some s ∧
    Clean s (some program) (exec s (some program) [97] [[97]]) := by
  have hlaunch : launch.isSome = true := by decide +kernel
  obtain ⟨s, hs⟩ := Option.isSome_iff_exists.mp hlaunch
  have hfile : ∀ content, some program = some content →
      content.length ≤ FileSystem.maxFileSize := by
    intro content hc
    obtain rfl := Option.some.inj hc
    decide +kernel
  have hgood : GoodHeader program = true := by decide +kernel
  obtain ⟨hflagged, hrange⟩ := goodHeader_each hgood s [[97]]
  exact ⟨s, hs, (exec_clean_iff (launch_ready hs hfile fitting_one) hflagged [97]).mpr hrange⟩

/-- `exec` ends in the fault. -/
def FaultsWith (f : Fault) (s : State) (content : List UInt8) : Bool :=
  match exec s (some content) [97] [[97]] with
  | .error f' => f' = f
  | .ok _ => false

/-- A program header offset that needs 33 bits, a program header that is not of
type `load`, and a segment without flags for which memory runs out. -/
theorem exec_faults : ∃ s, launch = some s ∧
    ∀ content ∈ [farHeader, otherType, noFlags], Ready s (some content) [[97]] ∧
      ¬ Clean s (some content) (exec s (some content) [97] [[97]]) := by
  have hlaunch : launch.any (fun s => FaultsWith .narrowing s farHeader &&
      FaultsWith .invalidEnum s otherType &&
      FaultsWith (.memory .uvmUnmapNotALeaf) s noFlags) = true := by decide +kernel
  obtain ⟨s, hs, hfaults⟩ := (Option.any_eq_true _ _).mp hlaunch
  simp only [Bool.and_eq_true] at hfaults
  obtain ⟨⟨hfar, hother⟩, hflags⟩ := hfaults
  have hnot : ∀ f content, FaultsWith f s content = true →
      ¬ Clean s (some content) (exec s (some content) [97] [[97]]) := by
    intro f content hf ⟨result, s', heq, _⟩
    rw [FaultsWith, heq] at hf
    exact absurd hf Bool.false_ne_true
  have hready : ∀ content : List UInt8, content.length ≤ FileSystem.maxFileSize →
      Ready s (some content) [[97]] := by
    intro content hc
    refine launch_ready hs (fun content' heq => ?_) fitting_one
    obtain rfl := Option.some.inj heq
    exact hc
  refine ⟨s, hs, fun content hmem => ?_⟩
  simp only [List.mem_cons, List.not_mem_nil, or_false] at hmem
  obtain rfl | rfl | rfl := hmem
  · exact ⟨hready _ (by decide +kernel), hnot _ _ hfar⟩
  · exact ⟨hready _ (by decide +kernel), hnot _ _ hother⟩
  · exact ⟨hready _ (by decide +kernel), hnot _ _ hflags⟩

end Zigmaos.ExecFile
