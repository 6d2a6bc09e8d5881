import Zigmaos.ExecStack
import Zigmaos.SizeChange

/-!
# Executing a file, with the bytes of its pages

`exec` over the page table, the free list and memory: each page of the new program
is zeroed when it is mapped, and the pages of the old one are overwritten when they
are freed.
-/
namespace Zigmaos.ExecFile.Contents
open Memory
open ProcessMemory (maxArg TableOk)
open ProcessMemory.Process (tablePages)

/-! ## exec -/

def frames (img : Image) : Frames := ⟨img.allocator, img.memory⟩

/-- The image with a table and the frames that a function has left. -/
def withTable (img : Image) (t : PageTable) (m : Frames) : Image :=
  { img with pageTable := t, allocator := m.allocator, memory := m.memory }

/-- What is done with a program header of type `load`. -/
def loadHeader (content : List UInt8) (programHeader : ProgramHeader) (img : Image) :
    Outcome Unit Image :=
  let newSize := programHeader.virtualAddress + programHeader.memorySize
  if programHeader.memorySize < programHeader.fileSize then .ok (.error .notEnoughMemory, img)
  else if 2 ^ 64 ≤ newSize then .ok (.error .memoryAddressOverflow, img)
  else if programHeader.virtualAddress % pageSize ≠ 0 then
    .ok (.error .memoryNotPageAligned, img)
  else
    match Frames.alloc img.pageTable (frames img) img.programSize newSize
        programHeader.flags.toPagePermissions with
    | .error p => .error (.memory p)
    | .ok (none, t, m) => .ok (.error .outOfMemory, withTable img t m)
    | .ok (some programSize, t, m) =>
      if 2 ^ 32 ≤ programHeader.offset ∨ 2 ^ 32 ≤ programHeader.fileSize then .error .narrowing
      else
        match loadSegment t programHeader.virtualAddress content programHeader.offset
            programHeader.fileSize m.memory with
        | .error f => .error f
        | .ok (r, memory) => .ok (r, ⟨t, m.allocator, memory, programSize⟩)

/-- The turn of the loop over the program headers at an index. -/
def loadIndex (content : List UInt8) (elfHeader : ElfHeader) (index : ℕ) (img : Image) :
    Outcome Unit Image :=
  let offset := elfHeader.programHeaderOffset + index * programHeaderSize
  if 2 ^ 64 ≤ offset then .error .overflow
  else if 2 ^ 32 ≤ offset then .error .narrowing
  else
    match readInode content offset programHeaderSize with
    | .error e => .ok (.error e, img)
    | .ok bytes =>
      if bytes.length ≠ programHeaderSize then .ok (.error .couldNotReadProgramHeader, img)
      else
        match ProgramType.ofInt (ProgramHeader.ofBytes bytes).type with
        | none => .error .invalidEnum
        | some type =>
          if type ≠ .load then .ok (.ok (), img)
          else loadHeader content (ProgramHeader.ofBytes bytes) img

/-- The loop from `index` on, with `n` program headers to go. -/
def loadProgram (content : List UInt8) (elfHeader : ElfHeader) (index : ℕ) (img : Image) :
    ℕ → Outcome Unit Image
  | 0 => .ok (.ok (), img)
  | n + 1 =>
    match loadIndex content elfHeader index img with
    | .error f => .error f
    | .ok (.error e, img) => .ok (.error e, img)
    | .ok (.ok (), img) => loadProgram content elfHeader (index + 1) img n

def loadFile (content : List UInt8) (img : Image) : Outcome ℕ Image :=
  match readElfHeader content with
  | .error e => .ok (.error e, img)
  | .ok elfHeader =>
    match loadProgram content elfHeader 0 img elfHeader.programHeaderEntryNum with
    | .error f => .error f
    | .ok (.error e, img) => .ok (.error e, img)
    | .ok (.ok (), img) => .ok (.ok elfHeader.entry, img)

/-- The stack with its guard page, and what is pushed on it. -/
def makeStack (argv : List (List UInt8)) (img : Image) : Outcome ℕ Image :=
  let alignedProgramSize := pageCount img.programSize * pageSize
  match Frames.alloc img.pageTable (frames img) alignedProgramSize
      (alignedProgramSize + 2 * pageSize) .data with
  | .error p => .error (.memory p)
  | .ok (none, t, m) => .ok (.error .outOfMemory, withTable img t m)
  | .ok (some programSize, t, m) =>
    match t.clearUser (programSize / pageSize - 2) with
    | .error p => .error (.memory p)
    | .ok t =>
      let stackBase := programSize - pageSize
      let img : Image := ⟨t, m.allocator, m.memory, programSize⟩
      match pushArguments t stackBase img.memory programSize [] argv with
      | .error f => .error f
      | .ok (.error e, memory) => .ok (.error e, { img with memory := memory })
      | .ok (.ok (stackPointer, userStack), memory) =>
        match pushPointers t stackBase memory stackPointer userStack with
        | .error f => .error f
        | .ok (r, memory) => .ok (r, { img with memory := memory })

/-- `errdefer freePageTable` -/
def fail (s : State) (img : Image) (e : ExecError) : Outcome ℕ State :=
  match Frames.freePageTable img.pageTable (frames img) img.programSize with
  | .error p => .error (.memory p)
  | .ok m => .ok (.error e, { s with allocator := m.allocator, memory := m.memory })

def commit (s : State) (img : Image) (path : List UInt8) (argc entry stackPointer : ℕ) :
    Outcome ℕ State :=
  match Frames.freePageTable s.process.pageTable (frames img) s.process.size with
  | .error p => .error (.memory p)
  | .ok m =>
    .ok (.ok argc, { s with
      process := { s.process with
        pageTable := img.pageTable
        size := img.programSize
        registers := ⟨stackPointer, entry, stackPointer⟩
        name := programName path }
      allocator := m.allocator
      memory := m.memory })

/-- `exec`, where `file` is the content of the inode that the path resolves to. -/
def exec (s : State) (file : Option (List UInt8)) (path : List UInt8) (argv : List (List UInt8)) :
    Outcome ℕ State :=
  if maxArg < argv.length then .ok (.error .tooManyArguments, s)
  else
    match Frames.createPagetable s.trampoline s.process.trapFrame ⟨s.allocator, s.memory⟩ with
    | .error p => .error (.memory p)
    | .ok (none, m) =>
      .ok (.error .couldNotCreatePagetable, { s with allocator := m.allocator, memory := m.memory })
    | .ok (some t, m) =>
      let img : Image := ⟨t, m.allocator, m.memory, 0⟩
      match file with
      | none => fail s img .couldNotResolvePath
      | some content =>
        let s := s.acquireInode
        match loadFile content img with
        | .error f => .error f
        | .ok (.error e, img) => fail s.releasePut img e
        | .ok (.ok entry, img) =>
          let s := s.releasePut
          match makeStack argv img with
          | .error f => .error f
          | .ok (.error e, img) => fail s img e
          | .ok (.ok stackPointer, img) => commit s img path argv.length entry stackPointer

/-! ## Without the bytes -/

theorem copyOut_result (t : PageTable) (memory memory' : PhysicalMemory) (destination : ℕ)
    (source : List UInt8) :
    (copyOut t memory destination source).1 = (copyOut t memory' destination source).1 := by
  fun_induction copyOut t memory destination source generalizing memory' with
  | case1 => rw [copyOut_nil]
  | case2 memory destination source hne e he => rw [copyOut, if_neg hne, he]
  | case3 memory destination source hne page hp physicalDestination count rest ih =>
    rw [copyOut, if_neg hne, hp]
    exact ih _

theorem copyOutTerminated_result (t : PageTable) (memory memory' : PhysicalMemory)
    (destination : ℕ) (source : List UInt8) :
    (copyOutTerminated t memory destination source).1 =
      (copyOutTerminated t memory' destination source).1 := by
  have hfirst := copyOut_result t memory memory' destination source
  unfold copyOutTerminated
  rcases h : copyOut t memory destination source with ⟨r, memory₁, accesses⟩
  rcases h' : copyOut t memory' destination source with ⟨r', memory₁', accesses'⟩
  rw [h, h'] at hfirst
  obtain rfl : r = r' := hfirst
  cases r with
  | error e => rfl
  | ok u => exact copyOut_result t memory₁ memory₁' _ _

/-- What a function returns, without the memory that it leaves. -/
def result {α : Type} (o : Outcome α PhysicalMemory) : Except Fault (Except ExecError α) :=
  o.map Prod.fst

/-- What two memories make of a function that does not look at them. -/
theorem result_cases {α : Type} {o o' : Outcome α PhysicalMemory} (h : result o = result o') :
    (∃ f, o = .error f ∧ o' = .error f) ∨
      ∃ r memory memory', o = .ok (r, memory) ∧ o' = .ok (r, memory') := by
  obtain f | ⟨r, memory⟩ := o <;> obtain f' | ⟨r', memory'⟩ := o'
  · cases h
    exact .inl ⟨f, rfl, rfl⟩
  · cases h
  · cases h
  · cases h
    exact .inr ⟨r, memory, memory', rfl, rfl⟩

theorem loadPages_result (t : PageTable) (virtualAddress : ℕ) (content : List UInt8)
    (offset size : ℕ) (memory memory' : PhysicalMemory) (k n : ℕ) :
    result (loadPages t virtualAddress content offset size memory k n) =
      result (loadPages t virtualAddress content offset size memory' k n) := by
  induction n generalizing memory memory' k with
  | zero => rfl
  | succ n ih =>
    unfold loadPages
    cases translateAddress t (virtualAddress + k) with
    | error e => rfl
    | ok physicalAddress =>
      simp only
      generalize (if size - k < pageSize then size - k else pageSize) = readCount
      by_cases hoffset : 2 ^ 32 ≤ offset + k
      · simp only [if_pos hoffset]
      · simp only [if_neg hoffset]
        cases readInode content (offset + k) readCount with
        | error e => rfl
        | ok bytes =>
          simp only
          by_cases hlength : bytes.length ≠ readCount
          · simp only [if_pos hlength]
            rfl
          · simp only [if_neg hlength]
            by_cases hnext : 2 ^ 32 ≤ k + pageSize
            · simp only [if_pos hnext]
            · simp only [if_neg hnext]
              exact ih _ _ _

theorem pushArguments_result (t : PageTable) (stackBase : ℕ) (memory memory' : PhysicalMemory)
    (stackPointer : ℕ) (userStack : List ℕ) (argv : List (List UInt8)) :
    result (pushArguments t stackBase memory stackPointer userStack argv) =
      result (pushArguments t stackBase memory' stackPointer userStack argv) := by
  induction argv generalizing memory memory' stackPointer userStack with
  | nil => rfl
  | cons arg argv ih =>
    unfold pushArguments
    split
    · rfl
    · simp only
      split
      · rfl
      · have hcopy := copyOutTerminated_result t memory memory'
          (alignDown16 (stackPointer - (arg.length + 1))) arg
        rcases h : copyOutTerminated t memory (alignDown16 (stackPointer - (arg.length + 1))) arg
          with ⟨r, memory₁⟩
        rcases h' : copyOutTerminated t memory' (alignDown16 (stackPointer - (arg.length + 1))) arg
          with ⟨r', memory₁'⟩
        rw [h, h'] at hcopy
        obtain rfl : r = r' := hcopy
        cases r with
        | error e => rfl
        | ok u => exact ih _ _ _ _

theorem pushPointers_result (t : PageTable) (stackBase : ℕ) (memory memory' : PhysicalMemory)
    (stackPointer : ℕ) (userStack : List ℕ) :
    result (pushPointers t stackBase memory stackPointer userStack) =
      result (pushPointers t stackBase memory' stackPointer userStack) := by
  unfold pushPointers
  simp only
  split
  · rfl
  · split
    · rfl
    · generalize hbytes : ((userStack ++ [0]).flatMap fun p =>
        (List.range 8).map (LittleEndian.byteLE p)) = bytes
      have hcopy := copyOut_result t memory memory'
        (alignDown16 (stackPointer - (userStack.length + 1) * 8)) bytes
      rcases h : copyOut t memory (alignDown16 (stackPointer - (userStack.length + 1) * 8)) bytes
        with ⟨r, memory₁, accesses⟩
      rcases h' : copyOut t memory' (alignDown16 (stackPointer - (userStack.length + 1) * 8)) bytes
        with ⟨r', memory₁', accesses'⟩
      rw [h, h'] at hcopy
      obtain rfl : r = r' := hcopy
      cases r <;> rfl

/-- An image that differs in its memory only. -/
def bare (img : Image) : Image := { img with memory := fun _ => 0 }

def bareState (s : State) : State := { s with memory := fun _ => 0 }

/-- An outcome, with what is left of the state it leaves behind. -/
def dropMemory {α σ τ : Type} (f : σ → τ) (o : Outcome α σ) : Outcome α τ :=
  o.map fun r => (r.1, f r.2)

theorem loadHeader_forget (content : List UInt8) (s : ProgramHeader) (img : Image)
    (memory : PhysicalMemory) : dropMemory bare (loadHeader content s img) =
      dropMemory bare (ExecFile.loadHeader content s { img with memory := memory }) := by
  unfold loadHeader ExecFile.loadHeader
  simp only
  split
  · rfl
  · split
    · rfl
    · split
      · rfl
      · rw [show img.allocator = (frames img).allocator from rfl, ← Frames.alloc_forget]
        rcases Frames.alloc img.pageTable (frames img) img.programSize
          (s.virtualAddress + s.memorySize) s.flags.toPagePermissions with p | ⟨_ | size, t, m⟩
        · rfl
        · rfl
        · simp only [Except.map, Frames.forget]
          split
          · rfl
          · have hpages := loadPages_result t s.virtualAddress content s.offset s.fileSize m.memory
              memory 0 (pageCount s.fileSize)
            unfold loadSegment
            obtain ⟨f, h, h'⟩ | ⟨r, memory₁, memory₁', h, h'⟩ := result_cases hpages
            · rw [h, h']
            · rw [h, h']
              rfl

theorem loadIndex_forget (content : List UInt8) (elfHeader : ElfHeader) (index : ℕ) (img : Image)
    (memory : PhysicalMemory) : dropMemory bare (loadIndex content elfHeader index img) =
      dropMemory bare
        (ExecFile.loadIndex content elfHeader index { img with memory := memory }) := by
  unfold loadIndex ExecFile.loadIndex
  simp only
  split
  · rfl
  · split
    · rfl
    · cases readInode content (elfHeader.programHeaderOffset + index * programHeaderSize)
        programHeaderSize with
      | error e => rfl
      | ok bytes =>
        simp only
        split
        · rfl
        · cases ProgramType.ofInt (ProgramHeader.ofBytes bytes).type with
          | none => rfl
          | some type =>
            simp only
            split
            · rfl
            · exact loadHeader_forget content _ img memory

/-- The two ways to leave the same image. -/
theorem dropMemory_cases {α : Type} {o o' : Outcome α Image}
    (h : dropMemory bare o = dropMemory bare o') :
    (∃ f, o = .error f ∧ o' = .error f) ∨
      ∃ r img memory, o = .ok (r, img) ∧ o' = .ok (r, { img with memory := memory }) := by
  obtain f | ⟨r, img⟩ := o <;> obtain f' | ⟨r', img'⟩ := o'
  · cases h
    exact .inl ⟨f, rfl, rfl⟩
  · cases h
  · cases h
  · obtain ⟨t, a, m, size⟩ := img
    obtain ⟨t', a', m', size'⟩ := img'
    cases h
    exact .inr ⟨r, _, m', rfl, rfl⟩

theorem loadProgram_forget (content : List UInt8) (elfHeader : ElfHeader) (index : ℕ) (img : Image)
    (memory : PhysicalMemory) (n : ℕ) :
    dropMemory bare (loadProgram content elfHeader index img n) = dropMemory bare
        (ExecFile.loadProgram content elfHeader index { img with memory := memory } n) := by
  induction n generalizing index img memory with
  | zero => rfl
  | succ n ih =>
    unfold loadProgram ExecFile.loadProgram
    obtain ⟨f, h, h'⟩ | ⟨r, img₁, memory₁, h, h'⟩ :=
      dropMemory_cases (loadIndex_forget content elfHeader index img memory)
    · rw [h, h']
    · rw [h, h']
      cases r with
      | error e => rfl
      | ok u => exact ih _ _ _

theorem loadFile_forget (content : List UInt8) (img : Image) (memory : PhysicalMemory) :
    dropMemory bare (loadFile content img) =
      dropMemory bare (ExecFile.loadFile content { img with memory := memory }) := by
  unfold loadFile ExecFile.loadFile
  cases readElfHeader content with
  | error e => rfl
  | ok elfHeader =>
    simp only
    obtain ⟨f, h, h'⟩ | ⟨r, img₁, memory₁, h, h'⟩ := dropMemory_cases
      (loadProgram_forget content elfHeader 0 img memory elfHeader.programHeaderEntryNum)
    · rw [h, h']
    · rw [h, h']
      cases r <;> rfl

theorem makeStack_forget (argv : List (List UInt8)) (img : Image) (memory : PhysicalMemory) :
    dropMemory bare (makeStack argv img) =
      dropMemory bare (ExecFile.makeStack argv { img with memory := memory }) := by
  unfold makeStack ExecFile.makeStack
  simp only
  rw [show img.allocator = (frames img).allocator from rfl, ← Frames.alloc_forget]
  rcases Frames.alloc img.pageTable (frames img) (pageCount img.programSize * pageSize)
    (pageCount img.programSize * pageSize + 2 * pageSize) .data with p | ⟨_ | size, t, m⟩
  · rfl
  · rfl
  · simp only [Except.map, Frames.forget]
    cases t.clearUser (size / pageSize - 2) with
    | error p => rfl
    | ok t' =>
      simp only
      obtain ⟨f, h, h'⟩ | ⟨r, memory₁, memory₁', h, h'⟩ := result_cases
        (pushArguments_result t' (size - pageSize) m.memory memory size [] argv)
      · rw [h, h']
      · rw [h, h']
        cases r with
        | error e => rfl
        | ok pushed =>
          obtain ⟨stackPointer, userStack⟩ := pushed
          simp only
          obtain ⟨f, h, h'⟩ | ⟨r, memory₂, memory₂', h, h'⟩ := result_cases
            (pushPointers_result t' (size - pageSize) memory₁ memory₁' stackPointer userStack)
          · rw [h, h']
          · rw [h, h']
            rfl

theorem fail_forget (s : State) (img : Image) (memory memory' : PhysicalMemory) (e : ExecError) :
    dropMemory bareState (fail s img e) =
      dropMemory bareState (State.fail { s with memory := memory }
        { img with memory := memory' } e) := by
  unfold fail State.fail
  simp only
  rw [show img.allocator = (frames img).allocator from rfl, ← Frames.freePageTable_forget]
  cases Frames.freePageTable img.pageTable (frames img) img.programSize <;> rfl

theorem commit_forget (s : State) (img : Image) (memory memory' : PhysicalMemory)
    (path : List UInt8) (argc entry stackPointer : ℕ) :
    dropMemory bareState (commit s img path argc entry stackPointer) =
      dropMemory bareState (State.commit { s with memory := memory }
        { img with memory := memory' } path argc entry stackPointer) := by
  unfold commit State.commit
  simp only
  rw [show img.allocator = (frames img).allocator from rfl, ← Frames.freePageTable_forget]
  cases Frames.freePageTable s.process.pageTable (frames img) s.process.size <;> rfl

/-- Without the bytes of the pages, `exec` is the `exec` that leaves them alone. -/
theorem exec_forget (s : State) (file : Option (List UInt8)) (path : List UInt8)
    (argv : List (List UInt8)) : dropMemory bareState (exec s file path argv) =
      dropMemory bareState (ExecFile.exec s file path argv) := by
  unfold exec ExecFile.exec
  split
  · rfl
  · have hcreate := Frames.createPagetable_forget s.trampoline s.process.trapFrame
      ⟨s.allocator, s.memory⟩
    rw [← hcreate]
    rcases Frames.createPagetable s.trampoline s.process.trapFrame ⟨s.allocator, s.memory⟩ with
      p | ⟨_ | t, m⟩
    · rfl
    · rfl
    · simp only [Except.map]
      cases file with
      | none => exact fail_forget s _ s.memory s.memory _
      | some content =>
        simp only
        obtain ⟨f, h, h'⟩ | ⟨r, img, memory, h, h'⟩ := dropMemory_cases
          (loadFile_forget content ⟨t, m.allocator, m.memory, 0⟩ s.memory)
        · rw [h, h']
        · rw [h, h']
          cases r with
          | error e => exact fail_forget _ img _ memory e
          | ok entry =>
            simp only
            obtain ⟨f, h, h'⟩ | ⟨r, img', memory', h, h'⟩ := dropMemory_cases
              (makeStack_forget argv img memory)
            · rw [h, h']
            · rw [h, h']
              cases r with
              | error e => exact fail_forget _ img' _ memory' e
              | ok stackPointer => exact commit_forget _ img' _ memory' path _ entry stackPointer

/-! ## What the file describes -/

def segmentEnd (s : ProgramHeader) : ℕ := s.virtualAddress + s.memorySize

/-- The end of the last segment. -/
def endOf (segments : List ProgramHeader) : ℕ := segments.getLast?.elim 0 segmentEnd

/-- The program header at an index, if it is of type `load`. -/
def segmentAt (content : List UInt8) (elfHeader : ElfHeader) (index : ℕ) : Option ProgramHeader :=
  (headerAt content elfHeader index).filter fun s => s.type = 1

def segmentsFrom (content : List UInt8) (elfHeader : ElfHeader) (index n : ℕ) :
    List ProgramHeader :=
  (List.range' index n).filterMap (segmentAt content elfHeader)

/-- The load segments of the file. -/
def segments (content : List UInt8) (elfHeader : ElfHeader) : List ProgramHeader :=
  segmentsFrom content elfHeader 0 elfHeader.programHeaderEntryNum

/-- The pages of one segment lie before those of the other. -/
def Before (r s : ProgramHeader) : Prop := pageCount (segmentEnd r) * pageSize ≤ s.virtualAddress

/-- Page ranges in ascending order, none of them shared, and each with a permission. -/
structure Regular (segments : List ProgramHeader) : Prop where
  ascending : segments.Pairwise Before
  permissions : ∀ s ∈ segments, s.flags.toPagePermissions ≠ .none

/-- From the end of what comes before it up to its own end, the pages have the
permissions of the segment. -/
def Permitted (t : PageTable) (segments : List ProgramHeader) : Prop :=
  ∀ before s after, segments = before ++ s :: after →
    ∀ v, pageCount (endOf before) ≤ v → v < pageCount (segmentEnd s) →
      ∃ page, t.leaf v = some ⟨s.flags.toPagePermissions, true, page⟩

/-- The bytes of each segment are those of the file, and all others are zero. -/
structure Filled (t : PageTable) (memory : PhysicalMemory) (content : List UInt8)
    (segments : List ProgramHeader) : Prop where
  bytes : ∀ s ∈ segments, ∀ k < s.fileSize, ∃ c, content[s.offset + k]? = some c ∧
    userByte t memory (s.virtualAddress + k) = some c
  zero : ∀ x < pageCount (endOf segments) * pageSize,
    (∀ s ∈ segments, x < s.virtualAddress ∨ s.virtualAddress + s.fileSize ≤ x) →
      userByte t memory x = some 0

/-! ## The image as it grows -/

/-- The pages of the user are those of the size, and the pages of the image and the free
ones are all that there are. -/
structure Base (total : Multiset Page) (img : Image) : Prop where
  table : TableOk (some img.pageTable) img.programSize
  pages : tablePages (some img.pageTable) img.programSize + img.allocator.pages = total
  user : ∀ v < maxVirtualPage, ∀ pte, img.pageTable.leaf v = some pte → pte.user = true →
    v < pageCount img.programSize

/-- The image after some of the segments. -/
structure Loaded (total : Multiset Page) (content : List UInt8) (segments : List ProgramHeader)
    (img : Image) : Prop extends Base total img where
  size : img.programSize = endOf segments
  fits : ∀ s ∈ segments, s.fileSize ≤ s.memorySize ∧ segmentEnd s ≤ img.programSize
  permitted : Permitted img.pageTable segments
  filled : Filled img.pageTable img.memory content segments

section Growth
variable {total : Multiset Page} {img : Image} {content : List UInt8}

theorem Base.page_not_free (h : Base total img) (hn : total.Nodup) {w : ℕ}
    (hw : w < pageCount img.programSize) {pte : PageTableEntry}
    (hpte : img.pageTable.leaf w = some pte) : pte.page ∉ img.allocator.free := by
  obtain ⟨S, hS⟩ : ∃ S, S = img.pageTable.pages := ⟨_, rfl⟩
  obtain ⟨n, hcount⟩ : ∃ n, n = pageCount img.programSize := ⟨_, rfl⟩
  rw [← h.pages, ProcessMemory.Process.tablePages_some, ← hS, ← hcount] at hn
  exact SizeChange.page_not_free hn (by omega) hpte

theorem Base.page_ne (h : Base total img) (hn : total.Nodup) {v w : ℕ} (hvw : v < w)
    (hw : w < pageCount img.programSize) {pte q : PageTableEntry}
    (hpte : img.pageTable.leaf v = some pte) (hq : img.pageTable.leaf w = some q) :
    q.page ≠ pte.page := by
  obtain ⟨S, hS⟩ : ∃ S, S = img.pageTable.pages := ⟨_, rfl⟩
  obtain ⟨n, hcount⟩ : ∃ n, n = pageCount img.programSize := ⟨_, rfl⟩
  rw [← h.pages, ProcessMemory.Process.tablePages_some, ← hS, ← hcount] at hn
  exact SizeChange.page_ne hn hvw (by omega) hpte hq

theorem Base.distinct (h : Base total img) (hn : total.Nodup) : DistinctFrames img.pageTable := by
  intro v hv w hw p q hp hq hpu hqu heq
  have hvsize := h.user v hv p hp hpu
  have hwsize := h.user w hw q hq hqu
  obtain hlt | heq' | hlt := Nat.lt_trichotomy v w
  · exact absurd heq.symm (h.page_ne hn hlt hwsize hp hq)
  · exact heq'
  · exact absurd heq (h.page_ne hn hlt hvsize hq hp)

theorem byteAddress_congr {t t' : PageTable} {x : ℕ}
    (h : t'.leaf (x / pageSize) = t.leaf (x / pageSize)) : byteAddress t' x = byteAddress t x := by
  ext a
  rw [byteAddress_eq_some, byteAddress_eq_some, h]

theorem page_of_offset (page x : ℕ) : (page * pageSize + pageOffset x) / pageSize = page := by
  simp only [pageOffset, pageSize]
  omega

theorem createPagetable_user {trampoline trapframe : Page} {a a' : Allocator} {t : PageTable}
    (h : createPagetable trampoline trapframe a = .ok (some t, a')) {v : ℕ}
    (hv : v < maxVirtualPage) {pte : PageTableEntry} (hpte : t.leaf v = some pte) :
    pte.user = false := by
  unfold createPagetable at h
  split at h
  · cases h
  next page a₁ _ =>
    have hfirst := PageTable.map_spec (.empty page) a₁
      (show trampolinePage < maxVirtualPage by decide) trampoline .code false
    split at h
    next t₁ a₂ hmap₁ =>
      rw [hmap₁] at hfirst
      obtain ⟨-, ⟨-, -, hleaf₁⟩ | ⟨hne, -⟩⟩ := hfirst
      · have hsecond := PageTable.map_spec t₁ a₂ (show trapframePage < maxVirtualPage by decide)
          trapframe .data false
        split at h
        next t₂ a₃ hmap₂ =>
          cases h
          rw [hmap₂] at hsecond
          obtain ⟨-, ⟨-, -, hleaf₂⟩ | ⟨hne, -⟩⟩ := hsecond
          · rw [hleaf₂ v hv] at hpte
            split at hpte
            · cases hpte
              rfl
            · rw [hleaf₁ v hv] at hpte
              split at hpte
              · cases hpte
                rfl
              · cases hpte
          · exact absurd rfl hne
        next =>
          split at h
          · cases h
          · split at h <;> cases h
      · exact absurd rfl hne
    next => split at h <;> cases h

theorem Loaded.created {trampoline trapframe : Page} {m m' : Frames} {t : PageTable}
    (h : Frames.createPagetable trampoline trapframe m = .ok (some t, m')) :
    Loaded m.allocator.pages content [] ⟨t, m'.allocator, m'.memory, 0⟩ := by
  have hforget : createPagetable trampoline trapframe m.allocator = .ok (some t, m'.allocator) := by
    rw [← Frames.createPagetable_forget, h]
    rfl
  obtain ⟨r, a, heq, -, hsome⟩ := createPagetable_spec trampoline trapframe m.allocator
  rw [hforget] at heq
  cases heq
  obtain ⟨hmapped, hpages⟩ := hsome t rfl
  have hzero : pageCount 0 = 0 := rfl
  refine ⟨⟨fun u hu => ?_, ?_, fun v hv pte hpte huser => ?_⟩, rfl, nofun,
    fun before s after hnil => ?_, ⟨nofun, fun x hx => absurd hx ?_⟩⟩
  · obtain rfl := Option.some.inj hu
    exact ⟨hmapped, by rw [hzero]; exact Nat.zero_le _⟩
  · rw [ProcessMemory.Process.tablePages_some, hzero]
    simpa [PageTable.pagesFrom] using hpages
  · rw [createPagetable_user hforget hv hpte] at huser
    cases huser
  · cases before <;> cases hnil
  · simp [endOf, hzero]

/-- What `alloc` adds is new and zero, and the rest stays. -/
structure Grows (permissions : PagePermissions) (img : Image) (newSize : ℕ) (t : PageTable)
    (memory : PhysicalMemory) : Prop where
  old : ∀ v < pageCount img.programSize, t.leaf v = img.pageTable.leaf v
  new : ∀ v, pageCount img.programSize ≤ v → v < pageCount newSize →
    ∃ page, t.leaf v = some ⟨permissions, true, page⟩
  kept : ∀ x < pageCount img.programSize * pageSize,
    userByte t memory x = userByte img.pageTable img.memory x
  zero : ∀ x, pageCount img.programSize * pageSize ≤ x → x < pageCount newSize * pageSize →
    userByte t memory x = some 0

theorem Base.grow (h : Base total img) (hn : total.Nodup) {permissions : PagePermissions}
    (hp : permissions ≠ .none) {newSize size : ℕ} {t : PageTable} {m : Frames}
    (hle : img.programSize ≤ newSize)
    (halloc : Frames.alloc img.pageTable (frames img) img.programSize newSize permissions =
      .ok (some size, t, m)) :
    size = newSize ∧ Base total ⟨t, m.allocator, m.memory, newSize⟩ ∧
      Grows permissions img newSize t m.memory := by
  have hmono := PageTable.pageCount_mono hle
  have hmax := PageTable.trapframePage_lt
  obtain ⟨hmapped, hold⟩ := h.table img.pageTable rfl
  obtain ⟨r, t₁, m₁, heq, hext, hsize, houtside, hnew⟩ := Frames.alloc_spec newSize hmapped
    (frames img) hp (ProcessMemory.Process.userPages_trapframe img.programSize) hold
  rw [halloc] at heq
  cases heq
  obtain rfl : size = newSize := by
    rw [hsize size rfl]
    exact Nat.max_eq_right hle
  obtain ⟨hfresh, hleaf, -⟩ := hnew hle rfl
  obtain ⟨r, t₂, a₂, halloc', htable, hpages⟩ :=
    ProcessMemory.Process.alloc_user size permissions h.table img.allocator hp
  have hforget := Frames.alloc_forget img.pageTable (frames img) img.programSize size permissions
  rw [halloc] at hforget
  rw [show img.allocator = (frames img).allocator from rfl, ← hforget] at halloc'
  cases halloc'
  have hle' : pageCount size ≤ trapframePage := (htable t rfl).2
  have hsame : ∀ v < pageCount img.programSize, t.leaf v = img.pageTable.leaf v :=
    fun v hv => hleaf v (by omega) (by omega)
  have hnewPage : ∀ v, pageCount img.programSize ≤ v → v < pageCount size → ∃ page,
      t.leaf v = some ⟨permissions, true, page⟩ ∧
        ∀ a, a / pageSize = page → m.memory a = 0 :=
    fun v hv hlt => hfresh v hv (by omega)
  have hbase : Base total ⟨t, m.allocator, m.memory, size⟩ := by
    refine ⟨htable, hpages.trans h.pages, fun v hv pte hpte huser => ?_⟩
    by_cases hin : pageCount img.programSize ≤ v ∧ v < pageCount size
    · exact hin.2
    · rw [hleaf v hv (by omega)] at hpte
      exact (h.user v hv pte hpte huser).trans_le hmono
  refine ⟨rfl, hbase, hsame, fun v hv hlt => ?_, fun x hx => ?_, fun x hx hlt => ?_⟩
  · obtain ⟨page, hpage, -⟩ := hnewPage v hv hlt
    exact ⟨page, hpage⟩
  · have hxpage : x / pageSize < pageCount img.programSize := by
      rwa [Nat.div_lt_iff_lt_mul (by decide)]
    unfold userByte
    rw [byteAddress_congr (hsame _ hxpage)]
    cases ha : byteAddress img.pageTable x with
    | none => rfl
    | some a =>
      obtain ⟨-, pte, hpte, -, rfl⟩ := byteAddress_eq_some.mp ha
      rw [Option.map_some, Option.map_some, houtside]
      · rfl
      · rw [page_of_offset]
        exact h.page_not_free hn hxpage hpte
  · have hxpage : pageCount img.programSize ≤ x / pageSize ∧ x / pageSize < pageCount size := by
      rw [Nat.le_div_iff_mul_le (by decide), Nat.div_lt_iff_lt_mul (by decide)]
      exact ⟨hx, hlt⟩
    obtain ⟨page, hpage, hzero⟩ := hnewPage _ hxpage.1 hxpage.2
    have hbyte : byteAddress t x = some (page * pageSize + pageOffset x) := by
      refine byteAddress_eq_some.mpr ⟨?_, _, hpage, rfl, rfl⟩
      rw [maxVirtualAddress, ← Nat.div_lt_iff_lt_mul (by decide)]
      omega
    rw [userByte, hbyte, Option.map_some, hzero _ (page_of_offset page x)]

/-! ## Loading a segment -/

/-- A write to the frame of a page is a copy to the page. -/
theorem store_eq_copyOut {t : PageTable} (memory : PhysicalMemory) {va physicalAddress : ℕ}
    {bytes : List UInt8} (hp : translateAddress t va = .ok physicalAddress)
    (haligned : va % pageSize = 0) (hne : bytes ≠ []) (hlen : bytes.length ≤ pageSize) :
    (copyOut t memory va bytes).1 = .ok () ∧
      (copyOut t memory va bytes).2.1 = memory.store physicalAddress bytes := by
  have hdown : pageAlignDown va = va := Nat.div_mul_cancel (Nat.dvd_of_mod_eq_zero haligned)
  have hoffset : pageOffset va = 0 := haligned
  have hcount : byteCount va bytes.length = bytes.length := by
    unfold byteCount
    rw [hoffset]
    omega
  rw [copyOut, if_neg hne, hdown, hp]
  simp only [hcount, hoffset, List.take_length, List.drop_length, copyOut_nil, add_zero, and_self]

/-- What the file has for the first `k` bytes of a segment. -/
def part (content : List UInt8) (offset k : ℕ) : List UInt8 := (content.drop offset).take k

theorem part_add (content : List UInt8) (offset k n : ℕ) :
    part content offset (k + n) = part content offset k ++ part content (offset + k) n := by
  unfold part
  rw [List.take_add, List.drop_drop]

theorem readInode_part {bytes : List UInt8} {offset count : ℕ}
    (h : readInode content offset count = .ok bytes) (hlen : bytes.length = count)
    (hpos : 0 < count) : bytes = part content offset count := by
  unfold readInode at h
  split at h
  · cases h
    rw [List.length_nil] at hlen
    omega
  · split at h
    · cases h
    · cases h
      rfl

/-- The loop has loaded `k` bytes, or all of them. -/
theorem loadPages_holds {t : PageTable} (h : DistinctFrames t) {virtualAddress offset size : ℕ}
    (haligned : virtualAddress % pageSize = 0) {memory memory' : PhysicalMemory} {k n : ℕ}
    (hk : k % pageSize = 0) (hn : n = pageCount (size - k))
    (hlen : (part content offset (min k size)).length = min k size)
    (hholds : Holds t memory virtualAddress (part content offset (min k size)))
    (hrun : loadPages t virtualAddress content offset size memory k n = .ok (.ok (), memory')) :
    (part content offset size).length = size ∧
      Holds t memory' virtualAddress (part content offset size) ∧
      ∀ x, x < virtualAddress ∨ virtualAddress + size ≤ x →
        userByte t memory' x = userByte t memory x := by
  have hpage : pageSize = 4096 := rfl
  induction n generalizing memory k with
  | zero =>
    cases hrun
    have hdone : min k size = size := by
      rw [pageCount, hpage] at hn
      omega
    rw [hdone] at hlen hholds
    exact ⟨hlen, hholds, fun _ _ => rfl⟩
  | succ n ih =>
    have hlt : k < size := by
      rw [pageCount, hpage] at hn
      omega
    have hmin : min k size = k := by omega
    rw [hmin] at hlen hholds
    unfold loadPages at hrun
    split at hrun
    · cases hrun
    next physicalAddress htranslate =>
      simp only at hrun
      generalize hcount : (if size - k < pageSize then size - k else pageSize) = readCount at hrun
      have hnext : min (k + pageSize) size = k + readCount := by
        rw [← hcount]
        split <;> omega
      have hpos : 0 < readCount := by
        rw [← hcount]
        split <;> omega
      have hle : readCount ≤ pageSize := by
        rw [← hcount]
        split <;> omega
      split at hrun
      · cases hrun
      · split at hrun
        · cases hrun
        next bytes hread =>
          split at hrun
          · cases hrun
          next hlength =>
            split at hrun
            · cases hrun
            have hlength : bytes.length = readCount := not_not.mp hlength
            have hbytes := readInode_part hread hlength hpos
            have hne : bytes ≠ [] := List.ne_nil_of_length_pos (by omega)
            have haligned' : (virtualAddress + k) % pageSize = 0 := by
              rw [hpage] at haligned hk ⊢
              omega
            obtain ⟨hok, hstore⟩ := store_eq_copyOut memory htranslate haligned' hne (by omega)
            rw [← hstore] at hrun
            have hcopied := hholds.copyOut h bytes
            rw [hlen] at hcopied
            have hparts : part content offset (min (k + pageSize) size) =
                part content offset k ++ bytes := by
              rw [hnext, part_add, ← hbytes]
            obtain ⟨hall, hfilled, houtside⟩ := ih (by rw [hpage] at hk ⊢; omega)
              (by rw [pageCount, hpage] at hn ⊢; omega)
              (by rw [hparts, List.length_append, hlen, hlength, hnext])
              (by rw [hparts]; exact hcopied hok) hrun
            refine ⟨hall, hfilled, fun x hx => ?_⟩
            rw [houtside x hx]
            exact copyOut_outside h _ _ (by omega)

theorem endOf_concat (before : List ProgramHeader) (s : ProgramHeader) :
    endOf (before ++ [s]) = segmentEnd s := by
  simp [endOf]

theorem le_pageCount_mul (size : ℕ) : size ≤ pageCount size * pageSize := by
  simp only [pageCount, pageSize]
  omega

/-- What comes before the segment ends before it. -/
theorem Loaded.end_le {before : List ProgramHeader} (h : Loaded total content before img)
    {s : ProgramHeader} (hbefore : ∀ r ∈ before, Before r s) :
    pageCount img.programSize * pageSize ≤ s.virtualAddress := by
  rw [h.size, endOf]
  cases hlast : before.getLast? with
  | none => exact Nat.zero_le _
  | some r => exact hbefore r (List.mem_of_getLast? hlast)

theorem Permitted.concat {t t' : PageTable} {before : List ProgramHeader} {s : ProgramHeader}
    (h : Permitted t before) {size : ℕ} (hfits : ∀ r ∈ before, segmentEnd r ≤ size)
    (hold : ∀ v < pageCount size, t'.leaf v = t.leaf v)
    (hnew : ∀ v, pageCount (endOf before) ≤ v → v < pageCount (segmentEnd s) →
      ∃ page, t'.leaf v = some ⟨s.flags.toPagePermissions, true, page⟩) :
    Permitted t' (before ++ [s]) := by
  intro first r after heq v hv hlt
  obtain rfl | ⟨rest, q, rfl⟩ := List.eq_nil_or_concat after
  · obtain ⟨rfl, hlast⟩ := List.append_inj' heq rfl
    obtain rfl := List.singleton_inj.mp hlast
    exact hnew v hv hlt
  · rw [List.concat_eq_append, ← List.cons_append, ← List.append_assoc] at heq
    obtain ⟨rfl, -⟩ := List.append_inj' heq rfl
    have hmono := PageTable.pageCount_mono (hfits r (by simp))
    rw [hold v (by omega)]
    exact h first r rest rfl v hv hlt

theorem Loaded.header {before : List ProgramHeader} (h : Loaded total content before img)
    (hn : total.Nodup) {s : ProgramHeader} (hbefore : ∀ r ∈ before, Before r s)
    (hp : s.flags.toPagePermissions ≠ .none) {img' : Image}
    (hrun : loadHeader content s img = .ok (.ok (), img')) :
    Loaded total content (before ++ [s]) img' := by
  have hend := h.end_le hbefore
  have hrounded := le_pageCount_mul img.programSize
  unfold loadHeader at hrun
  simp only at hrun
  split at hrun
  · cases hrun
  next hsizes =>
    split at hrun
    · cases hrun
    · split at hrun
      · cases hrun
      next haligned =>
        split at hrun
        · cases hrun
        · cases hrun
        next size t m halloc =>
          split at hrun
          · cases hrun
          · split at hrun
            · cases hrun
            next r memory hload =>
              cases hrun
              obtain ⟨rfl, hbase, hgrows⟩ := h.toBase.grow hn hp (by omega) halloc
              obtain ⟨hpart, hholds, houtside⟩ := loadPages_holds (k := 0) (hbase.distinct hn)
                (not_not.mp haligned) rfl rfl (by simp [part]) (Holds.nil _ _ _) hload
              obtain ⟨hold, hnew, hkept, hzero⟩ := hgrows
              have hfits : ∀ r ∈ before ++ [s], r.fileSize ≤ r.memorySize ∧
                  segmentEnd r ≤ segmentEnd s := by
                intro r hr
                obtain hr | hr := List.mem_append.mp hr
                · have hfit := h.fits r hr
                  unfold segmentEnd at *
                  omega
                · obtain rfl := List.mem_singleton.mp hr
                  exact ⟨Nat.not_lt.mp hsizes, le_rfl⟩
              have hbytes : ∀ r ∈ before, ∀ k < r.fileSize,
                  r.virtualAddress + k < pageCount img.programSize * pageSize := by
                intro r hr k hk
                have hfit := h.fits r hr
                unfold segmentEnd at hfit
                omega
              refine ⟨⟨hbase.table, hbase.pages, hbase.user⟩, (endOf_concat before s).symm, hfits,
                h.permitted.concat (fun r hr => (h.fits r hr).2) hold fun v hv hlt => ?_,
                ⟨fun r hr k hk => ?_, fun x hx hout => ?_⟩⟩
              · exact hnew v (by rw [h.size]; exact hv) hlt
              · obtain hr | hr := List.mem_append.mp hr
                · have hin := hbytes r hr k hk
                  obtain ⟨c, hc, hbyte⟩ := h.filled.bytes r hr k hk
                  refine ⟨c, hc, ?_⟩
                  rw [houtside _ (by omega), hkept _ hin, hbyte]
                · obtain rfl := List.mem_singleton.mp hr
                  have hlt : k < (part content r.offset r.fileSize).length := by omega
                  refine ⟨(part content r.offset r.fileSize)[k], ?_, hholds k hlt⟩
                  rw [← List.getElem?_eq_getElem hlt, part, List.getElem?_take_of_lt hk,
                    List.getElem?_drop]
              · rw [endOf_concat] at hx
                rw [houtside x (hout s (by simp))]
                by_cases hin : x < pageCount img.programSize * pageSize
                · rw [hkept x hin]
                  exact h.filled.zero x (by rw [← h.size]; exact hin)
                    fun r hr => hout r (List.mem_append_left _ hr)
                · exact hzero x (Nat.not_lt.mp hin) hx

/-! ## The loop over the program headers -/

theorem segmentsFrom_succ (content : List UInt8) (elfHeader : ElfHeader) (index n : ℕ) :
    segmentsFrom content elfHeader index (n + 1) =
      (segmentAt content elfHeader index).toList ++
        segmentsFrom content elfHeader (index + 1) n := by
  unfold segmentsFrom
  rw [List.range'_succ, List.filterMap_cons]
  cases segmentAt content elfHeader index <;> rfl

/-- A turn that succeeds has come to a segment. -/
theorem loadIndex_ok {elfHeader : ElfHeader} {index : ℕ} {img' : Image}
    (hrun : loadIndex content elfHeader index img = .ok (.ok (), img')) :
    ∃ s, segmentAt content elfHeader index = some s ∧
      loadHeader content s img = .ok (.ok (), img') := by
  unfold loadIndex at hrun
  simp only at hrun
  split at hrun
  · cases hrun
  · split at hrun
    · cases hrun
    · split at hrun
      · cases hrun
      next bytes hread =>
        split at hrun
        · cases hrun
        next hlength =>
          split at hrun
          · cases hrun
          next type htype =>
            have hload : (ProgramHeader.ofBytes bytes).type = 1 := by
              unfold ProgramType.ofInt at htype
              split at htype
              next hone => exact hone
              · cases htype
            cases type
            rw [if_neg (not_not.mpr rfl)] at hrun
            refine ⟨.ofBytes bytes, ?_, hrun⟩
            rw [segmentAt, headerAt, hread]
            simp only [if_pos (not_not.mp hlength)]
            exact Option.filter_eq_some_iff.mpr ⟨rfl, by simpa using hload⟩

theorem Loaded.program {before : List ProgramHeader} {elfHeader : ElfHeader} {index n : ℕ}
    (h : Loaded total content before img) (hn : total.Nodup)
    (hregular : Regular (before ++ segmentsFrom content elfHeader index n)) {img' : Image}
    (hrun : loadProgram content elfHeader index img n = .ok (.ok (), img')) :
    Loaded total content (before ++ segmentsFrom content elfHeader index n) img' := by
  induction n generalizing index before img with
  | zero =>
    cases hrun
    rw [segmentsFrom, List.range'_zero, List.filterMap_nil, List.append_nil]
    exact h
  | succ n ih =>
    unfold loadProgram at hrun
    split at hrun
    · cases hrun
    · cases hrun
    next img₁ hindex =>
      obtain ⟨s, hs, hheader⟩ := loadIndex_ok hindex
      rw [segmentsFrom_succ, hs, Option.toList_some, ← List.append_assoc] at hregular ⊢
      have hascending := (List.pairwise_append.mp (List.pairwise_append.mp hregular.ascending).1)
      have hstep := h.header hn (fun r hr => hascending.2.2 r hr s (List.mem_singleton_self s))
        (hregular.permissions s (by simp)) hheader
      exact ih hstep hregular hrun

/-! ## The stack -/

/-- Nothing that the file describes lies above the last segment. -/
theorem Loaded.inside {segments : List ProgramHeader} (h : Loaded total content segments img) :
    ∀ s ∈ segments, s.virtualAddress + s.fileSize ≤ segmentEnd s ∧
      segmentEnd s ≤ endOf segments := by
  intro s hs
  obtain ⟨hsizes, hend⟩ := h.fits s hs
  rw [← h.size]
  unfold segmentEnd at *
  omega

theorem Permitted.congr {t t' : PageTable} {segments : List ProgramHeader}
    (h : Permitted t segments) (hinside : ∀ s ∈ segments, segmentEnd s ≤ endOf segments)
    (hsame : ∀ v < pageCount (endOf segments), t'.leaf v = t.leaf v) : Permitted t' segments := by
  intro before s after heq v hv hlt
  have hmono := PageTable.pageCount_mono (hinside s (by simp [heq]))
  rw [hsame v (by omega)]
  exact h before s after heq v hv hlt

theorem Filled.congr {t t' : PageTable} {memory memory' : PhysicalMemory}
    {segments : List ProgramHeader} (h : Filled t memory content segments)
    (hinside : ∀ s ∈ segments, s.virtualAddress + s.fileSize ≤ endOf segments)
    (hsame : ∀ x < pageCount (endOf segments) * pageSize,
      userByte t' memory' x = userByte t memory x) : Filled t' memory' content segments where
  bytes s hs k hk := by
    have hrounded := le_pageCount_mul (endOf segments)
    have hin := hinside s hs
    rw [hsame _ (by omega)]
    exact h.bytes s hs k hk
  zero x hx hout := by
    rw [hsame x hx]
    exact h.zero x hx hout

section Stack
variable {t : PageTable} {memory memory' : PhysicalMemory} {stackBase stackPointer : ℕ}
  {userStack : List ℕ} {argv : List (List UInt8)}

theorem copyOut_below (h : DistinctFrames t) {destination x : ℕ} {source : List UInt8}
    {r : Except CopyError Unit} {accesses : List Access} (hx : x < destination)
    (hrun : copyOut t memory destination source = (r, memory', accesses)) :
    userByte t memory' x = userByte t memory x := by
  have houtside : userByte t (copyOut t memory destination source).2.1 x = userByte t memory x :=
    copyOut_outside h destination source (.inl hx)
  rwa [hrun] at houtside

theorem copyOutTerminated_below (h : DistinctFrames t) {destination x : ℕ} {source : List UInt8}
    {r : Except CopyError Unit} (hx : x < destination)
    (hrun : copyOutTerminated t memory destination source = (r, memory')) :
    userByte t memory' x = userByte t memory x := by
  unfold copyOutTerminated at hrun
  split at hrun
  next heq =>
    cases hrun
    exact copyOut_below h hx heq
  next memory₁ _ hfirst =>
    split at hrun
    next hsecond =>
      cases hrun
      exact (copyOut_below h (by omega) hsecond).trans (copyOut_below h hx hfirst)

/-- The arguments are pushed on the stack page. -/
theorem pushArguments_below (h : DistinctFrames t) {r : Except ExecError (ℕ × List ℕ)}
    (hrun : pushArguments t stackBase memory stackPointer userStack argv = .ok (r, memory')) :
    ∀ x < stackBase, userByte t memory' x = userByte t memory x := by
  intro x hx
  induction argv generalizing memory stackPointer userStack with
  | nil =>
    cases hrun
    rfl
  | cons arg argv ih =>
    unfold pushArguments at hrun
    split at hrun
    · cases hrun
    · simp only at hrun
      split at hrun
      · cases hrun
        rfl
      · split at hrun
        next heq =>
          cases hrun
          exact copyOutTerminated_below h (by omega) heq
        next heq => exact (ih hrun).trans (copyOutTerminated_below h (by omega) heq)

theorem pushPointers_below (h : DistinctFrames t) {r : Except ExecError ℕ}
    (hrun : pushPointers t stackBase memory stackPointer userStack = .ok (r, memory')) :
    ∀ x < stackBase, userByte t memory' x = userByte t memory x := by
  intro x hx
  unfold pushPointers at hrun
  simp only at hrun
  split at hrun
  · cases hrun
  · split at hrun
    · cases hrun
      rfl
    · split at hrun
      next heq =>
        cases hrun
        exact copyOut_below h (by omega) heq
      next heq =>
        cases hrun
        exact copyOut_below h (by omega) heq

theorem clearUser_guard {t' : PageTable} {v : ℕ} (h : t.clearUser v = .ok t')
    (hv : v < maxVirtualPage) {pte : PageTableEntry} (hpte : t.leaf v = some pte) :
    t'.leaf v = some { pte with user := false } := by
  have hsome : (t.leaf v).isSome := by rw [hpte]; rfl
  unfold PageTable.clearUser at h
  rw [if_neg (Nat.not_le.mpr hv), PageTable.lookup_isSome_of_leaf hsome, hpte] at h
  cases h
  rw [PageTable.leaf_setEntry t _ hv hv (by rw [PageTable.lookup_isSome_of_leaf hsome]; rfl),
    if_pos rfl]
  rfl

end Stack

/-- The image with its guard page and its stack page. -/
structure Stacked (total : Multiset Page) (content : List UInt8) (segments : List ProgramHeader)
    (img : Image) : Prop extends Base total img where
  size : img.programSize = (pageCount (endOf segments) + 2) * pageSize
  permitted : Permitted img.pageTable segments
  filled : Filled img.pageTable img.memory content segments
  guard : ∃ pte, img.pageTable.leaf (pageCount (endOf segments)) = some pte ∧ pte.user = false
  stack : ∃ page, img.pageTable.leaf (pageCount (endOf segments) + 1) = some ⟨.data, true, page⟩

theorem Stacked.memory {segments : List ProgramHeader} (h : Stacked total content segments img)
    (hinside : ∀ s ∈ segments, s.virtualAddress + s.fileSize ≤ endOf segments)
    (memory : PhysicalMemory) (hsame : ∀ x < pageCount (endOf segments) * pageSize,
      userByte img.pageTable memory x = userByte img.pageTable img.memory x) :
    Stacked total content segments { img with memory := memory } :=
  ⟨⟨h.table, h.pages, h.user⟩, h.size, h.permitted, h.filled.congr hinside hsame, h.guard, h.stack⟩

/-- The two pages above the program, before anything is pushed. -/
theorem Loaded.allocStack {segments : List ProgramHeader} (h : Loaded total content segments img)
    (hn : total.Nodup) {size : ℕ} {t t' : PageTable} {m : Frames}
    (halloc : Frames.alloc img.pageTable (frames img) (pageCount img.programSize * pageSize)
      (pageCount img.programSize * pageSize + 2 * pageSize) .data = .ok (some size, t, m))
    (hclear : t.clearUser (size / pageSize - 2) = .ok t') :
    Stacked total content segments ⟨t', m.allocator, m.memory, size⟩ := by
  have hpage : pageSize = 4096 := rfl
  have hmax := PageTable.trapframePage_lt
  obtain ⟨hmapped, hle⟩ := h.table img.pageTable rfl
  have hrounded := PageTable.pageCount_mul (pageCount img.programSize)
  have haligned : Base total { img with programSize := pageCount img.programSize * pageSize } := by
    refine ⟨fun u hu => ?_, ?_, ?_⟩
    · obtain rfl := Option.some.inj hu
      refine ⟨hmapped.congr fun w _ => ?_, by rw [hrounded]; exact hle⟩
      unfold PageTable.userPages
      rw [hrounded]
    · rw [← h.pages, ProcessMemory.Process.tablePages_some, ProcessMemory.Process.tablePages_some]
      simp only [hrounded]
    · simp only [hrounded]
      exact h.user
  obtain ⟨rfl, hbase, hold, hnew, hkept, hzero⟩ :=
    haligned.grow hn (by decide) (Nat.le_add_right _ _) halloc
  generalize htop : pageCount img.programSize = top at *
  have hpages : pageCount (top * pageSize + 2 * pageSize) = top + 2 := by
    rw [← Nat.add_mul, PageTable.pageCount_mul]
  have hplace : (top * pageSize + 2 * pageSize) / pageSize - 2 = top := by
    rw [hpage]
    omega
  have hend : pageCount (endOf segments) = top := by rw [← h.size, htop]
  simp only [hrounded, hpages] at hold hnew hkept hzero
  rw [hplace] at hclear
  obtain ⟨hmapped', hle'⟩ := hbase.table t rfl
  simp only [hpages] at hle'
  obtain ⟨t₁, hclear', hmapped₁, hnodes, hat⟩ := PageTable.clearUser_spec hmapped' (v := top)
    (by omega) (.inl (by rw [hpages]; omega))
  rw [hclear] at hclear'
  cases hclear'
  have hleaf : ∀ v < maxVirtualPage, v ≠ top → t'.leaf v = t.leaf v :=
    fun v hv hne => clearUser_leaf hclear hv hne
  obtain ⟨page, hguard⟩ := hnew top le_rfl (by omega)
  have hguard' := clearUser_guard hclear (by omega) hguard
  obtain ⟨stackPage, hstack⟩ := hnew (top + 1) (by omega) (by omega)
  refine ⟨⟨fun u hu => ?_, ?_, fun v hv pte hpte huser => ?_⟩, by rw [hend, ← Nat.add_mul], ?_, ?_,
    ⟨_, by rw [hend]; exact hguard', rfl⟩,
    ⟨stackPage, by rw [hend, ← hstack]; exact hleaf _ (by omega) (by omega)⟩⟩
  · obtain rfl := Option.some.inj hu
    exact ⟨hmapped₁, by rw [hpages]; exact hle'⟩
  · rw [← hbase.pages, ProcessMemory.Process.tablePages_some,
      ProcessMemory.Process.tablePages_some, hnodes,
      PageTable.pagesFrom_congr fun w _ hw => hat w (by simp only [hpages] at hw; omega)]
  · by_cases hv' : v = top
    · rw [hpages]
      omega
    · rw [hleaf v hv hv'] at hpte
      exact hbase.user v hv pte hpte huser
  · refine h.permitted.congr (fun s hs => (h.inside s hs).2) fun v hv => ?_
    rw [hend] at hv
    rw [hleaf v (by omega) (by omega), hold v hv]
  · refine h.filled.congr (fun s hs => (h.inside s hs).1.trans (h.inside s hs).2) fun x hx => ?_
    rw [hend] at hx
    have hxpage : x / pageSize < top := by rwa [Nat.div_lt_iff_lt_mul (by decide)]
    rw [← hkept x hx, userByte, userByte,
      byteAddress_congr (hleaf _ (by omega) (by omega))]

theorem makeStack_ok {segments : List ProgramHeader} (h : Loaded total content segments img)
    (hn : total.Nodup) {argv : List (List UInt8)} {stackPointer : ℕ} {img' : Image}
    (hrun : makeStack argv img = .ok (.ok stackPointer, img')) :
    Stacked total content segments img' := by
  have hinside : ∀ s ∈ segments, s.virtualAddress + s.fileSize ≤ endOf segments :=
    fun s hs => (h.inside s hs).1.trans (h.inside s hs).2
  unfold makeStack at hrun
  simp only at hrun
  split at hrun
  · cases hrun
  · cases hrun
  next size t m halloc =>
    split at hrun
    · cases hrun
    next t' hclear =>
      have hstacked := h.allocStack hn halloc hclear
      have hdistinct : DistinctFrames t' := hstacked.toBase.distinct hn
      have hbelow : ∀ x < pageCount (endOf segments) * pageSize, x < size - pageSize := by
        intro x hx
        have hsize : size = (pageCount (endOf segments) + 2) * pageSize := hstacked.size
        rw [hsize, Nat.add_mul]
        omega
      split at hrun
      · cases hrun
      · cases hrun
      next stackPointer₁ userStack memory₁ hargs =>
        split at hrun
        · cases hrun
        next r memory₂ hpointers =>
          cases hrun
          refine hstacked.memory hinside memory₂ fun x hx => ?_
          exact (pushPointers_below hdistinct hpointers x (hbelow x hx)).trans
            (pushArguments_below hdistinct hargs x (hbelow x hx))

theorem loadFile_ok {entry : ℕ} {img' : Image}
    (hrun : loadFile content img = .ok (.ok entry, img')) :
    ∃ elfHeader, readElfHeader content = .ok elfHeader ∧ entry = elfHeader.entry ∧
      loadProgram content elfHeader 0 img elfHeader.programHeaderEntryNum =
        .ok (.ok (), img') := by
  unfold loadFile at hrun
  split at hrun
  · cases hrun
  next elfHeader hread =>
    split at hrun
    · cases hrun
    · cases hrun
    next img₁ hload =>
      cases hrun
      exact ⟨elfHeader, hread, rfl, hload⟩

/-! ## The call -/

/-- The process has been given the image, and the pages of the old one. -/
structure Executes (content : List UInt8) (elfHeader : ElfHeader) (s s' : State) : Prop where
  filled : Filled s'.process.pageTable s'.memory content (segments content elfHeader)
  permitted : Permitted s'.process.pageTable (segments content elfHeader)
  guard : ∃ pte, s'.process.pageTable.leaf (pageCount (endOf (segments content elfHeader))) =
    some pte ∧ pte.user = false
  stack : ∃ page, s'.process.pageTable.leaf
    (pageCount (endOf (segments content elfHeader)) + 1) = some ⟨.data, true, page⟩
  size : s'.process.size = (pageCount (endOf (segments content elfHeader)) + 2) * pageSize
  mapped : ∀ v < maxVirtualPage,
    (s'.process.pageTable.leaf v).isSome ↔ PageTable.userPages s'.process.size v
  once : ∀ v w pte q, v < w → w < pageCount s'.process.size →
    s'.process.pageTable.leaf v = some pte → s'.process.pageTable.leaf w = some q →
      q.page ≠ pte.page
  entry : s'.process.registers.epc = elfHeader.entry
  freed : ∀ page ∈ tablePages (some s.process.pageTable) s.process.size,
    page ∈ s'.allocator.pages
  pages : tablePages (some s'.process.pageTable) s'.process.size + s'.allocator.pages =
    tablePages (some s.process.pageTable) s.process.size + s.allocator.pages

/-- The process has the pages of its table and of its memory, and no page is used twice. -/
structure Ready (s : State) (oldPages : Multiset Page) : Prop where
  table : TableOk (some s.process.pageTable) s.process.size
  old : tablePages (some s.process.pageTable) s.process.size = oldPages
  nodup : (oldPages + s.allocator.pages).Nodup

/-- Freeing pages that are not the image's leaves its bytes alone. -/
theorem Base.keeps (h : Base total img) (hn : total.Nodup) {m : Frames}
    (hgiven : Frames.Given (frames img) m)
    (hfree : ∀ page ∈ m.allocator.free, page ∈ img.allocator.free ∨ page ∉ total) (x : ℕ) :
    userByte img.pageTable m.memory x = userByte img.pageTable img.memory x := by
  unfold userByte
  cases ha : byteAddress img.pageTable x with
  | none => rfl
  | some a =>
    obtain ⟨hlt, pte, hpte, huser, rfl⟩ := byteAddress_eq_some.mp ha
    have hpage : x / pageSize < pageCount img.programSize := by
      refine h.user _ ?_ pte hpte huser
      rwa [Nat.div_lt_iff_lt_mul (by decide)]
    have hmem : pte.page ∈ total := by
      rw [← h.pages, ProcessMemory.Process.tablePages_some, Multiset.mem_add, Multiset.mem_add]
      exact .inl (.inr (SizeChange.mem_pagesFrom (Nat.zero_le _) (by omega) hpte))
    rw [Option.map_some, Option.map_some, hgiven.outside]
    · rfl
    · rw [page_of_offset]
      intro hin
      obtain hin | hout := hfree _ hin
      · exact h.page_not_free hn hpage hpte hin
      · exact hout hmem

theorem commit_ok {s₀ s s' : State} {oldPages : Multiset Page} (hready : Ready s₀ oldPages)
    (hprocess : s.process = s₀.process) {elfHeader : ElfHeader}
    (h : Stacked s₀.allocator.pages content (segments content elfHeader) img)
    (hinside : ∀ s ∈ segments content elfHeader,
      s.virtualAddress + s.fileSize ≤ endOf (segments content elfHeader))
    {path : List UInt8} {argc argc' stackPointer : ℕ}
    (hrun : commit s img path argc elfHeader.entry stackPointer = .ok (.ok argc', s')) :
    Executes content elfHeader s₀ s' := by
  obtain ⟨htable, hold, hnodup⟩ := hready
  obtain ⟨-, hn, hdisjoint⟩ := Multiset.nodup_add.mp hnodup
  unfold commit at hrun
  rw [hprocess] at hrun
  split at hrun
  · cases hrun
  next m hfree =>
    cases hrun
    obtain ⟨holdMapped, holdLe⟩ := htable _ rfl
    obtain ⟨a, heq, hpages⟩ := PageTable.freePageTable_spec holdMapped holdLe img.allocator
    have hforget := Frames.freePageTable_forget s₀.process.pageTable (frames img) s₀.process.size
    rw [hfree] at hforget
    rw [show img.allocator = (frames img).allocator from rfl, ← hforget] at heq
    cases heq
    have hgiven := Frames.freePageTable_given hfree
    rw [← ProcessMemory.Process.tablePages_some, hold] at hpages
    have hmem : ∀ page, page ∈ m.allocator.free ↔ page ∈ oldPages ∨ page ∈ img.allocator.free := by
      intro page
      change page ∈ m.allocator.pages ↔ _
      rw [hpages, Multiset.mem_add]
      rfl
    have hkeeps := h.toBase.keeps hn hgiven fun page hpage =>
      ((hmem page).mp hpage).symm.imp_right (Multiset.disjoint_left.mp hdisjoint)
    have hstacked := h.memory hinside m.memory fun x _ => hkeeps x
    have hmapped := (h.table img.pageTable rfl).1
    refine ⟨hstacked.filled, h.permitted, h.guard, h.stack, h.size, hmapped.isSome_iff,
      fun v w pte q hvw hw hpte hq => h.toBase.page_ne hn hvw hw hpte hq, rfl,
      ?_, ?_⟩
    · rw [hold]
      exact fun page hpage => (hmem page).mpr (.inl hpage)
    · rw [hold, hpages, ← h.pages]
      exact add_left_comm _ _ _

/-- The image of a program whose segments have page ranges in ascending order, none of
them shared, and permissions. -/
theorem exec_image {s s' : State} {oldPages : Multiset Page} (h : Ready s oldPages)
    {elfHeader : ElfHeader} (helf : readElfHeader content = .ok elfHeader)
    (hregular : Regular (segments content elfHeader)) {path : List UInt8}
    {argv : List (List UInt8)} {argc : ℕ}
    (hrun : exec s (some content) path argv = .ok (.ok argc, s')) :
    Executes content elfHeader s s' := by
  have hn : s.allocator.pages.Nodup := (Multiset.nodup_add.mp h.nodup).2.1
  have hfails {s₁ : State} {img : Image} {e : ExecError}
      (hfail : fail s₁ img e = .ok (.ok argc, s')) : False := by
    unfold fail at hfail
    split at hfail <;> cases hfail
  unfold exec at hrun
  split at hrun
  · cases hrun
  · split at hrun
    · cases hrun
    · cases hrun
    next t m hcreate =>
      simp only at hrun
      split at hrun
      · cases hrun
      · exact absurd hrun hfails
      next entry img hload =>
        obtain ⟨elfHeader', hread, rfl, hprogram⟩ := loadFile_ok hload
        rw [helf] at hread
        cases hread
        split at hrun
        · cases hrun
        · exact absurd hrun hfails
        next stackPointer img' hstack =>
          have hloaded := (Loaded.created hcreate).program hn (n := elfHeader.programHeaderEntryNum)
            hregular hprogram
          have hstacked := makeStack_ok hloaded hn hstack
          exact commit_ok (s := s.acquireInode.releasePut) h rfl hstacked
            (fun r hr => (hloaded.inside r hr).1.trans (hloaded.inside r hr).2) hrun

end Growth

/-! ## A program -/

/-- There is one segment at most, and it has a permission. -/
def isRegular (content : List UInt8) : Bool :=
  match readElfHeader content with
  | .ok elfHeader => (segments content elfHeader).length ≤ 1 &&
    (segments content elfHeader).all (fun s => s.flags.toPagePermissions ≠ .none)
  | .error _ => false

theorem regular_of_isRegular {content : List UInt8} (h : isRegular content = true) :
    ∃ elfHeader, readElfHeader content = .ok elfHeader ∧ Regular (segments content elfHeader) := by
  unfold isRegular at h
  split at h
  next elfHeader hread =>
    simp only [Bool.and_eq_true, decide_eq_true_eq, List.all_eq_true] at h
    refine ⟨elfHeader, hread, ?_, h.2⟩
    obtain ⟨hlength, -⟩ := h
    generalize segments content elfHeader = l at hlength
    match l with
    | [] => exact List.Pairwise.nil
    | [s] => exact List.pairwise_singleton Before s
    | _ :: _ :: _ => simp at hlength
  · cases h

/-- The program is executed. -/
def runs (s : State) : Bool :=
  match exec s (some program) [97] [[97]] with
  | .ok (.ok _, _) => true
  | _ => false

theorem launch_owned {s : State} (h : launch = some s) : Ready s s.process.pageTable.pages := by
  obtain ⟨r, a, heq, -, hsome⟩ := createPagetable_spec 0 1 ⟨List.range' 2 30, fun _ => false, 0⟩
  unfold launch at h
  rw [heq] at h
  cases r with
  | none => cases h
  | some t =>
    cases h
    obtain ⟨hmapped, hpages⟩ := hsome t rfl
    have hzero : pageCount 0 = 0 := rfl
    refine ⟨fun u hu => ?_, ?_, ?_⟩
    · obtain rfl := Option.some.inj hu
      exact ⟨hmapped, (by decide : pageCount 0 ≤ trapframePage)⟩
    · rw [ProcessMemory.Process.tablePages_some, hzero]
      exact add_zero _
    · change (t.pages + a.pages).Nodup
      rw [hpages]
      exact List.nodup_range'

theorem exec_image_program : ∃ s, launch = some s ∧ ∃ elfHeader argc s',
    exec s (some program) [97] [[97]] = .ok (.ok argc, s') ∧ Executes program elfHeader s s' := by
  have hlaunch : launch.any runs = true := by decide +kernel
  obtain ⟨s, hs, hruns⟩ := (Option.any_eq_true _ _).mp hlaunch
  have hregular : isRegular program = true := by decide +kernel
  obtain ⟨elfHeader, hread, hsegments⟩ := regular_of_isRegular hregular
  unfold runs at hruns
  split at hruns
  next argc s' hrun =>
    exact ⟨s, hs, elfHeader, argc, s', hrun, exec_image (launch_owned hs) hread hsegments hrun⟩
  · cases hruns

end Zigmaos.ExecFile.Contents
