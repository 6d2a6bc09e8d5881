import Zigmaos.LittleEndian
import Zigmaos.OpenFiles
import Zigmaos.UserCopies

/-!
# The `pipe` system call, with the memory of its caller

The call of `OpenFiles` with the copies of its result. A descriptor is copied out
as a `usize`, where the user has an array of two 32-bit integers.
-/
namespace Zigmaos.PipeCall
open Program Memory
open FileSystem (FileIndex FileDescriptor noFile nFile)
open OpenFiles (File FileData Fault)
open LittleEndian (byteLE)

structure State (π : Type) where
  kernel : OpenFiles.State π
  pageTable : π → PageTable
  memory : PhysicalMemory

inductive Op (π : Type)
  | kernel (o : OpenFiles.Op π)
  | copyOut (destination : ℕ) (source : List UInt8)

@[reducible] def Op.Result {π : Type} : Op π → Type
  | .kernel o => o.Result
  | .copyOut _ _ => Except CopyError Unit

abbrev interface (π : Type) : Interface := ⟨Op π, Op.Result⟩

section Calls
variable {π α : Type}

abbrev Prog (π α : Type) := Program (interface π) α

/-- A program that leaves the memory of its caller alone. -/
def lift : OpenFiles.Prog π α → Prog π α
  | .done a => .done a
  | .call o k => .call (.kernel o) fun r => lift (k r)

def copyOut (destination : ℕ) (source : List UInt8) : Prog π (Except CopyError Unit) :=
  Program.op (F := interface π) (.copyOut destination source)

def getAddress (int : ℕ) : Option ℕ := if int = 0 then none else some int

/-- `@sizeOf(c_int)` -/
def sizeOfCInt : ℕ := 4

/-- `@sizeOf(usize)` -/
def sizeOfUsize : ℕ := 8

/-- `std.mem.asBytes` of a descriptor, which is a `usize`. -/
def asBytes (fd : FileDescriptor) : List UInt8 := (List.range sizeOfUsize).map (byteLE fd)

def outputDescriptors (fileDescArray : ℕ) (readFile writeFile : FileIndex)
    (readFd writeFd : FileDescriptor) : Prog π Bool := do
  match ← copyOut fileDescArray (asBytes readFd) with
  | .error _ => lift (OpenFiles.outputDescriptors.undo readFile writeFile readFd writeFd)
  | .ok () =>
    match ← copyOut (fileDescArray + sizeOfCInt) (asBytes writeFd) with
    | .error _ => lift (OpenFiles.outputDescriptors.undo readFile writeFile readFd writeFd)
    | .ok () => return true

/-- `pipe`, with register `a0`. -/
def pipe (a0 : ℕ) : Prog π Bool := do
  match getAddress a0 with
  | none => return false
  | some fileDescArray =>
    match ← lift OpenFiles.Pipe.alloc with
    | none => return false
    | some (readFile, writeFile) =>
      match ← lift (OpenFiles.invoke (.fileDescriptorAllocate readFile)) with
      | none =>
        lift (File.close readFile)
        lift (File.close writeFile)
        return false
      | some readFd =>
        match ← lift (OpenFiles.invoke (.fileDescriptorAllocate writeFile)) with
        | none =>
          lift (OpenFiles.invoke (.clearDescriptor readFd))
          lift (File.close readFile)
          lift (File.close writeFile)
          return false
        | some writeFd => outputDescriptors fileDescArray readFile writeFile readFd writeFd

variable [DecidableEq π]

/-- What an operation of process `p` does. -/
def perform (p : π) : Program.Handler (interface π) (State π) Fault
  | .kernel o, s =>
    match OpenFiles.State.perform p o s.kernel with
    | .done r k => .done r { s with kernel := k }
    | .stop reason k => .stop reason { s with kernel := k }
    | .block => .block
  | .copyOut destination source, s =>
    let result := Memory.copyOut (s.pageTable p) s.memory destination source
    .done result.1 { s with memory := result.2.1 }

theorem run_lift (p : π) (q : OpenFiles.Prog π α) (s : State π) :
    (lift q).run (perform p) s =
      match q.run (OpenFiles.State.perform p) s.kernel with
      | .done a k => .done a { s with kernel := k }
      | .stop reason k => .stop reason { s with kernel := k }
      | .block => .block := by
  induction q generalizing s with
  | done a => rfl
  | call o k ih =>
    rw [lift, run_call, run_call, perform]
    cases OpenFiles.State.perform p o s.kernel with
    | done r k' => exact ih r _
    | stop reason k' => rfl
    | block => rfl

end Calls

/-! ## What the allocations do -/

section Allocation
open OpenFiles (Prog invoke)
variable {π : Type} {s t : OpenFiles.State π} {readFile writeFile : FileIndex} {page : ℕ}
  {readFd writeFd : FileDescriptor}

def freeFile (s : OpenFiles.State π) : Option FileIndex :=
  (List.finRange nFile).find? (fun f => (s.files f).referenceCount = 0)

def freeDescriptor (s : OpenFiles.State π) (p : π) : Option FileDescriptor :=
  (List.finRange noFile).find? (fun fd => s.openFiles p fd = none)

/-- The page that is there for a pipe. -/
def freePage (s : OpenFiles.State π) : Option ℕ :=
  (s.freeList s.requests).filter (fun page => s.pipes page = none)

def takeFile (s : OpenFiles.State π) (f : FileIndex) : OpenFiles.State π :=
  s.setFile f { s.files f with referenceCount := 1 }

def takePage (s : OpenFiles.State π) (page : ℕ) : OpenFiles.State π :=
  { s with requests := s.requests + 1 }.setPipe page (some ⟨true, true⟩)

/-- After `Pipe.alloc`. -/
def withPipe (s : OpenFiles.State π) (readFile writeFile : FileIndex) (page : ℕ) :
    OpenFiles.State π :=
  let s := takePage (takeFile (takeFile s readFile) writeFile) page
  let s := s.setFile readFile { s.files readFile with data := .pipe page, isWriteable := false }
  s.setFile writeFile { s.files writeFile with data := .pipe page, isWriteable := true }

@[simp] theorem openFiles_withPipe : (withPipe s readFile writeFile page).openFiles = s.openFiles :=
  rfl

theorem files_withPipe (hne : writeFile ≠ readFile) :
    (withPipe s readFile writeFile page).files readFile = ⟨1, false, .pipe page⟩ ∧
      (withPipe s readFile writeFile page).files writeFile = ⟨1, true, .pipe page⟩ := by
  simp [withPipe, takePage, takeFile, OpenFiles.State.setFile, OpenFiles.State.setPipe, hne,
    hne.symm]

variable [DecidableEq π] {p : π}

theorem fileAlloc_some : (invoke .fileAlloc).run (OpenFiles.State.perform p) s =
    .done (some readFile) t ↔ freeFile s = some readFile ∧ t = takeFile s readFile := by
  rw [run_op, OpenFiles.State.perform, freeFile]
  cases (List.finRange nFile).find? (fun f => (s.files f).referenceCount = 0) with
  | none => simp
  | some f =>
    simp only [Outcome.done.injEq, Option.some.injEq]
    constructor
    · rintro ⟨rfl, rfl⟩
      exact ⟨rfl, rfl⟩
    · rintro ⟨rfl, rfl⟩
      exact ⟨rfl, rfl⟩

theorem pipeAlloc_some : (invoke .pipeAlloc).run (OpenFiles.State.perform p) s =
    .done (some page) t ↔ freePage s = some page ∧ t = takePage s page := by
  rw [run_op, OpenFiles.State.perform, OpenFiles.State.pipeAlloc, freePage]
  cases s.freeList s.requests with
  | none => simp
  | some q =>
    by_cases hq : s.pipes q = none
    · simp only [if_pos hq, Outcome.done.injEq, Option.some.injEq, Option.filter,
        decide_eq_true_eq]
      constructor
      · rintro ⟨rfl, rfl⟩
        exact ⟨rfl, rfl⟩
      · rintro ⟨rfl, rfl⟩
        exact ⟨rfl, rfl⟩
    · simp only [if_neg hq, Outcome.done.injEq, reduceCtorEq, false_and, Option.filter,
        decide_eq_true_eq]

theorem fileDescriptorAllocate_some {f : FileIndex} :
    (invoke (.fileDescriptorAllocate f)).run (OpenFiles.State.perform p) s =
      .done (some readFd) t ↔
        freeDescriptor s p = some readFd ∧ t = s.setOpenFile p readFd (some f) := by
  rw [run_op, OpenFiles.State.perform, freeDescriptor]
  cases (List.finRange noFile).find? (fun fd => s.openFiles p fd = none) with
  | none => simp
  | some fd =>
    simp only [Outcome.done.injEq, Option.some.injEq]
    constructor
    · rintro ⟨rfl, rfl⟩
      exact ⟨rfl, rfl⟩
    · rintro ⟨rfl, rfl⟩
      exact ⟨rfl, rfl⟩

theorem alloc_some : OpenFiles.Pipe.alloc.run (OpenFiles.State.perform p) s =
    .done (some (readFile, writeFile)) t ↔
      freeFile s = some readFile ∧ freeFile (takeFile s readFile) = some writeFile ∧
        ∃ page, freePage s = some page ∧ t = withPipe s readFile writeFile page := by
  constructor
  · intro h
    obtain ⟨_ | r, s₁, h₁, h⟩ := run_bind_eq_done.mp h
    · cases h
    obtain ⟨hr, rfl⟩ := fileAlloc_some.mp h₁
    obtain ⟨_ | w, s₂, h₂, h⟩ := run_bind_eq_done.mp h
    · obtain ⟨_, _, -, h⟩ := run_bind_eq_done.mp h
      cases h
    obtain ⟨hw, rfl⟩ := fileAlloc_some.mp h₂
    obtain ⟨_ | page, s₃, h₃, h⟩ := run_bind_eq_done.mp h
    · obtain ⟨_, _, -, h⟩ := run_bind_eq_done.mp h
      obtain ⟨_, _, -, h⟩ := run_bind_eq_done.mp h
      cases h
    obtain ⟨hpage, rfl⟩ := pipeAlloc_some.mp h₃
    obtain ⟨hresult, rfl⟩ := Outcome.done.inj h
    cases hresult
    exact ⟨hr, hw, page, hpage, rfl⟩
  · rintro ⟨hr, hw, page, hpage, rfl⟩
    exact run_bind_eq_done.mpr ⟨_, _, fileAlloc_some.mpr ⟨hr, rfl⟩, run_bind_eq_done.mpr
      ⟨_, _, fileAlloc_some.mpr ⟨hw, rfl⟩, run_bind_eq_done.mpr
        ⟨_, _, pipeAlloc_some.mpr ⟨hpage, rfl⟩, rfl⟩⟩⟩

/-- What the call is given. -/
structure Allocates (s : OpenFiles.State π) (p : π) (readFile writeFile : FileIndex) (page : ℕ)
    (readFd writeFd : FileDescriptor) : Prop where
  firstFile : freeFile s = some readFile
  secondFile : freeFile (takeFile s readFile) = some writeFile
  freshPage : freePage s = some page
  firstFd : freeDescriptor (withPipe s readFile writeFile page) p = some readFd
  secondFd : freeDescriptor ((withPipe s readFile writeFile page).setOpenFile p readFd
    (some readFile)) p = some writeFd

/-- The tables of the kernel after the allocations. -/
def allocated (s : OpenFiles.State π) (p : π) (readFile writeFile : FileIndex) (page : ℕ)
    (readFd writeFd : FileDescriptor) : OpenFiles.State π :=
  ((withPipe s readFile writeFile page).setOpenFile p readFd (some readFile)).setOpenFile p writeFd
    (some writeFile)

/-- Two descriptors, two files and a page are there. -/
structure Available (s : OpenFiles.State π) (p : π) : Prop where
  files : ∃ f g, f ≠ g ∧ (s.files f).referenceCount = 0 ∧ (s.files g).referenceCount = 0
  page : ∃ page, s.freeList s.requests = some page ∧ s.pipes page = none
  descriptors : ∃ d e, d ≠ e ∧ s.openFiles p d = none ∧ s.openFiles p e = none

theorem exists_find?_iff {n : ℕ} {q : Fin n → Bool} :
    (∃ i, (List.finRange n).find? q = some i) ↔ ∃ i, q i = true := by
  rw [← Option.isSome_iff_exists]
  simp

/-- Two things are there for two searches, the second of which does not find the first again. -/
theorem exists_find?_two {n : ℕ} (q : Fin n → Bool) (q₂ : Fin n → Fin n → Bool)
    (h : ∀ i j, q₂ i j = true ↔ j ≠ i ∧ q j = true) :
    (∃ i j, (List.finRange n).find? q = some i ∧ (List.finRange n).find? (q₂ i) = some j) ↔
      ∃ i j, i ≠ j ∧ q i = true ∧ q j = true := by
  constructor
  · rintro ⟨i, j, hi, hj⟩
    obtain ⟨hne, hqj⟩ := (h i j).mp (List.find?_some hj)
    exact ⟨i, j, hne.symm, List.find?_some hi, hqj⟩
  · rintro ⟨i, j, hne, hqi, hqj⟩
    obtain ⟨k, hk⟩ := exists_find?_iff.mpr ⟨i, hqi⟩
    suffices hother : ∃ l, q₂ k l = true by
      obtain ⟨l, hl⟩ := exists_find?_iff.mpr hother
      exact ⟨k, l, hk, hl⟩
    by_cases hik : i = k
    · exact ⟨j, (h k j).mpr ⟨fun hjk => hne (hik.trans hjk.symm), hqj⟩⟩
    · exact ⟨i, (h k i).mpr ⟨hik, hqi⟩⟩

theorem available_iff : Available s p ↔
    ∃ readFile writeFile page readFd writeFd,
      Allocates s p readFile writeFile page readFd writeFd := by
  have hfiles := exists_find?_two (fun f => (s.files f).referenceCount = 0)
    (fun i f => ((takeFile s i).files f).referenceCount = 0) (fun i j => by
      by_cases hij : j = i <;> simp [takeFile, OpenFiles.State.setFile, hij])
  have hdescriptors : ∀ r w page, _ := fun r w page =>
    exists_find?_two (fun fd => s.openFiles p fd = none)
      (fun i fd => ((withPipe s r w page).setOpenFile p i (some r)).openFiles p fd = none)
      (fun i j => by by_cases hij : j = i <;> simp [OpenFiles.State.setOpenFile, hij])
  have hpage : (∃ page, freePage s = some page) ↔
      ∃ page, s.freeList s.requests = some page ∧ s.pipes page = none := by
    simp [freePage, Option.filter_eq_some_iff]
  constructor
  · rintro ⟨hf, hp, hd⟩
    obtain ⟨r, w, hr, hw⟩ := hfiles.mpr (by simpa using hf)
    obtain ⟨page, hfree⟩ := hpage.mpr hp
    obtain ⟨d, e, hd, he⟩ := (hdescriptors r w page).mpr (by simpa using hd)
    exact ⟨r, w, page, d, e, hr, hw, hfree, hd, he⟩
  · rintro ⟨r, w, page, d, e, hr, hw, hfree, hd, he⟩
    exact ⟨by simpa using hfiles.mp ⟨r, w, hr, hw⟩, hpage.mp ⟨page, hfree⟩,
      by simpa using (hdescriptors r w page).mp ⟨d, e, hd, he⟩⟩

end Allocation

/-! ## What the call does -/

variable {π : Type} [DecidableEq π] {p : π} {s t : State π} {a0 : ℕ}

theorem lift_done {α : Type} {q : OpenFiles.Prog π α} {a : α} :
    (lift q).run (perform p) s = .done a t ↔
      ∃ k, q.run (OpenFiles.State.perform p) s.kernel = .done a k ∧ t = { s with kernel := k } := by
  rw [run_lift]
  cases q.run (OpenFiles.State.perform p) s.kernel with
  | done b k =>
    simp only [Outcome.done.injEq]
    constructor
    · rintro ⟨rfl, rfl⟩
      exact ⟨k, ⟨rfl, rfl⟩, rfl⟩
    · rintro ⟨_, ⟨rfl, rfl⟩, rfl⟩
      exact ⟨rfl, rfl⟩
  | stop reason k => simp
  | block => simp

/-- The memory after the two copies. -/
def outputMemory (t : PageTable) (memory : PhysicalMemory) (address : ℕ)
    (readFd writeFd : FileDescriptor) : PhysicalMemory :=
  (Memory.copyOut t (Memory.copyOut t memory address (asBytes readFd)).2.1 (address + sizeOfCInt)
    (asBytes writeFd)).2.1

@[simp] theorem length_asBytes (fd : FileDescriptor) : (asBytes fd).length = 8 := by
  simp [asBytes, sizeOfUsize]

theorem run_copyOut (destination : ℕ) (source : List UInt8) :
    (copyOut destination source).run (perform p) s =
      .done (Memory.copyOut (s.pageTable p) s.memory destination source).1
        { s with memory := (Memory.copyOut (s.pageTable p) s.memory destination source).2.1 } := by
  rw [copyOut, run_op]
  rfl

/-- Two descriptors reach over twelve bytes. -/
theorem copies_ok_iff {table : PageTable} (memory other : PhysicalMemory)
    (readFd writeFd : FileDescriptor) :
    (Memory.copyOut table memory a0 (asBytes readFd)).1 = .ok () ∧
      (Memory.copyOut table other (a0 + sizeOfCInt) (asBytes writeFd)).1 = .ok () ↔
        ∀ k < 12, (byteAddress table (a0 + k)).isSome := by
  simp only [copyOut_ok_iff, length_asBytes, sizeOfCInt]
  constructor
  · rintro ⟨hfirst, hsecond⟩ k hk
    by_cases hlt : k < 8
    · exact hfirst k hlt
    · have hadd : a0 + k = a0 + 4 + (k - 4) := by omega
      rw [hadd]
      exact hsecond (k - 4) (by omega)
  · intro h
    refine ⟨fun k hk => h k (by omega), fun k hk => ?_⟩
    rw [add_assoc]
    exact h (4 + k) (by omega)

theorem outputDescriptors_true {readFile writeFile : FileIndex} {readFd writeFd : FileDescriptor} :
    (outputDescriptors a0 readFile writeFile readFd writeFd).run (perform p) s = .done true t ↔
      (∀ k < 12, (byteAddress (s.pageTable p) (a0 + k)).isSome) ∧
        t = { s with memory := outputMemory (s.pageTable p) s.memory a0 readFd writeFd } := by
  have hundo : ∀ {s}, (lift (OpenFiles.outputDescriptors.undo readFile writeFile readFd
      writeFd)).run (perform p) s ≠ .done true t := by
    intro s h
    obtain ⟨k, h, -⟩ := lift_done.mp h
    obtain ⟨_, _, -, h⟩ := run_bind_eq_done.mp h
    obtain ⟨_, _, -, h⟩ := run_bind_eq_done.mp h
    obtain ⟨_, _, -, h⟩ := run_bind_eq_done.mp h
    obtain ⟨_, _, -, h⟩ := run_bind_eq_done.mp h
    cases h
  rw [outputDescriptors, run_bind_of_done (run_copyOut _ _),
    ← copies_ok_iff s.memory (Memory.copyOut (s.pageTable p) s.memory a0 (asBytes readFd)).2.1
      readFd writeFd]
  cases hfirst : (Memory.copyOut (s.pageTable p) s.memory a0 (asBytes readFd)).1 with
  | error e => exact iff_of_false hundo nofun
  | ok =>
    simp only []
    rw [run_bind_of_done (run_copyOut _ _)]
    simp only []
    cases hsecond : (Memory.copyOut (s.pageTable p) (Memory.copyOut (s.pageTable p) s.memory a0
        (asBytes readFd)).2.1 (a0 + sizeOfCInt) (asBytes writeFd)).1 with
    | error e => exact iff_of_false hundo nofun
    | ok =>
      simp only [pure_eq, run_done, Outcome.done.injEq, true_and, and_self]
      exact eq_comm

theorem pipe_true : (pipe a0).run (perform p) s = .done true t ↔
    a0 ≠ 0 ∧ (∀ k < 12, (byteAddress (s.pageTable p) (a0 + k)).isSome) ∧
      ∃ readFile writeFile page readFd writeFd,
        Allocates s.kernel p readFile writeFile page readFd writeFd ∧
          t = { s with
            kernel := allocated s.kernel p readFile writeFile page readFd writeFd
            memory := outputMemory (s.pageTable p) s.memory a0 readFd writeFd } := by
  obtain rfl | hne := Nat.eq_zero_or_pos a0
  · refine iff_of_false (fun h => ?_) fun h => h.1 rfl
    cases h
  have haddress : getAddress a0 = some a0 := if_neg hne.ne'
  rw [pipe, haddress]
  constructor
  · intro h
    obtain ⟨_ | ⟨r, w⟩, s₁, h₁, h⟩ := run_bind_eq_done.mp h
    · cases h
    obtain ⟨k₁, halloc, rfl⟩ := lift_done.mp h₁
    obtain ⟨hr, hw, page, hpage, rfl⟩ := alloc_some.mp halloc
    obtain ⟨_ | d, s₂, h₂, h⟩ := run_bind_eq_done.mp h
    · obtain ⟨_, _, -, h⟩ := run_bind_eq_done.mp h
      obtain ⟨_, _, -, h⟩ := run_bind_eq_done.mp h
      cases h
    obtain ⟨k₂, hread, rfl⟩ := lift_done.mp h₂
    obtain ⟨hd, rfl⟩ := fileDescriptorAllocate_some.mp hread
    obtain ⟨_ | e, s₃, h₃, h⟩ := run_bind_eq_done.mp h
    · obtain ⟨_, _, -, h⟩ := run_bind_eq_done.mp h
      obtain ⟨_, _, -, h⟩ := run_bind_eq_done.mp h
      obtain ⟨_, _, -, h⟩ := run_bind_eq_done.mp h
      cases h
    obtain ⟨k₃, hwrite, rfl⟩ := lift_done.mp h₃
    obtain ⟨he, rfl⟩ := fileDescriptorAllocate_some.mp hwrite
    obtain ⟨hmapped, rfl⟩ := outputDescriptors_true.mp h
    exact ⟨hne.ne', hmapped, r, w, page, d, e, ⟨hr, hw, hpage, hd, he⟩, rfl⟩
  · rintro ⟨-, hmapped, r, w, page, d, e, ⟨hr, hw, hpage, hd, he⟩, rfl⟩
    refine run_bind_eq_done.mpr ⟨_, _, lift_done.mpr ⟨_, alloc_some.mpr ⟨hr, hw, page, hpage, rfl⟩,
      rfl⟩, ?_⟩
    refine run_bind_eq_done.mpr ⟨_, _, lift_done.mpr ⟨_, fileDescriptorAllocate_some.mpr ⟨hd, rfl⟩,
      rfl⟩, ?_⟩
    refine run_bind_eq_done.mpr ⟨_, _, lift_done.mpr ⟨_, fileDescriptorAllocate_some.mpr ⟨he, rfl⟩,
      rfl⟩, ?_⟩
    exact outputDescriptors_true.mpr ⟨hmapped, rfl⟩

/-! ## The bytes of the result -/

theorem getElem_asBytes {fd : FileDescriptor} {k : ℕ} (hk : k < (asBytes fd).length) :
    (asBytes fd)[k] = byteLE fd k := by
  simp [asBytes]

/-- A descriptor fits in one byte. -/
theorem byteLE_descriptor (fd : FileDescriptor) {k : ℕ} (hk : 0 < k) : byteLE fd k = 0 := by
  have hfd : (fd : ℕ) < 256 := fd.isLt.trans (by decide)
  have hpow : 256 ^ 1 ≤ 256 ^ k := Nat.pow_le_pow_right (by decide) hk
  rw [byteLE, Nat.div_eq_of_lt (by omega)]
  rfl

section Bytes
variable {table : PageTable} (memory : PhysicalMemory) (readFd writeFd : FileDescriptor)

theorem outputMemory_first (h : ∀ k < 12, (byteAddress table (a0 + k)).isSome) {k : ℕ}
    (hk : k < 4) :
    userByte table (outputMemory table memory a0 readFd writeFd) (a0 + k) =
      some (byteLE readFd k) := by
  obtain ⟨a, ha⟩ := Option.isSome_iff_exists.mp (h k (by omega))
  have hok := (copies_ok_iff memory memory readFd writeFd).mpr h
  rw [userByte, ha, Option.map_some, outputMemory, copyOut_unchanged]
  · rw [copyOut_short a0 (asBytes readFd) (by simp [pageSize]) hok.1 k (by simp; omega) ha,
      getElem_asBytes]
  · intro j hj
    rw [length_asBytes] at hj
    refine byteAddress_ne ?_ ?_ ha <;> simp only [sizeOfCInt, pageSize] <;> omega

theorem outputMemory_second (h : ∀ k < 12, (byteAddress table (a0 + k)).isSome) {k : ℕ}
    (hk : k < 8) :
    userByte table (outputMemory table memory a0 readFd writeFd) (a0 + 4 + k) =
      some (byteLE writeFd k) := by
  obtain ⟨a, ha⟩ := Option.isSome_iff_exists.mp (h (4 + k) (by omega))
  rw [← add_assoc] at ha
  have hok := (copies_ok_iff memory (Memory.copyOut table memory a0 (asBytes readFd)).2.1 readFd
    writeFd).mpr h
  rw [userByte, ha, Option.map_some, outputMemory,
    copyOut_short (a0 + sizeOfCInt) (asBytes writeFd) (by simp [pageSize]) hok.2 k (by simpa) ha,
    getElem_asBytes]

/-- The four bytes after the result are zeroed. -/
theorem outputMemory_after (h : ∀ k < 12, (byteAddress table (a0 + k)).isSome) {k : ℕ}
    (hge : 8 ≤ k) (hlt : k < 12) :
    userByte table (outputMemory table memory a0 readFd writeFd) (a0 + k) = some 0 := by
  have hsecond := outputMemory_second memory readFd writeFd h (k := k - 4) (by omega)
  have hadd : a0 + 4 + (k - 4) = a0 + k := by omega
  rwa [hadd, byteLE_descriptor writeFd (by omega)] at hsecond

theorem outputMemory_outside {a : ℕ} (ha : ∀ k < 12, byteAddress table (a0 + k) ≠ some a) :
    outputMemory table memory a0 readFd writeFd a = memory a := by
  rw [outputMemory, copyOut_unchanged, copyOut_unchanged]
  · intro k hk
    rw [length_asBytes] at hk
    exact ha k (by omega)
  · intro k hk
    rw [length_asBytes] at hk
    rw [add_assoc]
    exact ha (sizeOfCInt + k) (by simp only [sizeOfCInt]; omega)

end Bytes

/-! ## Exactly the result -/

/-- The call has been given two descriptors of one new pipe, and has written them, as two
32-bit integers, and nothing else of memory. -/
structure WritesResult (p : π) (a0 : ℕ) (s t : State π) : Prop where
  written : ∃ readFd writeFd readFile writeFile page, readFd ≠ writeFd ∧
    s.kernel.openFiles p readFd = none ∧ s.kernel.openFiles p writeFd = none ∧
    t.kernel.openFiles p readFd = some readFile ∧ t.kernel.openFiles p writeFd = some writeFile ∧
    t.kernel.files readFile = ⟨1, false, .pipe page⟩ ∧
    t.kernel.files writeFile = ⟨1, true, .pipe page⟩ ∧
    ∀ k < 4, userByte (t.pageTable p) t.memory (a0 + k) = some (byteLE readFd k) ∧
      userByte (t.pageTable p) t.memory (a0 + 4 + k) = some (byteLE writeFd k)
  unchanged : ∀ a, t.memory a ≠ s.memory a → ∃ k < 8, byteAddress (s.pageTable p) (a0 + k) = some a

/-- The page of the byte is mapped for the user to write. -/
def UserWriteable (table : PageTable) (address : ℕ) : Prop :=
  address < maxVirtualAddress ∧ ∃ pte, table.leaf (address / pageSize) = some pte ∧
    pte.user = true ∧ pte.permissions.write = true

theorem UserWriteable.mapped {table : PageTable} {address : ℕ} (h : UserWriteable table address) :
    UserMapped table address := by
  obtain ⟨hlt, pte, hpte, huser, -⟩ := h
  exact ⟨hlt, pte, hpte, huser⟩

/-- The call writes its result and nothing else, and succeeds where it can be written. -/
def ResultExact (p : π) (a0 : ℕ) (s : State π) : Prop :=
  (∀ t, (pipe a0).run (perform p) s = .done true t → WritesResult p a0 s t) ∧
    (Available s.kernel p → (∀ k < 8, UserWriteable (s.pageTable p) (a0 + k)) →
      ∃ t, (pipe a0).run (perform p) s = .done true t)

theorem pipe_succeeds_iff : (∃ t, (pipe a0).run (perform p) s = .done true t) ↔
    a0 ≠ 0 ∧ (∀ k < 12, UserMapped (s.pageTable p) (a0 + k)) ∧ Available s.kernel p := by
  simp only [pipe_true, available_iff, isSome_byteAddress_iff]
  constructor
  · rintro ⟨t, hne, hmapped, r, w, page, d, e, halloc, -⟩
    exact ⟨hne, hmapped, r, w, page, d, e, halloc⟩
  · rintro ⟨hne, hmapped, r, w, page, d, e, halloc⟩
    exact ⟨_, hne, hmapped, r, w, page, d, e, halloc, rfl⟩

/-- The descriptors that the call returns are new ones of a new pipe. -/
theorem Allocates.fresh {s : OpenFiles.State π} {readFile writeFile : FileIndex} {page : ℕ}
    {readFd writeFd : FileDescriptor} (h : Allocates s p readFile writeFile page readFd writeFd) :
    readFd ≠ writeFd ∧ s.openFiles p readFd = none ∧ s.openFiles p writeFd = none ∧
      let t := allocated s p readFile writeFile page readFd writeFd
      t.openFiles p readFd = some readFile ∧ t.openFiles p writeFd = some writeFile ∧
      t.files readFile = ⟨1, false, .pipe page⟩ ∧ t.files writeFile = ⟨1, true, .pipe page⟩ := by
  have hfile : writeFile ≠ readFile := by
    have hfree := List.find?_some h.secondFile
    intro heq
    simp [takeFile, OpenFiles.State.setFile, heq] at hfree
  have hfirst := List.find?_some h.firstFd
  have hsecond := List.find?_some h.secondFd
  have hne : writeFd ≠ readFd := by
    intro heq
    simp [OpenFiles.State.setOpenFile, heq] at hsecond
  simp only [OpenFiles.State.setOpenFile, Function.update_self, Function.update_of_ne hne,
    openFiles_withPipe] at hfirst hsecond
  refine ⟨hne.symm, of_decide_eq_true hfirst, of_decide_eq_true hsecond, ?_, ?_,
    files_withPipe hfile⟩
  · simp [allocated, OpenFiles.State.setOpenFile, hne.symm]
  · simp [allocated, OpenFiles.State.setOpenFile]

theorem writesResult_iff (ht : (pipe a0).run (perform p) s = .done true t) :
    WritesResult p a0 s t ↔
      ∀ k, 8 ≤ k → k < 12 → userByte (s.pageTable p) s.memory (a0 + k) = some 0 := by
  obtain ⟨-, hsome, r, w, page, d, e, halloc, rfl⟩ := pipe_true.mp ht
  constructor
  · intro h k hge hlt
    obtain ⟨a, ha⟩ := Option.isSome_iff_exists.mp (hsome k hlt)
    rw [← outputMemory_after s.memory d e hsome hge hlt, userByte, userByte, ha, Option.map_some,
      Option.map_some]
    by_contra hchanged
    obtain ⟨j, hj, hja⟩ := h.unchanged a fun heq => hchanged (congrArg some heq.symm)
    exact byteAddress_ne (by omega) (by simp only [pageSize]; omega) hja ha
  · intro h
    obtain ⟨hfd, hread, hwrite, hreadFile, hwriteFile, hfiles⟩ := halloc.fresh
    refine ⟨⟨d, e, r, w, page, hfd, hread, hwrite, hreadFile, hwriteFile, hfiles.1, hfiles.2,
      fun k hk => ⟨outputMemory_first _ _ _ hsome hk, outputMemory_second _ _ _ hsome (by omega)⟩⟩, ?_⟩
    intro a hchanged
    by_contra hnone
    push Not at hnone
    refine hchanged ?_
    by_cases hin : ∃ k < 12, byteAddress (s.pageTable p) (a0 + k) = some a
    · obtain ⟨k, hlt, ha⟩ := hin
      have hge : 8 ≤ k := by
        by_contra hlt
        exact hnone k (by omega) ha
      have hbefore := h k hge hlt
      have hafter := outputMemory_after s.memory d e hsome hge hlt
      rw [userByte, ha, Option.map_some] at hbefore hafter
      exact Option.some.inj (hafter.trans hbefore.symm)
    · push Not at hin
      exact outputMemory_outside _ _ _ hin

/-- The result is what the call writes, and all that it writes, unless the user has a byte other
than zero, or nothing, in the four bytes after the array; and it does not take address zero. -/
theorem result_exact_iff (p : π) (a0 : ℕ) (s : State π) : ResultExact p a0 s ↔
    (Available s.kernel p →
      (a0 ≠ 0 → (∀ k < 12, UserMapped (s.pageTable p) (a0 + k)) →
        ∀ k, 8 ≤ k → k < 12 → userByte (s.pageTable p) s.memory (a0 + k) = some 0) ∧
      ((∀ k < 8, UserWriteable (s.pageTable p) (a0 + k)) →
        a0 ≠ 0 ∧ ∀ k, 8 ≤ k → k < 12 → UserMapped (s.pageTable p) (a0 + k))) := by
  constructor
  · rintro ⟨hwrites, hsucceeds⟩ havailable
    constructor
    · intro hne hmapped
      obtain ⟨t, ht⟩ := pipe_succeeds_iff.mpr ⟨hne, hmapped, havailable⟩
      exact (writesResult_iff ht).mp (hwrites t ht)
    · intro hwriteable
      obtain ⟨hne, hmapped, -⟩ := pipe_succeeds_iff.mp (hsucceeds havailable hwriteable)
      exact ⟨hne, fun k _ hlt => hmapped k hlt⟩
  · intro h
    constructor
    · intro t ht
      obtain ⟨hne, hmapped, havailable⟩ := pipe_succeeds_iff.mp ⟨t, ht⟩
      exact (writesResult_iff ht).mpr ((h havailable).1 hne hmapped)
    · intro havailable hwriteable
      obtain ⟨hne, hafter⟩ := (h havailable).2 hwriteable
      refine pipe_succeeds_iff.mpr ⟨hne, fun k hk => ?_, havailable⟩
      by_cases hlt : k < 8
      · exact (hwriteable k hlt).mapped
      · exact hafter k (by omega) hk

/-- One page of data at address zero. -/
def dataTable : PageTable :=
  let leaf : LeafTable := .set (.empty 3) 0 (some ⟨⟨true, true, false⟩, true, 4⟩)
  .set (.empty 1) 0 (some (.set (.empty 2) 0 (some leaf)))

/-- A process without open files, whose one page is full of ones. -/
def fresh : State Unit where
  kernel :=
    { files := fun _ => ⟨0, false, .none⟩
      pipes := fun _ => none
      openFiles := fun _ _ => none
      status := fun _ => .live
      processTable := [()]
      freeList := fun _ => some 7
      outcomes := fun _ => true
      requests := 0 }
  pageTable := fun _ => dataTable
  memory := fun _ => 1

theorem fresh_writeable {address : ℕ} (h : address < pageSize) :
    UserWriteable (fresh.pageTable ()) address := by
  refine ⟨h.trans (by decide), ⟨⟨true, true, false⟩, true, 4⟩, ?_, rfl, rfl⟩
  rw [Nat.div_eq_of_lt h]
  rfl

theorem fresh_available : Available fresh.kernel () :=
  ⟨⟨⟨0, by decide⟩, ⟨1, by decide⟩, by decide, rfl, rfl⟩, ⟨7, rfl, rfl⟩,
    ⟨⟨0, by decide⟩, ⟨1, by decide⟩, by decide, rfl, rfl⟩⟩

/-- The bytes from 4 to 12 are for the result, and the byte at 12 goes from one to zero. -/
theorem pipe_overruns : (∃ t, (pipe 4).run (perform ()) fresh = .done true t ∧
    userByte dataTable fresh.memory 12 = some 1 ∧ userByte dataTable t.memory 12 = some 0) ∧
      ¬ ResultExact () 4 fresh := by
  have hmapped : ∀ k < 12, UserMapped (fresh.pageTable ()) (4 + k) := fun k hk =>
    (fresh_writeable (by simp only [pageSize]; omega)).mapped
  have hone : userByte dataTable fresh.memory 12 = some 1 := by
    obtain ⟨a, ha⟩ := Option.isSome_iff_exists.mp
      (isSome_byteAddress_iff.mpr (hmapped 8 (by decide)))
    exact congrArg (Option.map fresh.memory) ha
  obtain ⟨t, ht⟩ := pipe_succeeds_iff.mpr ⟨by decide, hmapped, fresh_available⟩
  refine ⟨⟨t, ht, hone, ?_⟩, fun h => ?_⟩
  · obtain ⟨-, hsome, -, -, -, d, e, -, rfl⟩ := pipe_true.mp ht
    exact outputMemory_after _ _ _ hsome (k := 8) (by decide) (by decide)
  · have hzero := (writesResult_iff ht).mp (h.1 t ht) 8 (by decide) (by decide)
    rw [show userByte (fresh.pageTable ()) fresh.memory (4 + 8) = some 1 from hone] at hzero
    cases hzero

end Zigmaos.PipeCall
