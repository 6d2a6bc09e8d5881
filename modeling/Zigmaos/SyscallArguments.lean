import Zigmaos.Boundary
import Zigmaos.SysFile

/-!
# The arguments of system calls

`sysargs.zig`, and what `sysfile.zig` and `sysproc.zig` do with the registers
before a call has its arguments. A cast that the value does not fit, or a
conversion to an enum that has no such value, is illegal. The work of a call once
it is decoded is given by `perform`. Of the log there is the number of operations
under way.
-/
namespace Zigmaos.SyscallArguments
open Memory FileSystem

inductive InputRegister
  | a0 | a1 | a2 | a3 | a4 | a5
  deriving DecidableEq

abbrev NOFILE : ℕ := 16
abbrev maxPathSize : ℕ := 128
abbrev maxNameLen : ℕ := 16

/-- The widths of the fields of `Device.ID`. -/
abbrev majorBits : ℕ := 4
abbrev minorBits : ℕ := 28

/-- What the calling process has, and `outstanding` of the log. -/
structure State (φ κ : Type) where
  trapFrame : InputRegister → UInt64
  pageTable : PageTable
  openFiles : Fin NOFILE → Option φ
  memory : PhysicalMemory
  outstanding : ℕ
  kernel : κ

/-- `ringbuf.Op` -/
inductive Op
  | close | open
  deriving DecidableEq

/-- A system call with its arguments. -/
inductive Request (φ : Type)
  | read (file : φ) (destination count : ℕ)
  | write (file : φ) (source count : ℕ)
  | close (fd : Fin NOFILE) (file : φ)
  | dup (file : φ)
  | fstat (file : φ) (stat : ℕ)
  | open (path : List UInt8) (mode : SysFile.OpenMode)
  | mknod (path : List UInt8) (major minor : ℕ)
  | kill (pid : ℕ)
  | exit (status : ℕ)
  | ringbuf (name : List UInt8) (op : Op) (address : ℕ)

inductive Syscall
  | read | write | close | dup | fstat | open | mknod | kill | exit | ringbuf
  deriving DecidableEq

/-- The outcome of decoding. -/
inductive Decoded (α : Type)
  | ok (a : α)
  | failed
  | illegal

namespace Decoded
variable {α β : Type}

def bind : Decoded α → (α → Decoded β) → Decoded β
  | .ok a, f => f a
  | .failed, _ => .failed
  | .illegal, _ => .illegal

instance : Monad Decoded where
  pure := .ok
  bind := bind

@[simp] theorem ok_bind (a : α) (f : α → Decoded β) : (Decoded.ok a >>= f) = f a := rfl

@[simp] theorem failed_bind (f : α → Decoded β) : (Decoded.failed >>= f) = .failed := rfl

@[simp] theorem illegal_bind (f : α → Decoded β) : (Decoded.illegal >>= f) = .illegal := rfl

@[simp] theorem pure_eq (a : α) : (pure a : Decoded α) = .ok a := rfl

/-- `orelse return` -/
def ofOption : Option α → Decoded α
  | some a => .ok a
  | none => .failed

end Decoded

/-- `@intCast` to an unsigned type of that many bits. -/
def intCast (bits n : ℕ) : Decoded ℕ := if n < 2 ^ bits then .ok n else .illegal

/-- `@enumFromInt` to `ringbuf.Op`. -/
def Op.enumFromInt : ℕ → Decoded Op
  | 0 => .ok .close
  | 1 => .ok .open
  | _ => .illegal

namespace State
variable {φ κ : Type} (s : State φ κ)

def getInt (register : InputRegister) : ℕ := (s.trapFrame register).toNat

def getAddress (register : InputRegister) : Option ℕ :=
  if s.getInt register = 0 then none else some (s.getInt register)

/-- The string, without its terminator. -/
def getString (register : InputRegister) (size : ℕ) : Option (List UInt8) :=
  match s.getAddress register with
  | none => none
  | some address =>
    match copyInString s.pageTable s.memory (List.replicate size 0) address 0 with
    | (.error _, _, _) => none
    | (.ok length, buffer, _) => some (buffer.take length)

def getFileAndDescriptor (register : InputRegister) : Option (Fin NOFILE × φ) :=
  if h : s.getInt register < NOFILE then
    (s.openFiles ⟨s.getInt register, h⟩).map fun file => (⟨s.getInt register, h⟩, file)
  else none

def getFile (register : InputRegister) : Option φ := (s.getFileAndDescriptor register).map Prod.snd

/-- The arguments of `file.read` and of `file.write`. -/
def fileTransfer : Decoded (φ × ℕ × ℕ) := do
  let address ← .ofOption (s.getAddress .a1)
  let number := s.getInt .a2
  let file ← .ofOption (s.getFile .a0)
  return (file, address, ← intCast 32 number)

def sysRead : Decoded (Request φ) := do
  let (file, destination, count) ← s.fileTransfer
  return .read file destination count

def sysWrite : Decoded (Request φ) := do
  let (file, source, count) ← s.fileTransfer
  return .write file source count

def sysClose : Decoded (Request φ) := do
  let (fd, file) ← .ofOption (s.getFileAndDescriptor .a0)
  return .close fd file

def sysDup : Decoded (Request φ) := do
  return .dup (← .ofOption (s.getFile .a0))

def sysFstat : Decoded (Request φ) := do
  let stat ← .ofOption (s.getAddress .a1)
  return .fstat (← .ofOption (s.getFile .a0)) stat

/-- `OpenMode.fromUsize`, with the cast that it makes. -/
def openMode (input : ℕ) : Decoded SysFile.OpenMode := do
  if input / 2 ^ 11 ≠ 0 then .failed
  else
    let raw ← intCast 11 input
    match SysFile.OpenMode.fromUsize raw with
    | .error _ => .failed
    | .ok mode => return mode

def sysOpen : Decoded (Request φ) := do
  let path ← .ofOption (s.getString .a0 maxPathSize)
  return .open path (← openMode (s.getInt .a1))

def sysMknod : Decoded (Request φ) := do
  let path ← .ofOption (s.getString .a0 maxPathSize)
  let major := s.getInt .a1
  let minor := s.getInt .a2
  if maxDeviceCount ≤ major then .failed
  else if 2 ^ minorBits - 1 ≤ minor then .failed
  else return .mknod path (← intCast majorBits major) (← intCast minorBits minor)

/-- `@truncate` to 32 bits fits every value. -/
def sysKill : Decoded (Request φ) := return .kill (s.getInt .a0 % 2 ^ 32)

def sysExit : Decoded (Request φ) := return .exit (s.getInt .a0 % 2 ^ 32)

def sysRingbuf : Decoded (Request φ) := do
  let name ← .ofOption (s.getString .a0 maxNameLen)
  let address ← .ofOption (s.getAddress .a2)
  return .ringbuf name (← Op.enumFromInt (s.getInt .a1)) address

def decode : Syscall → Decoded (Request φ)
  | .read => s.sysRead
  | .write => s.sysWrite
  | .close => s.sysClose
  | .dup => s.sysDup
  | .fstat => s.sysFstat
  | .open => s.sysOpen
  | .mknod => s.sysMknod
  | .kill => s.sysKill
  | .exit => s.sysExit
  | .ringbuf => s.sysRingbuf

def beginOperation : State φ κ := { s with outstanding := s.outstanding + 1 }

def endOperation : State φ κ := { s with outstanding := s.outstanding - 1 }

/-- What a call answers and the state it leaves, or nothing where its decoding is illegal. -/
def syscall (perform : State φ κ → Request φ → Except Unit ℕ × State φ κ) :
    Syscall → Option (Except Unit ℕ × State φ κ)
  | .ringbuf =>
    let s := s.beginOperation
    match s.decode .ringbuf with
    | .illegal => none
    | .failed => some (.error (), s.endOperation)
    | .ok request => some ((perform s request).1, (perform s request).2.endOperation)
  | call =>
    match s.decode call with
    | .illegal => none
    | .failed => some (.error (), s)
    | .ok request => some (perform s request)

/-- An argument of the call is no value of the type that it is converted to. -/
def Unrepresentable : Syscall → Prop
  | .read | .write => 2 ^ 32 ≤ s.getInt .a2
  | .open => 2 ^ 11 ≤ s.getInt .a1 ∨ s.getInt .a1 % 4 = 3
  | .mknod => 2 ^ majorBits ≤ s.getInt .a1 ∨ 2 ^ minorBits ≤ s.getInt .a2
  | .ringbuf => s.getInt .a1 ≠ 0 ∧ s.getInt .a1 ≠ 1
  | _ => False

/-- The call is decoded without illegal steps, and refuses what it cannot represent. -/
structure Total (perform : State φ κ → Request φ → Except Unit ℕ × State φ κ) (call : Syscall) :
    Prop where
  legal : s.syscall perform call ≠ none
  refuses : s.Unrepresentable call → s.syscall perform call = some (.error (), s)

/-- What a call has to be given where it checks no range. -/
def Fits : Syscall → Prop
  | .read | .write => s.getInt .a1 ≠ 0 → s.getFile .a0 ≠ none → s.getInt .a2 < 2 ^ 32
  | .ringbuf => s.getString .a0 maxNameLen ≠ none → s.getInt .a2 ≠ 0 →
    s.getInt .a1 = 0 ∨ s.getInt .a1 = 1
  | _ => True

end State

/-! ### Casts -/

theorem intCast_of_lt {bits n : ℕ} (h : n < 2 ^ bits) : intCast bits n = .ok n := if_pos h

theorem intCast_of_le {bits n : ℕ} (h : 2 ^ bits ≤ n) : intCast bits n = .illegal :=
  if_neg (Nat.not_lt.mpr h)

theorem Op.enumFromInt_of_ne {n : ℕ} (h0 : n ≠ 0) (h1 : n ≠ 1) : Op.enumFromInt n = .illegal := by
  unfold Op.enumFromInt
  split
  · exact absurd rfl h0
  · exact absurd rfl h1
  · rfl

variable {φ κ : Type} {s : State φ κ}

/-! ### One call -/

namespace State

theorem getAddress_eq_none {register : InputRegister} :
    s.getAddress register = none ↔ s.getInt register = 0 := by
  simp [getAddress]

/-- The transfer fails where the address or the file is missing; else all depends on the cast. -/
theorem fileTransfer_cases (s : State φ κ) :
    (s.getInt .a1 = 0 ∨ s.getFile .a0 = none) ∧ s.fileTransfer = .failed ∨
    ∃ file, s.getInt .a1 ≠ 0 ∧ s.getFile .a0 = some file ∧
      s.fileTransfer = intCast 32 (s.getInt .a2) >>= fun n => .ok (file, s.getInt .a1, n) := by
  unfold fileTransfer
  by_cases haddress : s.getInt .a1 = 0
  · exact .inl ⟨.inl haddress, by simp [getAddress, haddress, Decoded.ofOption]⟩
  cases hfile : s.getFile .a0 with
  | none => exact .inl ⟨.inr rfl, by simp [getAddress, haddress, Decoded.ofOption]⟩
  | some file =>
    exact .inr ⟨file, haddress, rfl, by simp [getAddress, haddress, Decoded.ofOption]⟩

/-- The transfer is illegal exactly where the count does not fit. -/
theorem fileTransfer_eq_illegal :
    s.fileTransfer = .illegal ↔
      ¬ (s.getInt .a1 ≠ 0 → s.getFile .a0 ≠ none → s.getInt .a2 < 2 ^ 32) := by
  obtain ⟨hmissing, h⟩ | ⟨file, haddress, hfile, h⟩ := s.fileTransfer_cases
  · rw [h]
    refine iff_of_false nofun (not_not.mpr fun haddress hfile => ?_)
    exact absurd hmissing (not_or.mpr ⟨haddress, hfile⟩)
  · rw [h]
    by_cases hlt : s.getInt .a2 < 2 ^ 32
    · rw [intCast_of_lt hlt]
      exact iff_of_false nofun (not_not.mpr fun _ _ => hlt)
    · rw [intCast_of_le (Nat.not_lt.mp hlt)]
      exact iff_of_true rfl fun himp => hlt (himp haddress (by rw [hfile]; nofun))

/-- With a count that does not fit there is no transfer. -/
theorem fileTransfer_ne_ok (h : 2 ^ 32 ≤ s.getInt .a2) (r : φ × ℕ × ℕ) : s.fileTransfer ≠ .ok r := by
  obtain ⟨-, heq⟩ | ⟨file, -, -, heq⟩ := s.fileTransfer_cases
  · rw [heq]
    nofun
  · rw [heq, intCast_of_le h]
    nofun

/-- The mode is checked before it is cast. -/
theorem openMode_ne_illegal (input : ℕ) : openMode input ≠ .illegal := by
  unfold openMode
  split
  · nofun
  next h =>
    have hlt : input < 2 ^ 11 := by omega
    rw [intCast_of_lt hlt]
    simp only [Decoded.ok_bind]
    split <;> nofun

theorem openMode_eq_failed {input : ℕ} (h : 2 ^ 11 ≤ input ∨ input % 4 = 3) :
    openMode input = .failed := by
  unfold openMode
  split
  · rfl
  next hlt =>
    have hlt : input < 2 ^ 11 := by omega
    have hmod : input % 4 = 3 := h.resolve_left (Nat.not_le.mpr hlt)
    rw [intCast_of_lt hlt]
    have hinvalid : SysFile.OpenMode.fromUsize input = .error .invalidAccessMode := by
      rw [SysFile.OpenMode.fromUsize, if_neg (by omega), hmod]
      rfl
    simp only [Decoded.ok_bind, hinvalid]

theorem sysOpen_cases (s : State φ κ) : s.sysOpen = .failed ∨
    ∃ path, s.sysOpen = openMode (s.getInt .a1) >>= fun mode => .ok (.open path mode) := by
  unfold sysOpen
  cases s.getString .a0 maxPathSize with
  | none => exact .inl rfl
  | some path => exact .inr ⟨path, rfl⟩

/-- The device is checked against narrower bounds than those of its fields. -/
theorem sysMknod_cases (s : State φ κ) : s.sysMknod = .failed ∨
    ∃ path, s.getInt .a1 < maxDeviceCount ∧ s.getInt .a2 < 2 ^ minorBits - 1 ∧
      s.sysMknod = .ok (.mknod path (s.getInt .a1) (s.getInt .a2)) := by
  unfold sysMknod
  cases s.getString .a0 maxPathSize with
  | none => exact .inl rfl
  | some path =>
    simp only [Decoded.ofOption, Decoded.ok_bind]
    split
    · exact .inl rfl
    split
    · exact .inl rfl
    next hmajor hminor =>
      rw [Nat.not_le] at hmajor hminor
      have hfits : s.getInt .a1 < 2 ^ majorBits := hmajor.trans (by decide)
      refine .inr ⟨path, hmajor, hminor, ?_⟩
      rw [intCast_of_lt hfits, intCast_of_lt (by omega)]
      rfl

theorem sysRingbuf_cases (s : State φ κ) :
    (s.getString .a0 maxNameLen = none ∨ s.getInt .a2 = 0) ∧ s.sysRingbuf = .failed ∨
    ∃ name, s.getString .a0 maxNameLen = some name ∧ s.getInt .a2 ≠ 0 ∧
      s.sysRingbuf = Op.enumFromInt (s.getInt .a1) >>= fun op =>
        .ok (.ringbuf name op (s.getInt .a2)) := by
  unfold sysRingbuf
  cases s.getString .a0 maxNameLen with
  | none => exact .inl ⟨.inl rfl, rfl⟩
  | some name =>
    by_cases haddress : s.getInt .a2 = 0
    · exact .inl ⟨.inr haddress, by simp [getAddress, haddress, Decoded.ofOption]⟩
    · exact .inr ⟨name, rfl, haddress, by simp [getAddress, haddress, Decoded.ofOption]⟩

theorem ofOption_ne_illegal {α : Type} (o : Option α) : Decoded.ofOption o ≠ .illegal := by
  cases o <;> nofun

/-- A bind is illegal only where one of its parts is. -/
theorem bind_eq_illegal {α β : Type} {x : Decoded α} {f : α → Decoded β} :
    x >>= f = .illegal ↔ x = .illegal ∨ ∃ a, x = .ok a ∧ f a = .illegal := by
  cases x <;> simp

/-- Decoding a call is illegal exactly where a range that is not checked is left. -/
theorem decode_eq_illegal (s : State φ κ) (call : Syscall) :
    s.decode call = .illegal ↔ ¬ s.Fits call := by
  have hnot : ∀ {α : Type} (o : Option α), Decoded.ofOption o ≠ .illegal := ofOption_ne_illegal
  cases call with
  | read =>
    rw [Fits, ← fileTransfer_eq_illegal, decode, sysRead, bind_eq_illegal]
    simp
  | write =>
    rw [Fits, ← fileTransfer_eq_illegal, decode, sysWrite, bind_eq_illegal]
    simp
  | close => simp [Fits, decode, sysClose, bind_eq_illegal, hnot]
  | dup => simp [Fits, decode, sysDup, bind_eq_illegal, hnot]
  | fstat => simp [Fits, decode, sysFstat, bind_eq_illegal, hnot]
  | «open» =>
    obtain h | ⟨path, h⟩ := s.sysOpen_cases
    · simp [Fits, decode, h]
    · simp [Fits, decode, h, bind_eq_illegal, openMode_ne_illegal]
  | mknod =>
    obtain h | ⟨path, -, -, h⟩ := s.sysMknod_cases
    · simp [Fits, decode, h]
    · simp [Fits, decode, h]
  | kill => simp [Fits, decode, sysKill]
  | exit => simp [Fits, decode, sysExit]
  | ringbuf =>
    obtain ⟨hmissing, h⟩ | ⟨name, hname, haddress, h⟩ := s.sysRingbuf_cases
    · rw [decode, h]
      refine iff_of_false nofun (not_not.mpr fun hname haddress => ?_)
      exact absurd hmissing (not_or.mpr ⟨hname, haddress⟩)
    · rw [decode, h]
      by_cases hop : s.getInt .a1 = 0 ∨ s.getInt .a1 = 1
      · refine iff_of_false ?_ (not_not.mpr fun _ _ => hop)
        obtain hop | hop := hop <;> rw [hop] <;> nofun
      · rw [not_or] at hop
        rw [Op.enumFromInt_of_ne hop.1 hop.2]
        refine iff_of_true rfl fun hfits => ?_
        have := hfits (by rw [hname]; nofun) haddress
        omega

/-- A call with an argument that cannot be represented is not performed. -/
theorem decode_ne_ok {call : Syscall} (h : s.Unrepresentable call) (request : Request φ) :
    s.decode call ≠ .ok request := by
  cases call with
  | read =>
    have hno := fileTransfer_ne_ok h
    rw [decode, sysRead]
    cases htransfer : s.fileTransfer with
    | ok r => exact absurd htransfer (hno r)
    | failed => nofun
    | illegal => nofun
  | write =>
    have hno := fileTransfer_ne_ok h
    rw [decode, sysWrite]
    cases htransfer : s.fileTransfer with
    | ok r => exact absurd htransfer (hno r)
    | failed => nofun
    | illegal => nofun
  | «open» =>
    rw [decode]
    obtain heq | ⟨path, heq⟩ := s.sysOpen_cases
    · rw [heq]
      nofun
    · rw [heq, openMode_eq_failed h]
      nofun
  | mknod =>
    rw [decode]
    obtain heq | ⟨path, hmajor, hminor, -⟩ := s.sysMknod_cases
    · rw [heq]
      nofun
    · obtain hbad | hbad := h
      · exact absurd (hmajor.trans (by decide : maxDeviceCount < 2 ^ majorBits))
          (Nat.not_lt.mpr hbad)
      · omega
  | ringbuf =>
    rw [decode]
    obtain ⟨-, heq⟩ | ⟨name, -, -, heq⟩ := s.sysRingbuf_cases
    · rw [heq]
      nofun
    · rw [heq, Op.enumFromInt_of_ne h.1 h.2]
      nofun
  | close => exact absurd h id
  | dup => exact absurd h id
  | fstat => exact absurd h id
  | kill => exact absurd h id
  | exit => exact absurd h id

/-- The operation that is begun around `sys_ringbuf` changes no argument. -/
theorem decode_beginOperation (s : State φ κ) :
    s.beginOperation.decode .ringbuf = s.decode .ringbuf := by
  have hint : s.beginOperation.getInt = s.getInt := rfl
  have haddress : s.beginOperation.getAddress = s.getAddress := rfl
  have hstring : s.beginOperation.getString = s.getString := rfl
  simp only [decode, sysRingbuf, hint, haddress, hstring]

variable {perform : State φ κ → Request φ → Except Unit ℕ × State φ κ} {call : Syscall}

theorem syscall_eq_none : s.syscall perform call = none ↔ s.decode call = .illegal := by
  cases call
  case ringbuf =>
    simp only [syscall, decode_beginOperation]
    cases s.decode .ringbuf <;> simp
  all_goals
    simp only [syscall]
    generalize State.decode s _ = r
    cases r <;> simp

/-- A call that fails in decoding changes nothing. -/
theorem syscall_of_failed (h : s.decode call = .failed) :
    s.syscall perform call = some (.error (), s) := by
  cases call
  case ringbuf => simp only [syscall, decode_beginOperation, h]; rfl
  all_goals simp only [syscall, h]

end State

/-- Decoding is total, and refuses what it cannot represent, exactly where the count of a
transfer with an address and an open file fits 32 bits, and the operation of a call of `ringbuf`
with a name and an address is one of the two that exist. -/
theorem total_iff (s : State φ κ) (perform : State φ κ → Request φ → Except Unit ℕ × State φ κ)
    (call : Syscall) : s.Total perform call ↔ s.Fits call := by
  constructor
  · intro htotal
    by_contra hfits
    exact htotal.legal (State.syscall_eq_none.mpr ((s.decode_eq_illegal call).mpr hfits))
  · intro hfits
    have hlegal : s.decode call ≠ .illegal := fun h => (s.decode_eq_illegal call).mp h hfits
    refine ⟨fun h => hlegal (State.syscall_eq_none.mp h), fun hbad => State.syscall_of_failed ?_⟩
    cases hdecode : s.decode call with
    | ok request => exact absurd hdecode (State.decode_ne_ok hbad request)
    | failed => rfl
    | illegal => exact absurd hdecode hlegal

/-- A process with one open file asks for 4294967296 bytes. -/
def longRead : State Unit Unit where
  trapFrame
    | .a1 => 4096
    | .a2 => 4294967296
    | _ => 0
  pageTable := .empty 0
  openFiles := fun fd => if fd = 0 then some () else none
  memory := fun _ => 0
  outstanding := 0
  kernel := ()

theorem longRead_not_total :
    ¬ longRead.Total (fun s _ => (.ok 0, s)) .read := by
  intro h
  refine h.legal (State.syscall_eq_none.mpr ((longRead.decode_eq_illegal .read).mpr fun hfits => ?_))
  have hlt : longRead.getInt .a2 < 2 ^ 32 := hfits (by decide) (by decide)
  exact absurd hlt (by decide)

end Zigmaos.SyscallArguments
