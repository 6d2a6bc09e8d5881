import Zigmaos.Transition
import Mathlib.Data.UInt
import Mathlib.Logic.Function.Basic

/-!
# The console

The input buffer of `console.zig`, `interrupt` and `read`. A step is a stretch
under the lock of the buffer: an interrupt, or what a reader does up to its
return or to `sleepOn`, from which it may go on at any time. The echo on the
uart is left out. Beside the buffer, the lines that have been typed and the bytes
that the reads have returned are kept.
-/
namespace Zigmaos.Console

def inputBufSize : ℕ := 128

def control (char : Char) : UInt8 := char.toUInt8 - '@'.toUInt8

def newline : UInt8 := 10
def carriageReturn : UInt8 := 13
def delete : UInt8 := 127
def endOfFile : UInt8 := control 'D'

structure InputBuffer where
  data : ℕ → UInt8
  readIndex : ℕ
  writeIndex : ℕ
  editIndex : ℕ

/-- What `-` and `+` of two `usize` run into. -/
inductive Fault
  | underflow | overflow
  deriving DecidableEq

def sub (a b : ℕ) : Except Fault ℕ := if b ≤ a then .ok (a - b) else .error .underflow

def add (a b : ℕ) : Except Fault ℕ := if a + b < 2 ^ 64 then .ok (a + b) else .error .overflow

/-! ## interrupt -/

/-- The loop of `control('U')`, from an `editIndex` on. -/
def killLine (data : ℕ → UInt8) (writeIndex : ℕ) : ℕ → Except Fault ℕ
  | 0 => if 0 = writeIndex then .ok 0 else .error .underflow
  | editIndex + 1 =>
    if editIndex + 1 = writeIndex then .ok (editIndex + 1)
    else if data (editIndex % inputBufSize) = newline then .ok (editIndex + 1)
    else killLine data writeIndex editIndex

/-- The last branch of `interrupt`. -/
def append (b : InputBuffer) (character : UInt8) : Except Fault InputBuffer := do
  if character = 0 then return b
  if inputBufSize ≤ (← sub b.editIndex b.readIndex) then return b
  let convertedCharacter := if character = carriageReturn then newline else character
  let data := Function.update b.data (b.editIndex % inputBufSize) convertedCharacter
  let editIndex ← add b.editIndex 1
  if convertedCharacter = newline ∨ convertedCharacter = endOfFile then
    return { b with data := data, editIndex := editIndex, writeIndex := editIndex }
  else return { b with data := data, editIndex := editIndex }

def interrupt (b : InputBuffer) (character : UInt8) : Except Fault InputBuffer :=
  if character = control 'P' then .ok b
  else if character = control 'U' then do
    return { b with editIndex := ← killLine b.data b.writeIndex b.editIndex }
  else if character = delete ∨ character = control 'H' then
    if b.editIndex = b.writeIndex then .ok b
    else do return { b with editIndex := ← sub b.editIndex 1 }
  else append b character

/-! ## read -/

inductive ReadError
  | noRunningProcess | processKilled
  deriving DecidableEq

/-- Where a stretch of `read` ends. The bytes are those that have been copied out. -/
inductive Outcome
  | returned (count : ℕ) (bytes : List UInt8) (b : InputBuffer)
  | failed (e : ReadError)
  | asleep (charsLeft : ℕ) (bytes : List UInt8)
  | fault (f : Fault)

/-- The loop of `read`. `process` tells whether a process is running, and whether
it is killed; `isMapped k` tells whether the destination takes byte `k`. -/
def readLoop (process : Option Bool) (isMapped : ℕ → Bool) (target : ℕ) :
    (charsLeft : ℕ) → InputBuffer → List UInt8 → Outcome
  | 0, b, bytes => .returned target bytes b
  | charsLeft + 1, b, bytes =>
    if b.readIndex = b.writeIndex then
      match process with
      | none => .failed .noRunningProcess
      | some true => .failed .processKilled
      | some false => .asleep (charsLeft + 1) bytes
    else
      let character := b.data (b.readIndex % inputBufSize)
      match add b.readIndex 1 with
      | .error f => .fault f
      | .ok readIndex =>
        if character = endOfFile then
          if charsLeft + 1 < target then
            -- the byte is left for the next read
            match sub readIndex 1 with
            | .error f => .fault f
            | .ok readIndex =>
              .returned (target - (charsLeft + 1)) bytes { b with readIndex := readIndex }
          else .returned (target - (charsLeft + 1)) bytes { b with readIndex := readIndex }
        else if !isMapped bytes.length then
          .returned (target - (charsLeft + 1)) bytes { b with readIndex := readIndex }
        else if character = newline then
          .returned (target - charsLeft) (bytes ++ [character]) { b with readIndex := readIndex }
        else
          readLoop process isMapped target charsLeft { b with readIndex := readIndex }
            (bytes ++ [character])

/-! ## Lines -/

/-- What has been typed: the bytes of finished lines, and the line that is edited. -/
structure Text where
  committed : List UInt8
  line : List UInt8

/-- A character is typed when `taken` of the committed bytes have been read. -/
def Text.type (t : Text) (taken : ℕ) (character : UInt8) : Text :=
  if character = 0 ∨ character = control 'P' then t
  else if character = control 'U' then { t with line := [] }
  else if character = delete ∨ character = control 'H' then { t with line := t.line.dropLast }
  else if inputBufSize ≤ t.committed.length + t.line.length - taken then t
  else if character = newline ∨ character = carriageReturn then
    ⟨t.committed ++ (t.line ++ [newline]), []⟩
  else if character = endOfFile then ⟨t.committed ++ (t.line ++ [endOfFile]), []⟩
  else { t with line := t.line ++ [character] }

/-! ## Any number of readers -/

/-- A call of `read`. -/
structure Reading where
  target : ℕ
  charsLeft : ℕ
  bytes : List UInt8
  isMapped : ℕ → Bool

def Reading.start (target : ℕ) (isMapped : ℕ → Bool) : Reading := ⟨target, target, [], isMapped⟩

structure State (π : Type) where
  inputBuffer : InputBuffer
  /-- The call that a process sleeps in. -/
  reading : π → Option Reading
  text : Text
  /-- The bytes that the reads have returned, one read after the other. -/
  delivered : List UInt8

inductive Event (π : Type)
  | interrupt (character : UInt8)
  | read (p : π) (target : ℕ) (isMapped : ℕ → Bool) (process : Option Bool)
  /-- The process has the lock again after `sleepOn`. -/
  | awake (p : π) (process : Option Bool)

section
variable {π : Type} [DecidableEq π]

def State.setReading (s : State π) (p : π) (r : Option Reading) : State π :=
  { s with reading := Function.update s.reading p r }

/-- What a process does in a call of `read` until it gives up the lock. -/
def goOn (s : State π) (p : π) (process : Option Bool) (r : Reading) : Option (State π) :=
  match readLoop process r.isMapped r.target r.charsLeft s.inputBuffer r.bytes with
  | .returned _ bytes b =>
    some { s.setReading p none with inputBuffer := b, delivered := s.delivered ++ bytes }
  | .failed _ => some (s.setReading p none)
  | .asleep charsLeft bytes => some (s.setReading p (some { r with
      charsLeft := charsLeft, bytes := bytes }))
  | .fault _ => none

def step (s : State π) : Event π → Option (State π)
  | .interrupt character =>
    match interrupt s.inputBuffer character with
    | .ok b => some { s with
        inputBuffer := b, text := s.text.type s.inputBuffer.readIndex character }
    | .error _ => none
  | .read p target isMapped process =>
    match s.reading p with
    | none => goOn s p process (.start target isMapped)
    | some _ => none
  | .awake p process =>
    match s.reading p with
    | none => none
    | some r => goOn s p process r

/-- The buffer before the first interrupt, with any data in it. -/
def initial (data : ℕ → UInt8) : State π where
  inputBuffer := ⟨data, 0, 0, 0⟩
  reading := fun _ => none
  text := ⟨[], []⟩
  delivered := []

end

end Zigmaos.Console
