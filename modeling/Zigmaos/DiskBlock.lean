import Zigmaos.LittleEndian

/-!
# Parameters and disk blocks

The constants of `param.zig` and `diskblock.zig`, and a block as the bytes of a
buffer. Block numbers are `ℕ`; what a block stores of them is 32 bits wide.
`castData` reads and stores typed fields at byte offsets of a block;
every stored field is a little-endian number, so the two accessors below are all
that the typed views of later modules need.
-/
namespace Zigmaos
open LittleEndian

def maxNumOperationBlocks : ℕ := 10
def logSize : ℕ := maxNumOperationBlocks * 3
def fsSize : ℕ := 2000
def blockSize : ℕ := 1024
def bitmapBitsPerBlock : ℕ := blockSize * 8

/-- Addition and subtraction of 32-bit numbers, which wrap. -/
def add32 (a b : ℕ) : ℕ := (a + b) % 2 ^ 32
def sub32 (a b : ℕ) : ℕ := if b ≤ a then a - b else a + 2 ^ 32 - b

theorem add32_of_lt {a b : ℕ} (h : a + b < 2 ^ 32) : add32 a b = a + b := Nat.mod_eq_of_lt h

theorem sub32_of_le {a b : ℕ} (h : b ≤ a) : sub32 a b = a - b := if_pos h

/-- The data of one buffer. -/
abbrev Block := Fin blockSize → UInt8

namespace Block

/-- Byte `k` of a block, and zero past its end. -/
def byte (b : Block) (k : ℕ) : UInt8 := if h : k < blockSize then b ⟨k, h⟩ else 0

/-- Overwrite the `len` bytes from `off` on. -/
def splice (b : Block) (off len : ℕ) (src : ℕ → UInt8) : Block :=
  fun k => if off ≤ k.val ∧ k.val < off + len then src (k.val - off) else b k

def zero : Block := fun _ => 0

theorem ext_byte {a b : Block} (h : ∀ k, k < blockSize → a.byte k = b.byte k) : a = b := by
  funext k
  simpa [byte] using h k.val k.isLt

@[simp] theorem byte_zero (k : ℕ) : zero.byte k = 0 := by
  unfold byte zero
  split <;> rfl

theorem byte_splice (b : Block) (off len : ℕ) (src : ℕ → UInt8) (k : ℕ) (hk : k < blockSize) :
    (b.splice off len src).byte k =
      if off ≤ k ∧ k < off + len then src (k - off) else b.byte k := by
  simp only [byte, hk, dif_pos, splice]

/-- Read the number stored in `width` bytes at `off`. -/
def readField (b : Block) (off width : ℕ) : ℕ := readLE (fun j => b.byte (off + j)) width

/-- Store a number in the `width` bytes at `off`. -/
def writeField (b : Block) (off width v : ℕ) : Block := b.splice off width (byteLE v)

theorem readField_lt (b : Block) (off width : ℕ) : b.readField off width < 256 ^ width :=
  readLE_lt _ _

@[simp] theorem readField_zero (off width : ℕ) : zero.readField off width = 0 := by
  simp [readField]

theorem readField_writeField (b : Block) (off width v : ℕ) (h : off + width ≤ blockSize) :
    (b.writeField off width v).readField off width = v % 256 ^ width := by
  rw [← readLE_byteLE]
  apply readLE_congr
  intro j hj
  rw [writeField, byte_splice _ _ _ _ _ (by omega), if_pos ⟨by omega, by omega⟩]
  congr 1
  omega

theorem readField_splice_disjoint (b : Block) (off len : ℕ) (src : ℕ → UInt8) (off' width : ℕ)
    (h : off' + width ≤ blockSize) (hd : off' + width ≤ off ∨ off + len ≤ off') :
    (b.splice off len src).readField off' width = b.readField off' width := by
  apply readLE_congr
  intro j hj
  rw [byte_splice _ _ _ _ _ (by omega), if_neg (by omega)]

theorem readField_writeField_disjoint (b : Block) (off width v off' width' : ℕ)
    (h : off' + width' ≤ blockSize) (hd : off' + width' ≤ off ∨ off + width ≤ off') :
    (b.writeField off width v).readField off' width' = b.readField off' width' :=
  readField_splice_disjoint b off width _ off' width' h hd

end Block

end Zigmaos
