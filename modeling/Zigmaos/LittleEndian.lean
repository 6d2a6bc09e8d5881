import Mathlib.Tactic
import Zigmaos.FinNumerals

/-!
# Little-endian numbers in byte strings

A byte string is a function from positions to bytes. `readLE` reads a number of
a given width in bytes and `byteLE` gives the bytes that store one; reading back
what was stored gives the number modulo `256 ^ width`.
-/
namespace Zigmaos.LittleEndian

/-- Read `width` bytes, the least significant first. -/
def readLE (byte : ℕ → UInt8) : ℕ → ℕ
  | 0 => 0
  | width + 1 => (byte 0).toNat + 256 * readLE (fun j => byte (j + 1)) width

/-- Byte `j` of the number `v`. -/
def byteLE (v j : ℕ) : UInt8 := UInt8.ofNat (v / 256 ^ j)

theorem readLE_congr {f g : ℕ → UInt8} {width : ℕ} (h : ∀ j, j < width → f j = g j) :
    readLE f width = readLE g width := by
  induction width generalizing f g with
  | zero => rfl
  | succ width ih =>
    simp only [readLE]
    rw [h 0 (by omega), ih (fun j hj => h (j + 1) (by omega))]

theorem readLE_lt (f : ℕ → UInt8) (width : ℕ) : readLE f width < 256 ^ width := by
  induction width generalizing f with
  | zero => simp [readLE]
  | succ width ih =>
    have h0 : (f 0).toNat < 256 := (f 0).toNat_lt
    have hs := ih (fun j => f (j + 1))
    simp only [readLE, pow_succ]
    omega

theorem byteLE_succ (v j : ℕ) : byteLE v (j + 1) = byteLE (v / 256) j := by
  simp only [byteLE, pow_succ, Nat.div_div_eq_div_mul, Nat.mul_comm]

theorem readLE_byteLE (v width : ℕ) : readLE (byteLE v) width = v % 256 ^ width := by
  induction width generalizing v with
  | zero => simp [readLE, Nat.mod_one]
  | succ width ih =>
    have h0 : (byteLE v 0).toNat = v % 256 := by simp [byteLE]
    simp only [readLE, byteLE_succ, ih, h0]
    rw [pow_succ', Nat.mod_mul]

@[simp] theorem readLE_zero (width : ℕ) : readLE (fun _ => 0) width = 0 := by
  induction width with
  | zero => rfl
  | succ width ih => simp [readLE, ih]

end Zigmaos.LittleEndian
