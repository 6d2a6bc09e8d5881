import Zigmaos.DiskBlock

/-!
# Directory entries

The 32 bytes of a `DirectoryEntry`: an inode number, the length of the name and
27 bytes of which the name fills the first ones.
-/
namespace Zigmaos
open LittleEndian

def entrySize : ℕ := 32
def maxEntryNameLength : ℕ := 27

abbrev Name := List UInt8

structure DirectoryEntry where
  inodeNumber : ℕ
  nameLength : ℕ
  nameBuffer : List UInt8
  deriving DecidableEq, Repr

namespace DirectoryEntry

/-- `DirectoryEntry{}`; its undefined name bytes are zeros here. -/
def empty : DirectoryEntry := ⟨0, 0, List.replicate maxEntryNameLength 0⟩

def ofBytes (b : List UInt8) : DirectoryEntry :=
  ⟨readLE (fun j => b.getD j 0) 4, (b.getD 4 0).toNat, (b.drop 5).take maxEntryNameLength⟩

def toBytes (e : DirectoryEntry) : List UInt8 :=
  [byteLE e.inodeNumber 0, byteLE e.inodeNumber 1, byteLE e.inodeNumber 2,
    byteLE e.inodeNumber 3, UInt8.ofNat e.nameLength] ++ e.nameBuffer

def nameSlice (e : DirectoryEntry) : Name := e.nameBuffer.take e.nameLength

def matchesName (e : DirectoryEntry) (name : Name) : Bool := name = e.nameSlice

/-- Copy `name` over the first bytes of the buffer and set length and number. -/
def withName (e : DirectoryEntry) (name : Name) (inodeNumber : ℕ) : DirectoryEntry :=
  ⟨inodeNumber, name.length, name ++ e.nameBuffer.drop name.length⟩

/-- The values of the fields that their types allow. -/
structure Fits (e : DirectoryEntry) : Prop where
  number : e.inodeNumber < 2 ^ 32
  length : e.nameLength < 256
  buffer : e.nameBuffer.length = maxEntryNameLength

theorem Fits.empty : empty.Fits := ⟨by decide, by decide, by simp [DirectoryEntry.empty]⟩

theorem Fits.withName {e : DirectoryEntry} (h : e.Fits) {name : Name} {inodeNumber : ℕ}
    (hn : name.length ≤ maxEntryNameLength) (hi : inodeNumber < 2 ^ 32) :
    (e.withName name inodeNumber).Fits where
  number := hi
  length := by simp only [maxEntryNameLength] at hn; simp only [DirectoryEntry.withName]; omega
  buffer := by simp [DirectoryEntry.withName, h.buffer]; omega

@[simp] theorem withName_inodeNumber (e : DirectoryEntry) (name : Name) (n : ℕ) :
    (e.withName name n).inodeNumber = n := rfl

@[simp] theorem nameSlice_withName (e : DirectoryEntry) (name : Name) (n : ℕ) :
    (e.withName name n).nameSlice = name := by
  simp [nameSlice, withName]

theorem length_toBytes {e : DirectoryEntry} (h : e.Fits) : e.toBytes.length = entrySize := by
  simp [toBytes, h.buffer, entrySize, maxEntryNameLength]

theorem ofBytes_toBytes {e : DirectoryEntry} (h : e.Fits) : ofBytes e.toBytes = e := by
  have hnum : readLE (fun j => e.toBytes.getD j 0) 4 = e.inodeNumber := by
    rw [readLE_congr (g := byteLE e.inodeNumber), readLE_byteLE, Nat.mod_eq_of_lt]
    · have := h.number
      norm_num at this ⊢
      exact this
    · intro j hj
      interval_cases j <;> rfl
  have hlen : ((e.toBytes).getD 4 0).toNat = e.nameLength := by
    change (UInt8.ofNat e.nameLength).toNat = e.nameLength
    rw [UInt8.toNat_ofNat']
    exact Nat.mod_eq_of_lt h.length
  have hbuf : (e.toBytes.drop 5).take maxEntryNameLength = e.nameBuffer := by
    change e.nameBuffer.take maxEntryNameLength = _
    rw [List.take_of_length_le (by rw [h.buffer])]
  simp only [ofBytes, hnum, hlen, hbuf]

theorem fits_ofBytes {b : List UInt8} (h : b.length = entrySize) : (ofBytes b).Fits where
  number := by
    have := readLE_lt (fun j => b.getD j 0) 4
    norm_num at this ⊢
    exact this
  length := (b.getD 4 0).toNat_lt
  buffer := by simp [ofBytes, h, entrySize, maxEntryNameLength]

end DirectoryEntry

end Zigmaos
