import Zigmaos.InodeArrays
import Zigmaos.DirectoryContent

/-!
# Looking up a name in the blocks of a directory

`lookupChild` of `directory.zig` over the blocks of an inode. It finds what a scan of
the bytes of the directory finds, if the blocks of the directory are there or can be
allocated; where a block is missing and none is free it panics.
-/
namespace Zigmaos.InodeBlocks
open State
open DirectoryContent (scan slot slotCount Aligned)

inductive LookupPanic
  | block (p : Panic)
  | dirlookupReadFailed
  | didNotReadEnoughBytes
  deriving DecidableEq

/-- The test of `lookupChild` for an entry. -/
def Matches (name : Name) (e : DirectoryEntry) : Bool := e.inodeNumber ≠ 0 && e.matchesName name

namespace State

/-- The loop of `lookupChild`: the offset and the entry that it finds. -/
def lookupLoop (n : ℕ) (name : Name) :
    (fuel offset : ℕ) → State → Except LookupPanic (Option (ℕ × DirectoryEntry) × State)
  | 0, _, s => .ok (none, s)
  | fuel + 1, offset, s =>
    if offset < (s.inodes n).size then
      match s.read n (fun _ => true) offset entrySize with
      | .error p => .error (.block p)
      | .ok (.error _, _) => .error .dirlookupReadFailed
      | .ok (.ok bytes, s) =>
        if bytes.length ≠ entrySize then .error .didNotReadEnoughBytes
        else if Matches name (.ofBytes bytes) then .ok (some (offset, .ofBytes bytes), s)
        else lookupLoop n name fuel (offset + entrySize) s
    else .ok (none, s)

/-- A turn for each entry below the size and one at the end. -/
def lookupChild (s : State) (n : ℕ) (name : Name) :
    Except LookupPanic (Option (ℕ × DirectoryEntry) × State) :=
  s.lookupLoop n name ((s.inodes n).size / entrySize + 1) 0

end State

variable {live : ℕ → Prop} {s s' : State} {n : ℕ}

/-- The entry at a slot is read whole. -/
theorem read_slot (h : Sound live n s) (hn : live n) (ha : Aligned (s.file n))
    (hread : Readable s n (s.inodes n).size) {k : ℕ} (hk : entrySize * k < (s.inodes n).size) :
    ∃ s' bytes, s.read n (fun _ => true) (entrySize * k) entrySize = .ok (.ok bytes, s') ∧
      bytes.length = entrySize ∧ DirectoryEntry.ofBytes bytes = slot (s.file n) k ∧
      Unchanged live n s s' ∧ Readable s' n (s.inodes n).size := by
  have hsmall : maxFileBlockCount * blockSize < 2 ^ 32 := by decide
  have hsize := h.size
  unfold Aligned at ha
  rw [length_file] at ha
  have hfit : entrySize * k + entrySize ≤ (s.inodes n).size := by
    simp only [entrySize] at *
    omega
  obtain ⟨s', hloop, hsame, hread'⟩ :=
    readLoop_full h.wellFormed hn h.size hread hfit []
  refine ⟨s', s.bytesAt n (entrySize * k) entrySize, ?_, ?_, ?_, hsame, hread'⟩
  · rw [State.read, if_neg (by omega), if_neg (by omega), if_neg (by omega), hloop, List.nil_append]
  · rw [State.bytesAt, List.length_map, List.length_range]
  · rw [slot, file_part s n (by omega) (show entrySize * k + entrySize =
      min (s.inodes n).size (entrySize * k + entrySize) by omega)]

/-- The loop ends as the scan of the bytes does. -/
theorem lookupLoop_scan (h : Sound live n s) (hn : live n) (ha : Aligned (s.file n))
    (hread : Readable s n (s.inodes n).size) (name : Name) (fuel k : ℕ) (entry : DirectoryEntry) :
    ∃ s' offset e b, scan LookupPanic.dirlookupReadFailed .didNotReadEnoughBytes (Matches name)
        (s.file n) fuel (entrySize * k) entry = .ok (offset, e, b) ∧
      s.lookupLoop n name fuel (entrySize * k) = .ok (if b then some (offset, e) else none, s') := by
  induction fuel generalizing s k entry with
  | zero => exact ⟨s, entrySize * k, entry, false, rfl, rfl⟩
  | succ fuel ih =>
    by_cases hk : entrySize * k < (s.inodes n).size
    · obtain ⟨s₁, bytes, hbytes, hlen, hslot, hsame, hread₁⟩ := read_slot h hn ha hread hk
      have hsmall : maxFileBlockCount * blockSize < 4294967296 := by decide
      have hsize := h.size
      have hcontent : DirectoryContent.read (s.file n) (entrySize * k) entrySize =
          some (((s.file n).drop (entrySize * k)).take entrySize) := by
        unfold Aligned at ha
        rw [length_file] at ha
        rw [DirectoryContent.read, length_file, if_neg (by omega), if_neg]
        simp only [entrySize] at *
        omega
      have hlen' : (((s.file n).drop (entrySize * k)).take entrySize).length = entrySize := by
        unfold Aligned at ha
        rw [length_file] at ha
        rw [List.length_take, List.length_drop, length_file]
        simp only [entrySize] at *
        omega
      have hscan : scan LookupPanic.dirlookupReadFailed .didNotReadEnoughBytes (Matches name)
          (s.file n) (fuel + 1) (entrySize * k) entry =
            if Matches name (slot (s.file n) k) then
              .ok (entrySize * k, slot (s.file n) k, true)
            else scan LookupPanic.dirlookupReadFailed .didNotReadEnoughBytes (Matches name)
              (s.file n) fuel (entrySize * (k + 1)) (slot (s.file n) k) := by
        rw [scan, length_file, if_pos hk, hcontent]
        simp only [hlen', ne_eq, not_true_eq_false, if_false]
        rfl
      have hloop : s.lookupLoop n name (fuel + 1) (entrySize * k) =
          if Matches name (slot (s.file n) k) then
            .ok (some (entrySize * k, slot (s.file n) k), s₁)
          else s₁.lookupLoop n name fuel (entrySize * (k + 1)) := by
        rw [State.lookupLoop, if_pos hk, hbytes]
        simp only [hlen, ne_eq, not_true_eq_false, if_false, hslot]
        rfl
      by_cases hm : Matches name (slot (s.file n) k) = true
      · rw [hscan, hloop, if_pos hm, if_pos hm]
        exact ⟨s₁, _, _, true, rfl, rfl⟩
      · rw [hscan, hloop, if_neg hm, if_neg hm]
        have hfile := hsame.file
        have hsize₁ := hsame.sizes
        obtain ⟨s', offset, e, b, hscan', hloop'⟩ :=
          ih ⟨hsame.wellFormed, by rw [hsize₁]; exact hsize⟩ (by rw [hfile]; exact ha)
            (by rw [hsize₁]; exact hread₁) (k + 1) (slot (s.file n) k)
        rw [hfile] at hscan'
        exact ⟨s', offset, e, b, hscan', hloop'⟩
    · refine ⟨s, entrySize * k, entry, false, ?_, ?_⟩
      · rw [scan, length_file, if_neg hk]
      · rw [State.lookupLoop, if_neg hk]
        rfl

/-- The first entry with the name, if there is one. -/
theorem lookupChild_slot (h : Sound live n s) (hn : live n) (ha : Aligned (s.file n))
    (hread : Readable s n (s.inodes n).size) (name : Name) :
    ∃ r s', s.lookupChild n name = .ok (r, s') ∧
      ((r = none ∧ ∀ k < slotCount (s.file n), Matches name (slot (s.file n) k) = false) ∨
        ∃ j < slotCount (s.file n), r = some (entrySize * j, slot (s.file n) j) ∧
          Matches name (slot (s.file n) j) = true ∧
          ∀ k < j, Matches name (slot (s.file n) k) = false) := by
  obtain ⟨s', offset, e, b, hscan, hloop⟩ := lookupLoop_scan h hn ha hread name
    ((s.inodes n).size / entrySize + 1) 0 .empty
  have hfuel : (s.file n).length < entrySize * (0 + ((s.inodes n).size / entrySize + 1)) := by
    rw [length_file]
    simp only [entrySize]
    omega
  obtain ⟨j, -, hoffset, hbefore, hfound, hend, -⟩ := DirectoryContent.scan_ok hscan hfuel
  refine ⟨_, s', hloop, ?_⟩
  cases b with
  | false => exact .inl ⟨rfl, fun k hk => (hbefore k (Nat.zero_le k) (hk.trans_le (hend rfl).1)).2⟩
  | true =>
    obtain ⟨hj, rfl, hm⟩ := hfound rfl
    exact .inr ⟨j, hj, by rw [hoffset]; rfl, hm, fun k hk => (hbefore k (Nat.zero_le k) hk).2⟩

/-! ## A directory without the block of its last entries -/

theorem allocate_of_full (h : s.freeBlocks = ∅) : s.allocate = .ok (none, s) := by
  have hnone : (List.range ((s.superSize + (bitmapBitsPerBlock - 1)) / bitmapBitsPerBlock)).findSome?
      (fun k => s.findFree (k * bitmapBitsPerBlock)) = none := by
    refine List.findSome?_eq_none_iff.mpr fun k _ => ?_
    rw [State.findFree, Option.map_eq_none_iff, List.find?_eq_none]
    intro i hi hfree
    have hlt := (Nat.lt_min.mp (List.mem_range.mp hi)).2
    have hmem : k * bitmapBitsPerBlock + i ∈ s.freeBlocks :=
      mem_freeBlocks.mpr ⟨by omega, by simpa using hfree⟩
    rw [h] at hmem
    exact absurd hmem (Finset.notMem_empty _)
  rw [State.allocate, hnone]

theorem getBlock_of_full (h : s.freeBlocks = ∅) {index : ℕ} (hd : index < directPointerCount)
    (hzero : s.blockEntry n index = 0) : s.getBlock n index = .ok (none, s) := by
  rw [State.blockEntry, dif_pos hd] at hzero
  rw [State.getBlock, dif_pos hd, State.pointerBlock, State.getDiskBlockDirect, if_pos hzero,
    allocate_of_full h]

/-- An entry whose block is there. -/
theorem read_slot_there (h : Sound live n s) (hn : live n) {k : ℕ}
    (hk : entrySize * k + entrySize ≤ (s.inodes n).size)
    (hne : s.blockEntry n (entrySize * k / blockSize) ≠ 0) :
    ∃ bytes, s.read n (fun _ => true) (entrySize * k) entrySize = .ok (.ok bytes, s) ∧
      bytes.length = entrySize ∧ DirectoryEntry.ofBytes bytes = slot (s.file n) k := by
  have hsmall : maxFileBlockCount * blockSize < 2 ^ 32 := by decide
  have hsize := h.size
  have hget := getBlock_of_blockEntry hne
  have hcount : bytesThisBlock (entrySize * k) entrySize = entrySize := by
    simp only [bytesThisBlock, entrySize, blockSize]
    omega
  have hloop : s.readLoop n (fun _ => true) (entrySize * k) [] entrySize =
      .ok (.ok (s.bytesAt n (entrySize * k) entrySize), s) := by
    have hbytes := getBlock_bytes h.wellFormed hn entrySize hget
    rw [hcount] at hbytes
    rw [State.readLoop, if_neg (by decide), hget]
    simp only [if_true, hcount, hbytes, List.nil_append, Nat.sub_self]
    rw [State.readLoop, if_pos rfl]
  refine ⟨s.bytesAt n (entrySize * k) entrySize, ?_, ?_, ?_⟩
  · rw [State.read, if_neg (by omega), if_neg (by omega), if_neg (by omega), hloop]
  · rw [State.bytesAt, List.length_map, List.length_range]
  · rw [slot, file_part s n (by omega) (show entrySize * k + entrySize =
      min (s.inodes n).size (entrySize * k + entrySize) by omega)]

/-- Behind the last block that is there the loop panics, when no block is free. -/
theorem lookupLoop_panics (h : Sound live n s) (hn : live n) (hfull : s.freeBlocks = ∅)
    {stop : ℕ} (hstop : entrySize * stop + entrySize ≤ (s.inodes n).size)
    (hthere : ∀ k < stop, s.blockEntry n (entrySize * k / blockSize) ≠ 0)
    (hd : entrySize * stop / blockSize < directPointerCount)
    (hzero : s.blockEntry n (entrySize * stop / blockSize) = 0) {name : Name}
    (hname : ∀ k < stop, Matches name (slot (s.file n) k) = false) (count : ℕ) {k fuel : ℕ}
    (hk : k + count = stop) (hfuel : count < fuel) :
    s.lookupLoop n name fuel (entrySize * k) = .error .didNotReadEnoughBytes := by
  have hsmall : maxFileBlockCount * blockSize < 2 ^ 32 := by decide
  have hsize := h.size
  obtain ⟨fuel, rfl⟩ := Nat.exists_eq_succ_of_ne_zero (Nat.ne_zero_of_lt hfuel)
  induction count generalizing k fuel with
  | zero =>
    obtain rfl : k = stop := hk
    have hread : s.read n (fun _ => true) (entrySize * k) entrySize = .ok (.ok [], s) := by
      rw [State.read, if_neg (by omega), if_neg (by omega), if_neg (by omega), State.readLoop,
        if_neg (by decide), getBlock_of_full hfull hd hzero]
    rw [State.lookupLoop, if_pos (by simp only [entrySize] at *; omega), hread]
    rfl
  | succ count ih =>
    have hmono : entrySize * k ≤ entrySize * stop := Nat.mul_le_mul_left _ (by omega)
    obtain ⟨bytes, hread, hlen, hslot⟩ := read_slot_there h hn (by omega) (hthere k (by omega))
    have hpos : entrySize * k < (s.inodes n).size := by
      simp only [entrySize] at *
      omega
    obtain ⟨fuel, rfl⟩ := Nat.exists_eq_succ_of_ne_zero (show fuel ≠ 0 by omega)
    rw [State.lookupLoop, if_pos hpos, hread]
    simp only [hlen, ne_eq, not_true_eq_false, if_false, hslot, hname k (by omega),
      Bool.false_eq_true]
    exact ih (k := k + 1) (by omega) fuel (by omega)

end Zigmaos.InodeBlocks
