import Mathlib.Data.List.TakeWhile
import Zigmaos.MakeFilesystemContents
import Zigmaos.DirectoryLookup

/-!
# The image that the kernel mounts

On the image that `make` writes, `Inode.read` returns the bytes of the source files,
`lookupChild` finds their names in the root, and the free map and the pointers name
the same blocks. Where the entries of the root end with a block, its rounded size covers
one that is missing, and when no block is free the lookup of another name panics.
-/
namespace Zigmaos.MakeFilesystem
open LittleEndian
open InodeBlocks (State WellFormed Sound Readable Slot Matches directPointerCount
  indirectPointerBlockIndex indirectPointerCount maxFileBlockCount)
open DirectoryContent (slot slotCount Aligned)

/-! ## The free map -/

/-- `BlockBitmap.isUsed` -/
def isUsed (bytes : Block) (bitIndex : ℕ) : Bool :=
  bytes.byte (bitIndex / 8) &&& UInt8.ofNat (2 ^ (bitIndex % 8)) ≠ 0

theorem and_bit_ne_zero (x : UInt8) {i : ℕ} (hi : i < 8) :
    (x &&& UInt8.ofNat (2 ^ i) ≠ 0) ↔ x.toNat.testBit i = true := by
  have hbit : (UInt8.ofNat (2 ^ i)).toNat = 2 ^ i := by
    rw [UInt8.toNat_ofNat']
    exact Nat.mod_eq_of_lt (Nat.pow_lt_pow_right (by decide) hi)
  rw [ne_eq, ← UInt8.toNat_inj, UInt8.toNat_and, hbit, UInt8.toNat_zero, not_iff_comm]
  refine ⟨fun h => ?_, fun h hset => ?_⟩
  · refine Nat.eq_of_testBit_eq fun k => ?_
    rw [Nat.testBit_and, Nat.testBit_two_pow, Nat.zero_testBit]
    by_cases hk : i = k
    · rw [← hk, Bool.eq_false_iff.mpr h, Bool.false_and]
    · rw [decide_eq_false hk, Bool.and_false]
  · have hbits := congrArg (Nat.testBit · i) h
    simp only [Nat.testBit_and, Nat.testBit_two_pow_self, Nat.zero_testBit, hset,
      Bool.and_self, Bool.true_eq_false] at hbits

theorem isUsed_setBit (bytes : Block) {i j : ℕ} (hi : i < blockSize * 8) (hj : j < blockSize * 8) :
    isUsed (Image.setBit bytes i) j = (decide (j = i) || isUsed bytes j) := by
  have hbyte : j / 8 < blockSize := by omega
  have hbit : (UInt8.ofNat (2 ^ (i % 8))).toNat = 2 ^ (i % 8) := by
    rw [UInt8.toNat_ofNat']
    exact Nat.mod_eq_of_lt (Nat.pow_lt_pow_right (by decide) (Nat.mod_lt _ (by decide)))
  have hmod : j % 8 < 8 := Nat.mod_lt _ (by decide)
  rw [Bool.eq_iff_iff, Bool.or_eq_true, decide_eq_true_eq]
  unfold isUsed
  rw [decide_eq_true_eq, decide_eq_true_eq, and_bit_ne_zero _ hmod, and_bit_ne_zero _ hmod,
    Image.setBit, Block.byte_splice _ _ _ _ _ hbyte]
  by_cases heq : j / 8 = i / 8
  · rw [if_pos (by omega), UInt8.toNat_or, Nat.testBit_or, hbit, Nat.testBit_two_pow, heq,
      Bool.or_eq_true, decide_eq_true_eq, or_comm]
    refine or_congr_left ⟨fun h => ?_, fun h => by rw [h]⟩
    omega
  · rw [if_neg (by omega)]
    refine ⟨.inr, fun h => h.resolve_left ?_⟩
    rintro rfl
    exact heq rfl

/-- The bits that `balloc` sets. -/
theorem isUsed_balloc {used : ℕ} (hused : used ≤ blockSize * 8) {j : ℕ} (hj : j < blockSize * 8) :
    isUsed ((List.range used).foldl Image.setBit .zero) j = decide (j < used) := by
  induction used with
  | zero =>
    rw [List.range_zero, List.foldl_nil, isUsed, Block.byte_zero]
    simp
  | succ used ih =>
    rw [List.range_succ, List.foldl_concat, isUsed_setBit _ (by omega) hj, ih (by omega),
      Bool.eq_iff_iff]
    simp only [Bool.or_eq_true, decide_eq_true_eq]
    omega

/-! ## The slots of the root -/

theorem slot_entry {entries : List (Name × ℕ)}
    (hfits : ∀ e ∈ entries, e.1.length ≤ maxEntryNameLength ∧ e.2 < ninodes) (tail : List UInt8)
    {k : ℕ} {e : Name × ℕ} (hk : entries[k]? = some e) :
    slot (entries.flatMap (fun entry => Image.entryBytes entry.1 entry.2) ++ tail) k =
      DirectoryEntry.empty.withName e.1 e.2 := by
  induction entries generalizing k with
  | nil => exact absurd hk nofun
  | cons first rest ih =>
    obtain ⟨hname, hnumber⟩ := hfits first List.mem_cons_self
    have hlen := Image.entryBytes_length hname hnumber
    rw [List.flatMap_cons, List.append_assoc]
    cases k with
    | zero =>
      obtain rfl : first = e := Option.some.inj hk
      rw [slot, Nat.mul_zero, List.drop_zero, List.take_append_of_le_length hlen.ge,
        List.take_of_length_le hlen.le, Image.entryBytes]
      exact DirectoryEntry.ofBytes_toBytes
        (DirectoryEntry.Fits.empty.withName hname (hnumber.trans (by decide)))
    | succ k =>
      rw [← ih (fun e he => hfits e (List.mem_cons_of_mem _ he)) hk, slot, slot, Nat.mul_succ,
        Nat.add_comm, ← List.drop_drop, List.drop_left' hlen]

/-- What an entry of the root can be. -/
theorem rootEntries_fit {names : List Name} (hnames : ∀ name ∈ names,
    name.length ≤ maxEntryNameLength) (hcount : names.length + 2 ≤ ninodes) {e : Name × ℕ}
    (he : e ∈ rootEntries names) :
    e.1.length ≤ maxEntryNameLength ∧ e.2 < ninodes ∧ e.2 ≠ 0 := by
  simp only [rootEntries, List.mem_cons] at he
  obtain rfl | rfl | he := he
  · exact ⟨by decide, by decide, by decide⟩
  · exact ⟨by decide, by decide, by decide⟩
  · obtain ⟨hle, hlt, heq⟩ := List.mem_zipIdx he
    refine ⟨?_, by omega, by omega⟩
    rw [heq]
    exact hnames _ (List.getElem_mem _)

/-! ## The image once it is finished -/

namespace Image

variable {img image : Image} {files : List (Name × List UInt8)} {m : ℕ}

theorem Finished.addrs (h : Finished img image) (hm : m < ninodes) :
    (image.inode m).addrs = (img.inode m).addrs := by
  rw [h.inode_eq m hm]
  split
  next hroot => rw [hroot]
  · rfl

theorem Finished.target_eq (h : Finished img image) (hb : Built img) (hm : m < ninodes)
    (slot : Slot) : image.mount.target m slot = img.mount.target m slot := by
  have haddrs : (image.mount.inodes m).addrs = (img.mount.inodes m).addrs := by
    rw [mount_inodes hm, mount_inodes hm]
    exact h.addrs hm
  refine State.target_congr haddrs (fun hne => ?_) slot
  exact h.sectors_eq _ (hb.wellFormed.target_used m (.pointer _) hm hne).1

theorem Finished.blockEntry_eq (h : Finished img image) (hb : Built img) (hm : m < ninodes) (i : ℕ) :
    image.mount.blockEntry m i = img.mount.blockEntry m i :=
  InodeBlocks.blockEntry_congr (fun slot => h.target_eq hb hm slot) i

theorem Finished.wellFormed (h : Finished img image) (hb : Built img) :
    WellFormed (· < ninodes) image.mount :=
  hb.wellFormed.congr rfl rfl (by simp only [mount, h.freeblock_eq])
    (fun _ slot hm => h.target_eq hb hm slot)

theorem Finished.fileByte_eq (h : Finished img image) (hb : Built img) (hm : m < ninodes) (k : ℕ) :
    image.mount.fileByte m k = img.mount.fileByte m k := by
  unfold State.fileByte State.held
  rw [h.blockEntry_eq hb hm]
  split
  · rfl
  next hne =>
    have hlt := State.index_lt_of_blockEntry hne
    rw [State.blockEntry_eq hlt] at hne ⊢
    exact congrArg (fun b : Block => b.byte _)
      (h.sectors_eq _ (hb.wellFormed.target_used m _ hm hne).1)

theorem Finished.file_eq (h : Finished img image) (hb : Built img) (hm : m < ninodes)
    (hroot : m ≠ rootInodeNumber) : image.mount.file m = img.mount.file m := by
  unfold State.file State.bytesAt
  rw [mount_inodes hm, mount_inodes hm, h.inode_eq m hm, if_neg hroot]
  exact List.map_congr_left fun k _ => h.fileByte_eq hb hm _

/-- The size of the root is rounded. -/
theorem Finished.root_size (h : Finished img image) (hl : Laid img files) :
    (image.mount.inodes rootInodeNumber).size =
      ((files.length + 2) * entrySize / blockSize + 1) * blockSize := by
  have hsize := hl.root_length
  rw [length_file img rootInodeNumber_lt] at hsize
  rw [mount_inodes rootInodeNumber_lt, h.inode_eq _ rootInodeNumber_lt, if_pos rfl, hsize]
  rfl

/-- The root ends with zeros. -/
theorem Finished.root_eq (h : Finished img image) (hl : Laid img files) :
    image.mount.file rootInodeNumber = rootBytes (files.map Prod.fst) ++
      List.replicate (((files.length + 2) * entrySize / blockSize + 1) * blockSize -
        (files.length + 2) * entrySize) 0 := by
  have hroot := rootInodeNumber_lt
  have hlength := hl.root_length
  rw [hl.root_eq] at hlength
  have hsize := hl.root_length
  rw [length_file img hroot] at hsize
  refine List.ext_getElem ?_ fun k hk hk' => ?_
  · rw [InodeBlocks.length_file, h.root_size hl, List.length_append, hlength, List.length_replicate]
    simp only [blockSize]
    omega
  · rw [InodeBlocks.getElem_file, h.fileByte_eq hl.counted.toBuilt hroot]
    by_cases hlt : k < (files.length + 2) * entrySize
    · have hlt' : k < (img.mount.file rootInodeNumber).length := by rw [hl.root_length]; exact hlt
      rw [List.getElem_append_left (by rw [hlength]; exact hlt), ← InodeBlocks.getElem_file _ _ hlt']
      simp only [hl.root_eq]
    · rw [List.getElem_append_right (by rw [hlength]; omega), List.getElem_replicate]
      exact hl.counted.zeroEnd _ hroot k (by omega)

end Image

/-- The super block that the kernel reads. -/
def Image.initGlobal (image : Image) : SuperBlock where
  magic := (image.sectors 1).readField 0 4
  size := (image.sectors 1).readField 4 4
  nblocks := (image.sectors 1).readField 8 4
  ninodes := (image.sectors 1).readField 12 4
  nlog := (image.sectors 1).readField 16 4
  logstart := (image.sectors 1).readField 20 4
  inodestart := (image.sectors 1).readField 24 4
  bmapstart := (image.sectors 1).readField 28 4

/-- What the kernel finds on the image. -/
structure Agrees (image : Image) (files : List (Name × List UInt8)) : Prop where
  superBlock_eq : image.initGlobal = superBlock
  root : (image.mount.inodes rootInodeNumber).type = .directory
  file : ∀ i f, files[i]? = some f →
    (image.mount.inodes (i + 2)).type = .file ∧
    (image.mount.inodes (i + 2)).size = f.2.length ∧
    ∀ offset count, ∃ s, image.mount.perform (i + 2) (.read offset count) =
      .ok (((InodeBlocks.Call.read offset count).apply f.2).1, s)
  lookup : ∀ name, ∃ found s, image.mount.lookupChild rootInodeNumber name = .ok (found, s) ∧
    found.map (fun entry => entry.2.inodeNumber) =
      ((rootEntries (files.map Prod.fst)).find? (fun entry => entry.1 = name)).map Prod.snd
  freeMap : ∀ b < bitmapBitsPerBlock,
    isUsed (image.sectors (superBlock.getFreeMapBlockNumber b)) (b % bitmapBitsPerBlock) =
      decide (b < image.freeblock)
  pointer : ∀ n < ninodes, ∀ slot, image.mount.target n slot ≠ 0 →
    nmeta ≤ image.mount.target n slot ∧ image.mount.target n slot < image.freeblock ∧
    ∀ m < ninodes, ∀ slot', image.mount.target m slot' = image.mount.target n slot →
      m = n ∧ slot' = slot

namespace Image

variable {img image : Image} {files : List (Name × List UInt8)}

theorem Finished.sound (h : Finished img image) (hb : Built img) {n : ℕ} (hn : n < ninodes)
    (hroot : n ≠ rootInodeNumber) : Sound (· < ninodes) n image.mount := by
  refine ⟨h.wellFormed hb, ?_⟩
  have hle := (hb.filled n hn).le
  rw [mount_inodes hn, h.inode_eq n hn, if_neg hroot]
  exact hle

theorem Finished.there (h : Finished img image) (hb : Built img) {n : ℕ} (hn : n < ninodes)
    (hroot : n ≠ rootInodeNumber) {i : ℕ} (hi : i * blockSize < (image.mount.inodes n).size) :
    image.mount.blockEntry n i ≠ 0 := by
  rw [h.blockEntry_eq hb hn]
  rw [mount_inodes hn, h.inode_eq n hn, if_neg hroot] at hi
  exact (hb.filled n hn i).mpr hi

theorem Finished.reads (h : Finished img image) (hl : Laid img files)
    (hcount : files.length + 2 ≤ ninodes) {i : ℕ} {f : Name × List UInt8}
    (hf : files[i]? = some f) :
    (image.mount.inodes (i + 2)).type = .file ∧
    (image.mount.inodes (i + 2)).size = f.2.length ∧
    ∀ offset count, ∃ s, image.mount.perform (i + 2) (.read offset count) =
      .ok (((InodeBlocks.Call.read offset count).apply f.2).1, s) := by
  have hi : i < files.length := (List.getElem?_eq_some_iff.mp hf).1
  have hlt : i + 2 < ninodes := by omega
  have hroot : i + 2 ≠ rootInodeNumber := by
    simp only [rootInodeNumber]
    omega
  have hb := hl.counted.toBuilt
  have hfile : image.mount.file (i + 2) = f.2 := by
    rw [h.file_eq hb hlt hroot, hl.file_eq i f hf]
  refine ⟨?_, ?_, fun offset count => ?_⟩
  · rw [mount_inodes hlt, h.inode_eq _ hlt, if_neg hroot, DiskInode.toKernel, hl.file_type i hi]
    rfl
  · rw [← InodeBlocks.length_file, hfile]
  · have hroom : (InodeBlocks.Call.read offset count).Room image.mount (i + 2) :=
      .inl fun j hj => h.there hb hlt hroot (hj.trans_le (min_le_left _ _))
    obtain ⟨s, hread, -⟩ := InodeBlocks.perform_read (h.sound hb hlt hroot) hlt hroom
    rw [hfile] at hread
    exact ⟨s, hread⟩

/-! ### Looking up a name -/

theorem Finished.root_sound (h : Finished img image) (hl : Laid img files)
    (hcount : files.length + 2 ≤ ninodes) : Sound (· < ninodes) rootInodeNumber image.mount := by
  refine ⟨h.wellFormed hl.counted.toBuilt, ?_⟩
  rw [h.root_size hl]
  simp only [ninodes, entrySize, maxFileBlockCount, directPointerCount, indirectPointerCount,
    blockSize] at *
  omega

theorem Finished.root_aligned (h : Finished img image) (hl : Laid img files) :
    Aligned (image.mount.file rootInodeNumber) := by
  rw [Aligned, InodeBlocks.length_file, h.root_size hl]
  simp only [entrySize, blockSize]
  omega

/-- The blocks of the root are those of its entries. -/
theorem Finished.root_filled (h : Finished img image) (hl : Laid img files) (i : ℕ) :
    image.mount.blockEntry rootInodeNumber i ≠ 0 ↔
      i * blockSize < (files.length + 2) * entrySize := by
  have hroot := rootInodeNumber_lt
  rw [h.blockEntry_eq hl.counted.toBuilt hroot, hl.counted.filled _ hroot, ← length_file img hroot,
    hl.root_length]

theorem Finished.freeBlocks_eq (h : Finished img image) (hl : Laid img files) :
    image.mount.freeBlocks = Finset.Ico (usedBlocks files) fsSize := by
  ext b
  rw [State.mem_freeBlocks, Finset.mem_Ico]
  simp only [mount, h.freeblock_eq, hl.freeblock_eq, decide_eq_false_iff_not]
  omega

/-- The root can be read whole, unless its last block is missing and none is free. -/
theorem Finished.root_readable (h : Finished img image) (hl : Laid img files)
    (hcount : files.length + 2 ≤ ninodes)
    (hok : (files.length + 2) % 32 ≠ 0 ∨ usedBlocks files < fsSize) :
    Readable image.mount rootInodeNumber (image.mount.inodes rootInodeNumber).size := by
  rw [h.root_size hl]
  obtain hmod | hfree := hok
  · refine .inl fun i hi => (h.root_filled hl i).mpr ?_
    simp only [entrySize, blockSize] at *
    omega
  · refine .inr ⟨Nat.one_pos, ?_⟩
    have hmissing : image.mount.missing rootInodeNumber
        (((files.length + 2) * entrySize / blockSize + 1) * blockSize) ⊆
          {(files.length + 2) * entrySize / blockSize} := by
      intro i hi
      obtain ⟨hlt, hzero⟩ := State.mem_missing.mp hi
      have hge := mt (h.root_filled hl i).mpr (not_not.mpr hzero)
      rw [Finset.mem_singleton]
      simp only [entrySize, blockSize] at *
      omega
    have hone := Finset.card_le_card hmissing
    have hnone : image.mount.missingIndirect rootInodeNumber
        (((files.length + 2) * entrySize / blockSize + 1) * blockSize) = 0 := by
      refine if_neg fun hboth => ?_
      have hlt := hboth.1
      simp only [ninodes, entrySize, directPointerCount, blockSize] at *
      omega
    rw [Finset.card_singleton] at hone
    rw [State.Enough, hnone, h.freeBlocks_eq hl, Nat.card_Ico]
    omega

/-- A slot of the root that has an entry. -/
theorem Finished.matches_entry (h : Finished img image) (hl : Laid img files)
    (hnames : ∀ name ∈ files.map Prod.fst, name.length ≤ maxEntryNameLength)
    (hcount : files.length + 2 ≤ ninodes) (name : Name) {k : ℕ} {e : Name × ℕ}
    (hk : (rootEntries (files.map Prod.fst))[k]? = some e) :
    Matches name (slot (image.mount.file rootInodeNumber) k) = decide (e.1 = name) ∧
      (slot (image.mount.file rootInodeNumber) k).inodeNumber = e.2 := by
  have hfit := fun e he => rootEntries_fit (e := e) hnames (by rwa [List.length_map]) he
  have hne := (hfit e (List.mem_of_getElem? hk)).2.2
  rw [h.root_eq hl, rootBytes, slot_entry (fun e he => ⟨(hfit e he).1, (hfit e he).2.1⟩) _ hk, Matches]
  refine ⟨?_, DirectoryEntry.withName_inodeNumber ..⟩
  simp only [DirectoryEntry.withName_inodeNumber, DirectoryEntry.matchesName,
    DirectoryEntry.nameSlice_withName, ne_eq, hne, not_false_eq_true, decide_true, Bool.true_and]
  exact decide_eq_decide.mpr eq_comm

theorem Finished.matches_dead (h : Finished img image) (hl : Laid img files) (name : Name) {k : ℕ}
    (hk : files.length + 2 ≤ k) :
    Matches name (slot (image.mount.file rootInodeNumber) k) = false := by
  have hlength := hl.root_length
  rw [hl.root_eq] at hlength
  have hzero : (slot (image.mount.file rootInodeNumber) k).inodeNumber = 0 := by
    rw [h.root_eq hl]
    refine DirectoryContent.slot_append_zeros ?_
    rw [hlength, Nat.mul_comm]
    exact Nat.mul_le_mul_left _ hk
  rw [Matches, hzero]
  rfl

theorem Finished.lookup (h : Finished img image) (hl : Laid img files)
    (hnames : ∀ name ∈ files.map Prod.fst, name.length ≤ maxEntryNameLength)
    (hcount : files.length + 2 ≤ ninodes)
    (hok : (files.length + 2) % 32 ≠ 0 ∨ usedBlocks files < fsSize) (name : Name) :
    ∃ found s, image.mount.lookupChild rootInodeNumber name = .ok (found, s) ∧
      found.map (fun entry => entry.2.inodeNumber) =
        ((rootEntries (files.map Prod.fst)).find? (fun entry => entry.1 = name)).map Prod.snd := by
  have hlive := fun k e => h.matches_entry hl hnames hcount name (k := k) (e := e)
  have hlength : (rootEntries (files.map Prod.fst)).length = files.length + 2 := by
    rw [rootEntries_length, List.length_map]
  have hslots : files.length + 2 ≤ slotCount (image.mount.file rootInodeNumber) := by
    rw [slotCount, InodeBlocks.length_file, h.root_size hl]
    simp only [entrySize, blockSize]
    omega
  obtain ⟨found, s, hlookup, hfound⟩ := InodeBlocks.lookupChild_slot (h.root_sound hl hcount)
    rootInodeNumber_lt (h.root_aligned hl) (h.root_readable hl hcount hok) name
  refine ⟨found, s, hlookup, ?_⟩
  obtain ⟨rfl, hall⟩ | ⟨j, -, rfl, hm, hbefore⟩ := hfound
  · have hnone : (rootEntries (files.map Prod.fst)).find? (fun entry => entry.1 = name) = none := by
      rw [List.find?_eq_none]
      intro e he hname
      obtain ⟨k, hk⟩ := List.getElem?_of_mem he
      have hlt := (List.getElem?_eq_some_iff.mp hk).1
      have hmiss := hall k (by omega)
      rw [(hlive k e hk).1, hname] at hmiss
      cases hmiss
    rw [hnone]
    rfl
  · have hj : j < files.length + 2 := by
      by_contra hge
      rw [h.matches_dead hl name (Nat.not_lt.mp hge)] at hm
      cases hm
    obtain ⟨e, hget⟩ : ∃ e, (rootEntries (files.map Prod.fst))[j]? = some e :=
      ⟨_, List.getElem?_eq_getElem (by omega)⟩
    obtain ⟨hname, hnumber⟩ := hlive j e hget
    have hsome : (rootEntries (files.map Prod.fst)).find? (fun entry => entry.1 = name) = some e := by
      rw [List.find?_eq_some_iff_getElem]
      obtain ⟨hlt, heq⟩ := List.getElem?_eq_some_iff.mp hget
      refine ⟨by rw [← hname, hm], j, hlt, heq, fun k hk => ?_⟩
      have hmiss := hbefore k hk
      rw [(hlive k _ (List.getElem?_eq_getElem (by omega))).1] at hmiss
      rw [hmiss]
      rfl
    rw [hsome]
    exact congrArg some hnumber

/-- A name that is not there is not found to be so, where the last block of the root is missing
and none is free. -/
theorem Finished.lookup_panics (h : Finished img image) (hl : Laid img files)
    (hnames : ∀ name ∈ files.map Prod.fst, name.length ≤ maxEntryNameLength)
    (hcount : files.length + 2 ≤ ninodes) (hmod : (files.length + 2) % 32 = 0)
    (hfull : fsSize ≤ usedBlocks files) {name : Name}
    (habsent : ∀ e ∈ rootEntries (files.map Prod.fst), e.1 ≠ name) :
    image.mount.lookupChild rootInodeNumber name = .error .didNotReadEnoughBytes := by
  have hlength : (rootEntries (files.map Prod.fst)).length = files.length + 2 := by
    rw [rootEntries_length, List.length_map]
  have hfree : image.mount.freeBlocks = ∅ := by
    rw [h.freeBlocks_eq hl, Finset.Ico_eq_empty_of_le hfull]
  have hlast : entrySize * (files.length + 2) + entrySize ≤
      (image.mount.inodes rootInodeNumber).size := by
    rw [h.root_size hl]
    simp only [entrySize, blockSize]
    omega
  have hthere : ∀ k < files.length + 2,
      image.mount.blockEntry rootInodeNumber (entrySize * k / blockSize) ≠ 0 := by
    intro k hk
    rw [h.root_filled hl]
    simp only [entrySize, blockSize] at *
    omega
  have hmissing : image.mount.blockEntry rootInodeNumber
      (entrySize * (files.length + 2) / blockSize) = 0 := by
    rw [← not_ne_iff, h.root_filled hl]
    simp only [entrySize, blockSize] at *
    omega
  have hdirect : entrySize * (files.length + 2) / blockSize < directPointerCount := by
    simp only [ninodes, entrySize, directPointerCount, blockSize] at *
    omega
  refine InodeBlocks.lookupLoop_panics (h.root_sound hl hcount) rootInodeNumber_lt hfree hlast
    hthere hdirect hmissing (fun k hk => ?_) (files.length + 2) (Nat.zero_add _) ?_
  · have hget := List.getElem?_eq_getElem (show k < (rootEntries (files.map Prod.fst)).length by omega)
    rw [(h.matches_entry hl hnames hcount name hget).1]
    exact decide_eq_false (habsent _ (List.getElem_mem _))
  · rw [h.root_size hl]
    simp only [entrySize, blockSize]
    omega

theorem Finished.freeMap (h : Finished img image) (hl : Laid img files) {b : ℕ}
    (hb : b < bitmapBitsPerBlock) :
    isUsed (image.sectors (superBlock.getFreeMapBlockNumber b)) (b % bitmapBitsPerBlock) =
      decide (b < image.freeblock) := by
  have hle := hl.counted.freeblock_le
  have hmap : superBlock.getFreeMapBlockNumber b = superBlock.bmapstart := by
    rw [SuperBlock.getFreeMapBlockNumber, Nat.div_eq_of_lt hb, Nat.zero_add]
  rw [hmap, h.map_eq, Nat.mod_eq_of_lt hb, isUsed_balloc (hle.trans (by decide)) hb,
    h.freeblock_eq]

theorem Finished.pointer (h : Finished img image) (hl : Laid img files) {n : ℕ} (hn : n < ninodes)
    {slot : Slot} (hne : image.mount.target n slot ≠ 0) :
    nmeta ≤ image.mount.target n slot ∧ image.mount.target n slot < image.freeblock ∧
      ∀ m < ninodes, ∀ slot', image.mount.target m slot' = image.mount.target n slot →
        m = n ∧ slot' = slot := by
  have hw := h.wellFormed hl.counted.toBuilt
  obtain ⟨hle, hused⟩ := hw.target_used n slot hn hne
  refine ⟨hle, of_decide_eq_true hused, fun m hm slot' heq => ?_⟩
  obtain ⟨hmn, hslot⟩ := hw.target_inj n m slot slot' hn hm hne heq.symm
  exact ⟨hmn.symm, hslot.symm⟩

theorem Finished.agrees (h : Finished img image) (hl : Laid img files)
    (hnames : ∀ name ∈ files.map Prod.fst, name.length ≤ maxEntryNameLength)
    (hcount : files.length + 2 ≤ ninodes)
    (hok : (files.length + 2) % 32 ≠ 0 ∨ usedBlocks files < fsSize) : Agrees image files where
  superBlock_eq := by
    rw [Image.initGlobal, h.super_eq, hl.super_eq]
    decide +kernel
  root := by
    rw [mount_inodes rootInodeNumber_lt, h.inode_eq _ rootInodeNumber_lt, if_pos rfl,
      DiskInode.toKernel, hl.root_type]
    rfl
  file _ _ hf := h.reads hl hcount hf
  lookup := h.lookup hl hnames hcount hok
  freeMap _ hb := h.freeMap hl hb
  pointer _ hn _ hne := h.pointer hl hn hne

end Image

/-- There are more names of one byte than entries. -/
theorem exists_absent {names : List Name} (hcount : names.length + 2 ≤ ninodes) :
    ∃ name : Name, ∀ e ∈ rootEntries names, e.1 ≠ name := by
  by_contra hall
  push Not at hall
  have hsub : (Finset.univ.image fun i : Fin 256 => [UInt8.ofNat i.val]) ⊆
      ((rootEntries names).map Prod.fst).toFinset := by
    intro name hname
    obtain ⟨i, -, rfl⟩ := Finset.mem_image.mp hname
    obtain ⟨e, he, heq⟩ := hall [UInt8.ofNat i.val]
    exact List.mem_toFinset.mpr (List.mem_map.mpr ⟨e, he, heq⟩)
  have hcard := (Finset.card_le_card hsub).trans (List.toFinset_card_le _)
  rw [Finset.card_image_of_injective, Finset.card_univ, Fintype.card_fin, List.length_map,
    rootEntries_length] at hcard
  · simp only [ninodes] at hcount
    omega
  · intro i j hij
    have hval := congrArg UInt8.toNat (List.cons.inj hij).1
    rw [UInt8.toNat_ofNat', UInt8.toNat_ofNat', Nat.mod_eq_of_lt i.isLt,
      Nat.mod_eq_of_lt j.isLt] at hval
    exact Fin.ext hval

theorem named_length {sources : List SourceFile} {files : List (Name × List UInt8)}
    (h : sources.map named = files.map some) {name : Name} (hname : name ∈ files.map Prod.fst) :
    name.length ≤ maxEntryNameLength := by
  obtain ⟨f, hf, rfl⟩ := List.mem_map.mp hname
  have hmem : some f ∈ sources.map named := by
    rw [h]
    exact List.mem_map_of_mem hf
  obtain ⟨source, -, hsource⟩ := List.mem_map.mp hmem
  obtain ⟨name, hshort, rfl⟩ := Option.map_eq_some_iff.mp hsource
  exact Image.shortname_le hshort

/-- The files fit the inodes, the pointers of an inode and the blocks of the image. -/
structure Fits (files : List (Name × List UInt8)) : Prop where
  count : files.length + 2 ≤ ninodes
  length : ∀ f ∈ files, f.2.length ≤ maxFileBlockCount * blockSize
  blocks : usedBlocks files ≤ fsSize

theorem make_laid {sources : List SourceFile} {files : List (Name × List UInt8)}
    (hnamed : sources.map named = files.map some) (hfits : Fits files) :
    ∃ img image, make sources = some image ∧ Image.Laid img files ∧ Image.Finished img image := by
  obtain ⟨img₁, h₁, hl₁⟩ := Image.makeRoot_laid
  have hcount := hfits.count
  have hcount₁ : ([] : List (Name × List UInt8)).length + files.length + 2 ≤ ninodes := by
    rw [List.length_nil, Nat.zero_add]
    exact hcount
  obtain ⟨img₂, h₂, hl₂⟩ := hl₁.addFiles hcount₁ hnamed hfits.length hfits.blocks
  rw [List.nil_append] at hl₂
  obtain ⟨image, h₃, hfinished⟩ := hl₂.counted.toBuilt.finish_finished
  refine ⟨img₂, image, ?_, hl₂, hfinished⟩
  unfold make
  simp only [h₁, h₂, Option.bind_eq_bind, Option.bind_some, h₃]

theorem Image.Finished.not_agrees {img image : Image} {files : List (Name × List UInt8)}
    (h : Image.Finished img image) (hl : Image.Laid img files)
    (hnames : ∀ name ∈ files.map Prod.fst, name.length ≤ maxEntryNameLength)
    (hcount : files.length + 2 ≤ ninodes) (hmod : (files.length + 2) % 32 = 0)
    (hfull : fsSize ≤ usedBlocks files) : ¬ Agrees image files := by
  intro hagrees
  have hlength : (files.map Prod.fst).length + 2 ≤ ninodes := by rwa [List.length_map]
  obtain ⟨name, habsent⟩ := exists_absent hlength
  obtain ⟨found, s, hlookup, -⟩ := hagrees.lookup name
  rw [h.lookup_panics hl hnames hcount hmod hfull habsent] at hlookup
  exact absurd hlookup nofun

/-- Files that fit are in the image as the kernel reads it, unless the entries of the root end
with a block and the image is full. -/
theorem image_agrees_iff {sources : List SourceFile} {files : List (Name × List UInt8)}
    (hnamed : sources.map named = files.map some) (hfits : Fits files) :
    ∃ image, make sources = some image ∧
      (Agrees image files ↔ (files.length + 2) % 32 ≠ 0 ∨ usedBlocks files < fsSize) := by
  obtain ⟨img, image, hmake, hl, hfinished⟩ := make_laid hnamed hfits
  have hnames : ∀ name ∈ files.map Prod.fst, name.length ≤ maxEntryNameLength :=
    fun name hname => named_length hnamed hname
  refine ⟨image, hmake, fun hagrees => ?_, hfinished.agrees hl hnames hfits.count⟩
  by_contra hnot
  push Not at hnot
  exact hfinished.not_agrees hl hnames hfits.count hnot.1 hnot.2 hagrees

/-- A file that holds two bytes, read at once. -/
def smallSource : SourceFile := ⟨[97], [[104, 105]], by decide⟩

theorem image_agrees_small :
    ∃ image, make [smallSource] = some image ∧ Agrees image [([97], [104, 105])] := by
  have hnamed : [smallSource].map named = [([97], [104, 105])].map some := by decide
  obtain ⟨image, hmake, hiff⟩ := image_agrees_iff hnamed ⟨by decide, by decide, by decide⟩
  exact ⟨image, hmake, hiff.mpr (.inl (by decide))⟩

/-! ## A full image -/

/-- The blocks of the contents of the files: with the root, the indirect blocks and what lies
before them they are all blocks of the image. -/
def fullBlocks (i : ℕ) : ℕ := if i < 7 then 268 else if i = 7 then 69 else 0

def fullSource (i : ℕ) : SourceFile where
  basename := [UInt8.ofNat (97 + i)]
  reads := List.replicate (fullBlocks i) (List.replicate blockSize 0)
  reads_le amt hamt := by rw [List.eq_of_mem_replicate hamt, List.length_replicate]

def fullFile (i : ℕ) : Name × List UInt8 :=
  ([UInt8.ofNat (97 + i)], List.replicate (fullBlocks i * blockSize) 0)

theorem named_fullSource {i : ℕ} (hi : i < 30) : named (fullSource i) = some (fullFile i) := by
  have hname : ∀ i < 30, Image.shortname [UInt8.ofNat (97 + i)] = some [UInt8.ofNat (97 + i)] := by
    decide
  have hdata : readData (fullSource i).reads = (fullFile i).2 := by
    have hall : ∀ amt ∈ (fullSource i).reads, decide (amt.length ≠ 0) = true := by
      intro amt hamt
      rw [List.eq_of_mem_replicate hamt, List.length_replicate]
      decide
    rw [readData, List.takeWhile_eq_self_iff.mpr hall]
    exact List.flatten_replicate_replicate
  rw [named, hdata]
  exact congrArg (Option.map fun name => (name, (fullFile i).2)) (hname i hi)

theorem fits_full : Fits ((List.range 30).map fullFile) where
  count := by decide
  length f hf := by
    obtain ⟨i, -, rfl⟩ := List.mem_map.mp hf
    rw [fullFile, List.length_replicate]
    refine Nat.mul_le_mul_right _ ?_
    simp only [fullBlocks, maxFileBlockCount, directPointerCount, indirectPointerCount]
    split
    · omega
    · split <;> omega
  blocks := by
    rw [usedBlocks, List.length_map, List.map_map]
    simp only [Function.comp_def, fullFile, List.length_replicate]
    decide

/-- Thirty files that fill the image: the lookup of a name that is not there panics. -/
theorem full_image_disagrees :
    (((List.range 30).map fullFile).map Prod.fst).Nodup ∧
      ∃ image, make ((List.range 30).map fullSource) = some image ∧
        ¬ Agrees image ((List.range 30).map fullFile) := by
  have hnamed : ((List.range 30).map fullSource).map named =
      ((List.range 30).map fullFile).map some := by
    rw [List.map_map, List.map_map]
    exact List.map_congr_left fun i hi => named_fullSource (List.mem_range.mp hi)
  have hnames : ((List.range 30).map fullFile).map Prod.fst =
      (List.range 30).map fun i => [UInt8.ofNat (97 + i)] := by
    rw [List.map_map]
    rfl
  obtain ⟨img, image, hmake, hl, hfinished⟩ := make_laid hnamed fits_full
  refine ⟨by rw [hnames]; decide, image, hmake, hfinished.not_agrees hl
    (fun name hname => named_length hnamed hname) fits_full.count (by decide) ?_⟩
  rw [usedBlocks, List.length_map, List.map_map]
  simp only [Function.comp_def, fullFile, List.length_replicate]
  decide

end Zigmaos.MakeFilesystem
