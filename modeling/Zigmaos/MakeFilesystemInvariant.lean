import Zigmaos.MakeFilesystem
import Zigmaos.InodeContents

/-!
# The image has no holes

`iappend` runs as `Inode.write` does: its turn for a block is `getBlock` of the
kernel on the image, with `freeblock` as the first block that is free. So what
holds of the loop of `write` holds of it.
-/
namespace Zigmaos.MakeFilesystem
open LittleEndian
open InodeBlocks (State WellFormed Covered Grows Slot Kept directPointerCount
  indirectPointerBlockIndex indirectPointerCount maxFileBlockCount)

/-! ## Inodes in their sectors -/

theorem readField_splice_inside (b : Block) (off len : ℕ) (src : ℕ → UInt8) (p width : ℕ)
    (hlen : p + width ≤ len) (hoff : off + len ≤ blockSize) :
    (b.splice off len src).readField (off + p) width = readLE (fun j => src (p + j)) width := by
  apply readLE_congr
  intro j hj
  rw [Block.byte_splice _ _ _ _ _ (by omega), if_pos ⟨by omega, by omega⟩]
  congr 1
  omega

/-- The fields have the width of their types. -/
structure DiskInode.Fits (din : DiskInode) : Prop where
  device : din.device < 2 ^ 32
  size : din.size < 2 ^ 32
  addrs : ∀ i, din.addrs i < 2 ^ 32
  type : din.type < 2 ^ 16
  linkCount : din.linkCount < 2 ^ 16

theorem DiskInode.Fits.ofBlock (b : Block) (off : ℕ) : (DiskInode.ofBlock b off).Fits where
  device := b.readField_lt off 4
  size := b.readField_lt (off + 4) 4
  addrs i := b.readField_lt (off + 8 + 4 * i) 4
  type := b.readField_lt (off + 60) 2
  linkCount := b.readField_lt (off + 62) 2

/-- Reading the bytes of a field gives its value. -/
theorem readLE_field {byte : ℕ → UInt8} {v width : ℕ} (hv : v < 256 ^ width)
    (h : ∀ j < width, byte j = byteLE v j) : readLE byte width = v := by
  rw [readLE_congr h, readLE_byteLE, Nat.mod_eq_of_lt hv]

theorem ofBlock_splice {din : DiskInode} (h : din.Fits) (b : Block) {off : ℕ}
    (hoff : off + diskInodeSize ≤ blockSize) :
    DiskInode.ofBlock (b.splice off diskInodeSize din.byte) off = din := by
  have hread : ∀ p width v, p + width ≤ diskInodeSize → v < 256 ^ width →
      (∀ j < width, din.byte (p + j) = byteLE v j) →
      (b.splice off diskInodeSize din.byte).readField (off + p) width = v := by
    intro p width v hp hv hj
    rw [readField_splice_inside _ _ _ _ _ _ hp hoff]
    exact readLE_field hv hj
  have hdevice := hread 0 4 din.device (by decide) h.device (fun j hj => by
    simp [DiskInode.byte, hj])
  have hsize := hread 4 4 din.size (by decide) h.size (fun j hj => by
    rw [DiskInode.byte, if_neg (by omega), if_pos (by omega), Nat.add_sub_cancel_left])
  have haddrs : ∀ i : Fin 13, (b.splice off diskInodeSize din.byte).readField
      (off + (8 + 4 * i)) 4 = din.addrs i := by
    intro i
    have hi := i.isLt
    refine hread _ 4 _ (by simp only [diskInodeSize]; omega) (h.addrs i) (fun j hj => ?_)
    have hq : (8 + 4 * i.val + j - 8) / 4 = i.val := by omega
    have hr : (8 + 4 * i.val + j - 8) % 4 = j := by omega
    rw [DiskInode.byte, if_neg (by omega), if_neg (by omega), if_pos (by omega), hq, hr]
    congr 2
    exact Fin.ext (Nat.mod_eq_of_lt hi)
  have htype := hread 60 2 din.type (by decide) h.type (fun j hj => by
    rw [DiskInode.byte, if_neg (by omega), if_neg (by omega), if_neg (by omega),
      if_pos (by omega), Nat.add_sub_cancel_left])
  have hlink := hread 62 2 din.linkCount (by decide) h.linkCount (fun j hj => by
    rw [DiskInode.byte, if_neg (by omega), if_neg (by omega), if_neg (by omega),
      if_neg (by omega), Nat.add_sub_cancel_left])
  rw [Nat.add_zero] at hdevice
  simp only [DiskInode.ofBlock, hdevice, hsize, htype, hlink, Nat.add_assoc, haddrs]

theorem ofBlock_splice_disjoint (b : Block) (src : ℕ → UInt8) {off off' : ℕ}
    (hoff : off' + diskInodeSize ≤ blockSize)
    (h : off' + diskInodeSize ≤ off ∨ off + diskInodeSize ≤ off') :
    DiskInode.ofBlock (b.splice off diskInodeSize src) off' = DiskInode.ofBlock b off' := by
  simp only [diskInodeSize] at *
  have hread : ∀ p width, p + width ≤ 64 → (b.splice off 64 src).readField (off' + p) width =
      b.readField (off' + p) width := by
    intro p width hp
    exact Block.readField_splice_disjoint _ _ _ _ _ _ (by omega) (by omega)
  have haddrs : ∀ i : Fin 13, (b.splice off 64 src).readField (off' + (8 + 4 * i)) 4 =
      b.readField (off' + (8 + 4 * i)) 4 := by
    intro i
    have := i.isLt
    exact hread _ _ (by omega)
  have hdevice := hread 0 4 (by decide)
  rw [Nat.add_zero] at hdevice
  simp only [DiskInode.ofBlock, hdevice, hread 4 4 (by decide), hread 60 2 (by decide),
    hread 62 2 (by decide), Nat.add_assoc, haddrs]

namespace Image

theorem inodeOffset_le (n : ℕ) : inodeOffset n + diskInodeSize ≤ blockSize := by
  have : n % (1024 / 64) < 1024 / 64 := Nat.mod_lt _ (by decide)
  simp only [inodeOffset, SuperBlock.inodesPerBlock, diskInodeSize, blockSize]
  omega

theorem getInodeBlockNumber_lt {n : ℕ} (hn : n < ninodes) :
    superBlock.getInodeBlockNumber n < nmeta := by
  simp only [SuperBlock.getInodeBlockNumber, SuperBlock.inodesPerBlock, blockSize, superBlock,
    ninodes, nmeta, nlog, ninodeblocks, nbitmap, logSize, maxNumOperationBlocks, fsSize] at *
  omega

theorem nmeta_lt_fsSize : nmeta < fsSize := by decide

theorem nmeta_pos : 0 < nmeta := by decide

variable {img img' : Image} {n m : ℕ} {din : DiskInode}

theorem rinode_eq (hn : n < ninodes) : img.rinode n = some (img.inode n) := by
  rw [rinode, rsect, if_pos ((getInodeBlockNumber_lt hn).trans nmeta_lt_fsSize)]
  rfl

theorem wsect_sectors (img : Image) (sec b : ℕ) (buf : Block) :
    (img.wsect sec buf).sectors b = if b = sec then buf else img.sectors b :=
  Function.update_apply ..

/-- What `winode` changes. -/
structure Wrote (img img' : Image) (n : ℕ) (din : DiskInode) : Prop where
  inode_eq : ∀ m < ninodes, img'.inode m = if m = n then din else img.inode m
  sectors_eq : ∀ b, nmeta ≤ b → img'.sectors b = img.sectors b
  freeinode_eq : img'.freeinode = img.freeinode
  freeblock_eq : img'.freeblock = img.freeblock

theorem winode_eq (hn : n < ninodes) :
    img.winode n din = some (img.wsect (superBlock.getInodeBlockNumber n)
      ((img.sectors (superBlock.getInodeBlockNumber n)).splice (inodeOffset n) diskInodeSize
        din.byte)) := by
  rw [winode, rsect, if_pos ((getInodeBlockNumber_lt hn).trans nmeta_lt_fsSize)]

/-- The super block is not among the blocks of inodes. -/
theorem winode_super (hn : n < ninodes) (h : img.winode n din = some img') :
    img'.sectors 1 = img.sectors 1 := by
  rw [winode_eq hn, Option.some.injEq] at h
  have hne : 1 ≠ superBlock.getInodeBlockNumber n := by
    simp only [SuperBlock.getInodeBlockNumber, SuperBlock.inodesPerBlock, blockSize, superBlock,
      nlog, logSize, maxNumOperationBlocks]
    omega
  rw [← h, wsect_sectors, if_neg hne]

theorem winode_wrote (img : Image) (hn : n < ninodes) (hdin : din.Fits) :
    ∃ img', img.winode n din = some img' ∧ Wrote img img' n din := by
  have hlt := getInodeBlockNumber_lt hn
  refine ⟨_, winode_eq hn, ?_, ?_, rfl, rfl⟩
  · intro m hm
    by_cases hblock : superBlock.getInodeBlockNumber m = superBlock.getInodeBlockNumber n
    · rw [inode, hblock, wsect_sectors, if_pos rfl]
      by_cases hmn : m = n
      · rw [if_pos hmn, hmn]
        exact ofBlock_splice hdin _ (inodeOffset_le n)
      · rw [if_neg hmn, ofBlock_splice_disjoint _ _ (inodeOffset_le m), inode, hblock]
        simp only [SuperBlock.getInodeBlockNumber, SuperBlock.inodesPerBlock, blockSize,
          inodeOffset, diskInodeSize] at *
        omega
    · have hmn : m ≠ n := fun heq => hblock (by rw [heq])
      rw [if_neg hmn, inode, wsect_sectors, if_neg hblock, inode]
  · intro b hb
    rw [wsect_sectors, if_neg (by omega)]

theorem inode_wsect {sec : ℕ} (hsec : nmeta ≤ sec) (hn : n < ninodes) (buf : Block) :
    (img.wsect sec buf).inode n = img.inode n := by
  have := getInodeBlockNumber_lt hn
  rw [inode, wsect_sectors, if_neg (by omega), inode]

/-! ## Blocks -/

/-- The image while `iappend` has the inode in `din`. -/
def load (img : Image) (n : ℕ) (din : DiskInode) : State := img.mount.setInode n din.toKernel

/-- The image with the next free block handed out. -/
def nextBlock (img : Image) : Image := { img with freeblock := img.freeblock + 1 }

/-- What lies behind the blocks handed out is zero. -/
def ZeroTail (img : Image) : Prop := ∀ b, img.freeblock ≤ b → img.sectors b = .zero

theorem load_setAddr (img : Image) (n : ℕ) (din : DiskInode) (i : Fin 13) (b : ℕ) :
    (img.load n din).setAddr n i b = img.load n (din.setAddr i b) := by
  simp only [load, State.setAddr, State.setInode, Function.update_self, Function.update_idem]
  rfl

theorem load_wsect {sec : ℕ} (hsec : nmeta ≤ sec) (buf : Block) (din : DiskInode) :
    (img.wsect sec buf).load n din = (img.load n din).setBlock sec buf := by
  have hinodes : (img.wsect sec buf).mount.inodes = img.mount.inodes := by
    funext m
    simp only [mount]
    split
    next hm => rw [inode_wsect hsec hm]
    · rfl
  simp only [load, State.setInode, State.setBlock, hinodes]
  rfl

/-- The free block of the builder is the one that the kernel finds. -/
theorem allocate_load (hz : img.ZeroTail) (hlt : img.freeblock < fsSize) :
    (img.load n din).allocate = .ok (some img.freeblock, img.nextBlock.load n din) := by
  have hfind : (img.load n din).findFree 0 = some img.freeblock := by
    have hmem : (List.range (min bitmapBitsPerBlock (fsSize - 0))).find?
        (fun i => !decide (0 + i < img.freeblock)) = some img.freeblock := by
      rw [List.find?_range_eq_some]
      refine ⟨by simp, ?_, ?_⟩
      · rw [List.mem_range]
        simp only [bitmapBitsPerBlock, blockSize, fsSize] at *
        omega
      · intro j hj
        simp [hj]
    change Option.map (0 + ·) ((List.range (min bitmapBitsPerBlock (fsSize - 0))).find?
        (fun i => !decide (0 + i < img.freeblock))) = _
    rw [hmem, Option.map_some, Nat.zero_add]
  have hstate : (img.load n din).withBlock img.freeblock = img.nextBlock.load n din := by
    have hused : Function.update (fun b => decide (b < img.freeblock)) img.freeblock true =
        fun b => decide (b < img.freeblock + 1) := by
      funext b
      by_cases hb : b = img.freeblock
      · rw [hb, Function.update_self]
        simp
      · rw [Function.update_of_ne hb]
        exact decide_eq_decide.mpr (by omega)
    have hblocks : Function.update img.sectors img.freeblock .zero = img.sectors := by
      rw [← hz img.freeblock le_rfl, Function.update_eq_self]
    simp only [State.withBlock, State.setUsed, State.setBlock, load, State.setInode, mount, hused,
      hblocks]
    rfl
  rw [State.allocate_of_findFree (s := img.load n din) (Nat.zero_lt_of_lt nmeta_lt_fsSize)
    Nat.one_pos hfind, hstate]

@[simp] theorem load_addrs (img : Image) (n : ℕ) (din : DiskInode) (i : Fin 13) :
    ((img.load n din).inodes n).addrs i = din.addrs i := by
  simp [load, State.setInode, DiskInode.toKernel]

theorem fillAddr_of_ne {i : Fin 13} (h : din.addrs i ≠ 0) : img.fillAddr din i = (img, din) :=
  if_neg h

theorem fillAddr_of_eq {i : Fin 13} (h : din.addrs i = 0) :
    img.fillAddr din i = (img.nextBlock, din.setAddr i img.freeblock) := if_pos h

/-- Filling an empty pointer is the kernel's `getBlock` for it. -/
theorem pointerBlock_load (hz : img.ZeroTail) {i : Fin 13}
    (hle : (img.fillAddr din i).1.freeblock ≤ fsSize) :
    (img.load n din).pointerBlock n i = .ok (some ((img.fillAddr din i).2.addrs i),
      (img.fillAddr din i).1.load n (img.fillAddr din i).2) := by
  unfold State.pointerBlock State.getDiskBlockDirect
  simp only [load_addrs]
  by_cases hzero : din.addrs i = 0
  · rw [fillAddr_of_eq hzero] at *
    have hlt : img.freeblock < fsSize := hle
    simp only [if_pos hzero, allocate_load hz hlt, load_setAddr]
    simp [DiskInode.setAddr]
  · rw [fillAddr_of_ne hzero]
    simp only [if_neg hzero]

theorem fillAddr_din (img : Image) (din : DiskInode) (i : Fin 13) :
    (img.fillAddr din i).2 = { din with addrs := (img.fillAddr din i).2.addrs } := by
  by_cases hzero : din.addrs i = 0
  · rw [fillAddr_of_eq hzero]
    rfl
  · rw [fillAddr_of_ne hzero]

theorem inode_congr (h : img'.sectors = img.sectors) (m : ℕ) : img'.inode m = img.inode m := by
  rw [inode, inode, h]

theorem fillAddr_freeblock (img : Image) (din : DiskInode) (i : Fin 13) :
    img.freeblock ≤ (img.fillAddr din i).1.freeblock ∧
      (img.fillAddr din i).1.freeblock ≤ img.freeblock + 1 ∧
      (img.fillAddr din i).1.sectors = img.sectors ∧
      (img.fillAddr din i).1.freeinode = img.freeinode := by
  by_cases hzero : din.addrs i = 0
  · rw [fillAddr_of_eq hzero]
    exact ⟨Nat.le_succ _, le_rfl, rfl, rfl⟩
  · rw [fillAddr_of_ne hzero]
    exact ⟨le_rfl, Nat.le_succ _, rfl, rfl⟩

/-- A pointer that has just been filled names a block below `freeblock`. -/
theorem fillAddr_addr_lt (hw : WellFormed (· < ninodes) (img.load n din)) (hn : n < ninodes)
    (hm : nmeta ≤ img.freeblock) (i : Fin 13) :
    nmeta ≤ (img.fillAddr din i).2.addrs i ∧
      (img.fillAddr din i).2.addrs i < (img.fillAddr din i).1.freeblock := by
  by_cases hzero : din.addrs i = 0
  · rw [fillAddr_of_eq hzero]
    simp only [DiskInode.setAddr, Function.update_self]
    exact ⟨hm, Nat.lt_succ_self _⟩
  · rw [fillAddr_of_ne hzero]
    have htarget : (img.load n din).target n (.pointer i) = din.addrs i := load_addrs ..
    obtain ⟨hle, hused⟩ := hw.target_used n (.pointer i) hn (by rwa [htarget])
    rw [htarget] at hle hused
    exact ⟨hle, of_decide_eq_true hused⟩

theorem ZeroTail.fillAddr (hz : img.ZeroTail) (din : DiskInode) (i : Fin 13) :
    (img.fillAddr din i).1.ZeroTail := by
  obtain ⟨hle, -, hsectors, -⟩ := fillAddr_freeblock img din i
  intro b hb
  rw [hsectors]
  exact hz b (hle.trans hb)

/-- `iappend` before a turn of its loop. -/
structure Appending (img : Image) (n : ℕ) (din : DiskInode) : Prop where
  wellFormed : WellFormed (· < ninodes) (img.load n din)
  zeroTail : img.ZeroTail
  nmeta_le : nmeta ≤ img.freeblock
  freeblock_le : img.freeblock ≤ fsSize

/-- A turn of `iappend` gets the block that `getBlock` of the kernel gets. -/
structure GotBlock (img img' : Image) (n fbn : ℕ) (din din' : DiskInode) (x : ℕ) : Prop where
  getBlock_eq : (img.load n din).getBlock n fbn = .ok (some x, img'.load n din')
  zeroTail : img'.ZeroTail
  nmeta_le : nmeta ≤ x
  lt_freeblock : x < img'.freeblock
  freeblock_le : img.freeblock ≤ img'.freeblock
  freeblock_le' : img'.freeblock ≤ fsSize
  freeinode_eq : img'.freeinode = img.freeinode
  inode_eq : ∀ m < ninodes, img'.inode m = img.inode m
  din_eq : din' = { din with addrs := din'.addrs }

theorem Appending.fillAddr (h : Appending img n din) (hn : n < ninodes) {i : Fin 13}
    (hx : (img.fillAddr din i).2.addrs i < fsSize) :
    Appending (img.fillAddr din i).1 n (img.fillAddr din i).2 ∧
      (img.load n din).pointerBlock n i = .ok (some ((img.fillAddr din i).2.addrs i),
        (img.fillAddr din i).1.load n (img.fillAddr din i).2) := by
  have hle : (img.fillAddr din i).1.freeblock ≤ fsSize := by
    by_cases hzero : din.addrs i = 0
    · rw [fillAddr_of_eq hzero] at *
      simp only [DiskInode.setAddr, Function.update_self] at hx
      exact hx
    · rw [fillAddr_of_ne hzero]
      exact h.freeblock_le
  have hp := pointerBlock_load (n := n) h.zeroTail hle
  exact ⟨⟨(InodeBlocks.pointerBlock_got h.wellFormed hn hp).1, h.zeroTail.fillAddr din i,
    h.nmeta_le.trans (fillAddr_freeblock img din i).1, hle⟩, hp⟩

/-- A new entry of an indirect block. -/
theorem Appending.entry (h : Appending img n din) {num k : ℕ} (hm : nmeta ≤ num)
    (hx : img.freeblock < fsSize) (hzero : (img.sectors num).readField (4 * k) 4 = 0) :
    (img.load n din).entryBlock num k = .ok (some img.freeblock,
      (img.nextBlock.wsect num ((img.sectors num).writeField (4 * k) 4 img.freeblock)).load n din) := by
  have hentry : (img.load n din).entry num k = 0 := hzero
  have hlog : ∀ s : State, s.outstanding = 1 → s.logWrite = .ok s := fun s hs =>
    State.logWrite_eq_ok.mpr ⟨by omega, rfl⟩
  unfold State.entryBlock
  rw [if_neg (not_not.mpr hentry), allocate_load h.zeroTail hx, load_wsect hm]
  simp only
  rw [hlog _ rfl]
  rfl

theorem Appending.block {fbn x : ℕ} {din' : DiskInode} (h : Appending img n din)
    (hn : n < ninodes) (hfbn : fbn < maxFileBlockCount)
    (hb : img.iappendBlock din fbn = some (img', din', x)) (hx : x < fsSize) :
    GotBlock img img' n fbn din din' x := by
  unfold iappendBlock at hb
  by_cases hd : fbn < directPointerCount
  · simp only [dif_pos hd, Option.some.injEq, Prod.mk.injEq] at hb
    obtain ⟨rfl, rfl, rfl⟩ := hb
    obtain ⟨ha, hp⟩ := h.fillAddr hn hx
    obtain ⟨hle, hlt⟩ := fillAddr_addr_lt h.wellFormed hn h.nmeta_le ⟨fbn, hd.trans (by decide)⟩
    obtain ⟨hfree, -, hsectors, hfreeinode⟩ :=
      fillAddr_freeblock img din ⟨fbn, hd.trans (by decide)⟩
    exact ⟨by rw [State.getBlock, dif_pos hd, hp], ha.zeroTail, hle, hlt, hfree, ha.freeblock_le,
      hfreeinode, fun m _ => inode_congr hsectors m, fillAddr_din ..⟩
  · simp only [dif_neg hd] at hb
    obtain ⟨hnum_le, hnum_lt⟩ :=
      fillAddr_addr_lt h.wellFormed hn h.nmeta_le indirectPointerBlockIndex
    obtain ⟨hfree, -, hsectors, hfreeinode⟩ := fillAddr_freeblock img din indirectPointerBlockIndex
    have hdin := fillAddr_din img din indirectPointerBlockIndex
    have hk : fbn - directPointerCount < indirectPointerCount := by
      simp only [maxFileBlockCount] at hfbn
      omega
    cases hr : (img.fillAddr din indirectPointerBlockIndex).1.rsect
        ((img.fillAddr din indirectPointerBlockIndex).2.addrs indirectPointerBlockIndex) with
    | none => simp [hr] at hb
    | some indirect =>
      simp only [hr] at hb
      unfold rsect at hr
      obtain ⟨hnum, hindirect⟩ := Option.ite_none_right_eq_some.mp hr
      obtain ⟨ha, hp⟩ := h.fillAddr hn hnum
      generalize (img.fillAddr din indirectPointerBlockIndex).1 = img₁ at *
      generalize (img.fillAddr din indirectPointerBlockIndex).2 = din₁ at *
      obtain rfl := Option.some.inj hindirect
      have hgot : ∀ r, (img₁.load n din₁).entryBlock (din₁.addrs indirectPointerBlockIndex)
          (fbn - directPointerCount) = .ok r → (img.load n din).getBlock n fbn = .ok r := by
        intro r hr
        rw [State.getBlock, dif_neg hd]
        simp only [if_neg (Nat.not_le.mpr hk), hp]
        exact hr
      by_cases hzero : (img₁.sectors (din₁.addrs indirectPointerBlockIndex)).readField
          (4 * (fbn - directPointerCount)) 4 = 0
      · rw [if_pos hzero] at hb
        simp only [Option.some.injEq, Prod.mk.injEq] at hb
        obtain ⟨rfl, rfl, hxeq⟩ := hb
        have hlt := ha.freeblock_le
        have hread : ((img₁.sectors (din₁.addrs indirectPointerBlockIndex)).writeField
            (4 * (fbn - directPointerCount)) 4 img₁.freeblock).readField
              (4 * (fbn - directPointerCount)) 4 = img₁.freeblock := by
          rw [Block.readField_writeField _ _ _ _ (by
            simp only [indirectPointerCount, blockSize] at *; omega)]
          simp only [fsSize] at hlt
          exact Nat.mod_eq_of_lt (by omega)
        rw [hread] at hxeq
        subst hxeq
        refine ⟨hgot _ (ha.entry hnum_le hx hzero), ?_, ha.nmeta_le, Nat.lt_succ_self _,
          Nat.le_succ_of_le hfree, hx, hfreeinode, fun m hm => ?_, hdin⟩
        · intro b hb
          have hb' : img₁.freeblock + 1 ≤ b := hb
          rw [wsect_sectors, if_neg (by omega)]
          exact ha.zeroTail b (by omega)
        · rw [inode_wsect hnum_le hm]
          exact inode_congr hsectors m
      · rw [if_neg hzero] at hb
        simp only [Option.some.injEq, Prod.mk.injEq] at hb
        obtain ⟨rfl, rfl, rfl⟩ := hb
        have hentry : (img₁.load n din₁).target n (.entry ⟨fbn - directPointerCount, hk⟩) =
            (img₁.sectors (din₁.addrs indirectPointerBlockIndex)).readField
              (4 * (fbn - directPointerCount)) 4 := by
          rw [State.target, load_addrs, if_neg (by have := nmeta_pos; omega)]
          rfl
        obtain ⟨hle, hused⟩ := ha.wellFormed.target_used n _ hn (by rw [hentry]; exact hzero)
        rw [hentry] at hle hused
        refine ⟨hgot _ ?_, ha.zeroTail, hle, of_decide_eq_true hused, hfree, ha.freeblock_le,
          hfreeinode, fun m _ => inode_congr hsectors m, hdin⟩
        unfold State.entryBlock
        exact if_pos hzero

/-- The blocks of an inode are those that begin before the offset. -/
def Filled (s : State) (n off : ℕ) : Prop := ∀ i, s.blockEntry n i ≠ 0 ↔ i * blockSize < off

/-- What the loop of `iappend` does. -/
structure Appended (img img' : Image) (n : ℕ) (din din' : DiskInode) (off' : ℕ) : Prop where
  appending : Appending img' n din'
  filled : Filled (img'.load n din') n off'
  other_eq : ∀ m < ninodes, m ≠ n → ∀ i,
    (img'.load n din').blockEntry m i = (img.load n din).blockEntry m i
  inode_eq : ∀ m < ninodes, img'.inode m = img.inode m
  freeinode_eq : img'.freeinode = img.freeinode
  din_eq : din' = { din with addrs := din'.addrs }

theorem Appended.trans {img₁ : Image} {din₁ din' : DiskInode} {off₁ off' : ℕ}
    (h : Appended img img₁ n din din₁ off₁) (h' : Appended img₁ img' n din₁ din' off') :
    Appended img img' n din din' off' where
  appending := h'.appending
  filled := h'.filled
  other_eq m hm hmn i := (h'.other_eq m hm hmn i).trans (h.other_eq m hm hmn i)
  inode_eq m hm := (h'.inode_eq m hm).trans (h.inode_eq m hm)
  freeinode_eq := h'.freeinode_eq.trans h.freeinode_eq
  din_eq := by rw [h'.din_eq, h.din_eq]

/-- One turn: the block is got and its sector is written. -/
theorem Appending.turn {off x len : ℕ} {din' : DiskInode} (h : Appending img n din)
    (hn : n < ninodes) (hf : Filled (img.load n din) n off) (hlen : len ≠ 0)
    (hfbn : off / blockSize < maxFileBlockCount)
    (hb : img.iappendBlock din (off / blockSize) = some (img', din', x)) (hx : x < fsSize)
    (buf : Block) :
    Appended img (img'.wsect x buf) n din din'
      (off + min len ((off / blockSize + 1) * blockSize - off)) := by
  have hgot := h.block hn hfbn hb hx
  have hturn := InodeBlocks.getBlock_turn h.wellFormed hn hgot.getBlock_eq buf
  rw [← load_wsect hgot.nmeta_le] at hturn
  have hlt := hgot.lt_freeblock
  refine ⟨⟨hturn.wellFormed, ?_, h.nmeta_le.trans hgot.freeblock_le, hgot.freeblock_le'⟩, ?_,
    fun m hm hmn i => hturn.other_eq m hmn hm i, ?_, hgot.freeinode_eq, hgot.din_eq⟩
  · intro b hb
    have hb' : img'.freeblock ≤ b := hb
    rw [wsect_sectors, if_neg (by omega)]
    exact hgot.zeroTail b hb'
  · intro i
    by_cases hi : i = off / blockSize
    · subst hi
      rw [hturn.entry]
      refine ⟨fun _ => ?_, fun _ => hturn.ne⟩
      simp only [blockSize]
      omega
    · rw [hturn.entry_eq i hi, hf i]
      simp only [blockSize] at *
      omega
  · intro m hm
    rw [inode_wsect hgot.nmeta_le hm]
    exact hgot.inode_eq m hm

theorem Appending.loop {off off' : ℕ} {data : List UInt8} {din' : DiskInode}
    (h : Appending img n din) (hn : n < ninodes) (hf : Filled (img.load n din) n off)
    (hl : img.iappendLoop din off data = some (img', din', off')) :
    Appended img img' n din din' off' ∧ off' = off + data.length := by
  fun_induction iappendLoop img din off data with
  | case1 img din off data hnil =>
    simp only [Option.some.injEq, Prod.mk.injEq] at hl
    obtain ⟨rfl, rfl, rfl⟩ := hl
    exact ⟨⟨h, hf, fun _ _ _ _ => rfl, fun _ _ => rfl, rfl, rfl⟩, by omega⟩
  | case2 => exact absurd hl nofun
  | case3 => exact absurd hl nofun
  | case4 => exact absurd hl nofun
  | case5 img din off data hne fbn hfbn img₁ din₁ x hb len buf hbuf ih =>
    unfold rsect at hbuf
    obtain ⟨hx, -⟩ := Option.ite_none_right_eq_some.mp hbuf
    have hturn := h.turn hn hf hne (Nat.not_le.mp hfbn) hb hx
      (buf.splice (off - fbn * blockSize) len (fun j => (data[j]?).getD 0))
    obtain ⟨hrest, hoff⟩ := ih hturn.appending hturn.filled hl
    refine ⟨hturn.trans hrest, ?_⟩
    rw [List.length_drop] at hoff
    have : len ≤ data.length := min_le_left _ _
    omega

/-! ## The image between two appends -/

structure Built (img : Image) : Prop where
  wellFormed : WellFormed (· < ninodes) img.mount
  zeroTail : img.ZeroTail
  nmeta_le : nmeta ≤ img.freeblock
  freeblock_le : img.freeblock ≤ fsSize
  filled : ∀ n < ninodes, Filled img.mount n (img.inode n).size

theorem mount_inodes (hn : n < ninodes) : img.mount.inodes n = (img.inode n).toKernel := if_pos hn

theorem load_inode (img : Image) (hn : n < ninodes) : img.load n (img.inode n) = img.mount := by
  rw [load, State.setInode, ← mount_inodes hn, Function.update_eq_self]

theorem Filled.le {s : State} {off : ℕ} (h : Filled s n off) :
    off ≤ maxFileBlockCount * blockSize := by
  by_contra hlt
  exact absurd (State.index_lt_of_blockEntry ((h maxFileBlockCount).mpr (Nat.not_le.mp hlt)))
    (lt_irrefl _)

/-- The inode that the builder holds is stored without loss. -/
theorem Appending.fits (h : Appending img n din) (hn : n < ninodes) {off : ℕ}
    (hf : Filled (img.load n din) n off) (hdevice : din.device < 2 ^ 32)
    (htype : din.type < 2 ^ 16) (hlink : din.linkCount < 2 ^ 16) :
    { din with size := off }.Fits where
  device := hdevice
  size := by
    have := hf.le
    simp only [maxFileBlockCount, directPointerCount, indirectPointerCount, blockSize] at *
    omega
  addrs i := by
    have hle := h.freeblock_le
    simp only [fsSize] at hle
    by_cases hzero : din.addrs i = 0
    · simp only [hzero]
      decide
    · have htarget : (img.load n din).target n (.pointer i) = din.addrs i := load_addrs ..
      have hused := (h.wellFormed.target_used n (.pointer i) hn (by rwa [htarget])).2
      rw [htarget] at hused
      have hlt : din.addrs i < img.freeblock := of_decide_eq_true hused
      simp only
      omega
  type := htype
  linkCount := hlink

/-- The slots of the inodes once the inode is stored. -/
theorem Wrote.target_eq (h : Wrote img img' n din)
    (hw : WellFormed (· < ninodes) (img.load n din)) (hm : m < ninodes) (slot : Slot) :
    img'.mount.target m slot = (img.load n din).target m slot := by
  have hinode : ((img.load n din).inodes m).addrs =
      (if m = n then din else img.inode m).addrs := by
    rw [load, State.setInode_inodes]
    split
    · rfl
    · rw [mount_inodes hm]
      rfl
  have haddrs : (img'.mount.inodes m).addrs = ((img.load n din).inodes m).addrs := by
    rw [hinode, mount_inodes hm, h.inode_eq m hm]
    rfl
  refine State.target_congr haddrs (fun hne => ?_) slot
  exact h.sectors_eq _ (hw.target_used m (.pointer _) hm hne).1

theorem Wrote.blockEntry_eq (h : Wrote img img' n din)
    (hw : WellFormed (· < ninodes) (img.load n din)) (hm : m < ninodes) (i : ℕ) :
    img'.mount.blockEntry m i = (img.load n din).blockEntry m i :=
  InodeBlocks.blockEntry_congr (fun slot => h.target_eq hw hm slot) i

theorem Wrote.built (h : Wrote img img' n din) (ha : Appending img n din)
    (hf : ∀ m < ninodes, Filled (img.load n din) m (if m = n then din else img.inode m).size) :
    Built img' where
  wellFormed := ha.wellFormed.congr rfl rfl
    (by simp only [mount, load, State.setInode, h.freeblock_eq])
    (fun _ slot hm => h.target_eq ha.wellFormed hm slot)
  zeroTail b hb := by
    rw [h.freeblock_eq] at hb
    rw [h.sectors_eq b (ha.nmeta_le.trans hb)]
    exact ha.zeroTail b hb
  nmeta_le := by rw [h.freeblock_eq]; exact ha.nmeta_le
  freeblock_le := by rw [h.freeblock_eq]; exact ha.freeblock_le
  filled m hm i := by
    rw [h.blockEntry_eq ha.wellFormed hm, h.inode_eq m hm]
    exact hf m hm i

theorem Built.iappend {data : List UInt8} (h : Built img) (hn : n < ninodes)
    (hi : img.iappend n data = some img') :
    Built img' ∧ img'.freeinode = img.freeinode ∧ ∀ m < ninodes,
      (img'.inode m).size = (img.inode m).size + if m = n then data.length else 0 := by
  unfold Image.iappend at hi
  rw [rinode_eq hn] at hi
  simp only at hi
  cases hl : img.iappendLoop (img.inode n) (img.inode n).size data with
  | none => simp [hl] at hi
  | some r =>
    obtain ⟨img₁, din', off'⟩ := r
    simp only [hl] at hi
    have hload := load_inode img hn
    have ha : Appending img n (img.inode n) :=
      ⟨by rw [hload]; exact h.wellFormed, h.zeroTail, h.nmeta_le, h.freeblock_le⟩
    obtain ⟨happ, hoff⟩ := ha.loop hn (by rw [hload]; exact h.filled n hn) hl
    have hold : (img.inode n).Fits := .ofBlock _ _
    have hfits : { din' with size := off' }.Fits :=
      happ.appending.fits hn happ.filled (by rw [happ.din_eq]; exact hold.device)
        (by rw [happ.din_eq]; exact hold.type) (by rw [happ.din_eq]; exact hold.linkCount)
    obtain ⟨img₂, hwin, hwrote⟩ := winode_wrote img₁ hn hfits
    obtain rfl : img₂ = img' := Option.some.inj (hwin.symm.trans hi)
    -- The size is not among the addresses.
    have hsame : ∀ m slot, (img₁.load n { din' with size := off' }).target m slot =
        (img₁.load n din').target m slot := by
      intro m slot
      have haddrs : ((img₁.load n { din' with size := off' }).inodes m).addrs =
          ((img₁.load n din').inodes m).addrs := by
        simp only [load, State.setInode_inodes]
        split <;> rfl
      exact State.target_congr haddrs (fun _ => rfl) slot
    have ha' : Appending img₁ n { din' with size := off' } :=
      ⟨happ.appending.wellFormed.congr rfl rfl rfl (fun m slot _ => hsame m slot),
        happ.appending.zeroTail, happ.appending.nmeta_le, happ.appending.freeblock_le⟩
    have hentry : ∀ m i, (img₁.load n { din' with size := off' }).blockEntry m i =
        (img₁.load n din').blockEntry m i := fun m i =>
      InodeBlocks.blockEntry_congr (hsame m) i
    refine ⟨hwrote.built ha' (fun m hm i => ?_), hwrote.freeinode_eq.trans happ.freeinode_eq,
      fun m hm => ?_⟩
    · rw [hentry]
      by_cases hmn : m = n
      · subst hmn
        rw [if_pos rfl]
        exact happ.filled i
      · rw [if_neg hmn, happ.inode_eq m hm, happ.other_eq m hm hmn, hload]
        exact h.filled m hm i
    · rw [hwrote.inode_eq m hm]
      by_cases hmn : m = n
      · rw [if_pos hmn, if_pos hmn, hmn]
        exact hoff
      · rw [if_neg hmn, if_neg hmn, happ.inode_eq m hm, Nat.add_zero]

/-- An inode without addresses has no blocks. -/
theorem load_target_of_addrs (hdin : ∀ i, din.addrs i = 0) (m : ℕ) (slot : Slot) :
    (img.load n din).target m slot = if m = n then 0 else img.mount.target m slot := by
  by_cases hmn : m = n
  · subst hmn
    rw [if_pos rfl]
    cases slot with
    | pointer i => rw [State.target, load_addrs, hdin]
    | entry k => rw [State.target, load_addrs, hdin, if_pos rfl]
  · rw [if_neg hmn]
    have haddrs : ((img.load n din).inodes m).addrs = (img.mount.inodes m).addrs := by
      rw [load, State.setInode_inodes, if_neg hmn]
    exact State.target_congr haddrs (fun _ => rfl) slot

theorem load_blockEntry_of_addrs (hdin : ∀ i, din.addrs i = 0) (m i : ℕ) :
    (img.load n din).blockEntry m i = if m = n then 0 else img.mount.blockEntry m i := by
  by_cases hi : i < directPointerCount + indirectPointerCount
  · rw [State.blockEntry_eq hi, State.blockEntry_eq hi, load_target_of_addrs hdin]
  · rw [not_not.mp (mt State.index_lt_of_blockEntry hi),
      not_not.mp (mt State.index_lt_of_blockEntry hi), ite_self]

theorem Built.load_of_addrs (h : Built img) (hdin : ∀ i, din.addrs i = 0) :
    Appending img n din where
  wellFormed := by
    refine ⟨h.wellFormed.nmeta_pos, h.wellFormed.superSize_lt, h.wellFormed.nmeta_used, ?_, ?_⟩
    · intro m slot hm hne
      rw [load_target_of_addrs hdin] at *
      split at hne
      · exact absurd rfl hne
      next hmn =>
        rw [if_neg hmn]
        exact h.wellFormed.target_used m slot hm hne
    · intro m m' slot slot' hm hm' hne heq
      rw [load_target_of_addrs hdin] at *
      split at hne
      · exact absurd rfl hne
      next hmn =>
        rw [if_neg hmn, load_target_of_addrs hdin] at heq
        split at heq
        · exact absurd heq hne
        · exact h.wellFormed.target_inj m m' slot slot' hm hm' hne heq
  zeroTail := h.zeroTail
  nmeta_le := h.nmeta_le
  freeblock_le := h.freeblock_le

theorem Built.ialloc (h : Built img) (fileType : FileType) (hn : img.freeinode < ninodes) :
    ∃ img', img.ialloc fileType = some (img.freeinode, img') ∧ Built img' ∧
      img'.freeinode = img.freeinode + 1 ∧ img'.freeblock = img.freeblock ∧ ∀ m < ninodes,
        (img'.inode m).size = if m = img.freeinode then 0 else (img.inode m).size := by
  let din : DiskInode := { DiskInode.zero with type := fileType.toNat, linkCount := 1 }
  let img₀ : Image := { img with freeinode := img.freeinode + 1 }
  have hbuilt : Built img₀ := ⟨h.wellFormed, h.zeroTail, h.nmeta_le, h.freeblock_le, h.filled⟩
  have hfits : din.Fits :=
    ⟨Nat.two_pow_pos 32, Nat.two_pow_pos 32, fun _ => Nat.two_pow_pos 32,
      by cases fileType <;> decide, Nat.one_lt_two_pow (by decide)⟩
  obtain ⟨img', hwin, hwrote⟩ := winode_wrote img₀ hn hfits
  refine ⟨img', ?_, hwrote.built (hbuilt.load_of_addrs (fun _ => rfl)) (fun m hm i => ?_),
    hwrote.freeinode_eq, hwrote.freeblock_eq, fun m hm => ?_⟩
  · unfold Image.ialloc
    exact congrArg (Option.map (img.freeinode, ·)) hwin
  · rw [load_blockEntry_of_addrs (fun _ => rfl)]
    by_cases hmn : m = img.freeinode
    · rw [if_pos hmn, if_pos hmn]
      exact ⟨fun hne => absurd rfl hne, fun hlt => absurd hlt (Nat.not_lt_zero _)⟩
    · rw [if_neg hmn, if_neg hmn]
      exact hbuilt.filled m hm i
  · rw [hwrote.inode_eq m hm]
    split
    · rfl
    · rfl

theorem entryBytes_length {name : Name} (hname : name.length ≤ maxEntryNameLength)
    (hn : n < ninodes) : (entryBytes name n).length = entrySize :=
  DirectoryEntry.length_toBytes (DirectoryEntry.Fits.empty.withName hname (hn.trans (by decide)))

theorem shortname_le {basename name : Name} (h : shortname basename = some name) :
    name.length ≤ maxEntryNameLength := by
  cases basename with
  | nil => exact absurd h nofun
  | cons c rest =>
    obtain ⟨hle, hname⟩ := Option.ite_none_right_eq_some.mp h
    rw [Option.some.inj hname] at hle
    exact hle

/-- The image with its root directory, of which the entries are counted. -/
structure Rooted (img : Image) (entries : ℕ) : Prop where
  built : Built img
  freeinode_eq : img.freeinode = entries
  size_eq : (img.inode rootInodeNumber).size = entries * entrySize

theorem Built.iappendReads {reads : List (List UInt8)} (h : Built img) (hn : n < ninodes)
    (hi : img.iappendReads n reads = some img') :
    Built img' ∧ img'.freeinode = img.freeinode ∧
      ∀ m < ninodes, m ≠ n → (img'.inode m).size = (img.inode m).size := by
  induction reads generalizing img with
  | nil =>
    obtain rfl := Option.some.inj hi
    exact ⟨h, rfl, fun _ _ _ => rfl⟩
  | cons amt reads ih =>
    unfold Image.iappendReads at hi
    split at hi
    · obtain rfl := Option.some.inj hi
      exact ⟨h, rfl, fun _ _ _ => rfl⟩
    · cases ha : img.iappend n amt with
      | none => simp [ha] at hi
      | some img₁ =>
        simp only [ha] at hi
        obtain ⟨h₁, hfree₁, hsize₁⟩ := h.iappend hn ha
        obtain ⟨h₂, hfree₂, hsize₂⟩ := ih h₁ hi
        refine ⟨h₂, hfree₂.trans hfree₁, fun m hm hmn => ?_⟩
        rw [hsize₂ m hm hmn, hsize₁ m hm, if_neg hmn, Nat.add_zero]

theorem Rooted.addFile {f : SourceFile} {k : ℕ} (h : Rooted img k) (hk : k < ninodes)
    (hroot : rootInodeNumber < k) (hf : img.addFile f = some img') : Rooted img' (k + 1) := by
  unfold Image.addFile at hf
  cases hname : shortname f.basename with
  | none => simp [hname] at hf
  | some name =>
    obtain ⟨img₁, halloc, hb₁, hfree₁, -, hsize₁⟩ := h.built.ialloc .file
      (by rw [h.freeinode_eq]; exact hk)
    rw [h.freeinode_eq] at *
    simp only [hname, halloc, Option.bind_eq_bind, Option.bind_some] at hf
    cases ha : img₁.iappend rootInodeNumber (entryBytes name k) with
    | none => simp [ha] at hf
    | some img₂ =>
      simp only [ha, Option.bind_some] at hf
      have hroot' := hroot.trans hk
      obtain ⟨hb₂, hfree₂, hsize₂⟩ := hb₁.iappend hroot' ha
      obtain ⟨hb₃, hfree₃, hsize₃⟩ := hb₂.iappendReads hk hf
      refine ⟨hb₃, by rw [hfree₃, hfree₂, hfree₁], ?_⟩
      rw [hsize₃ _ hroot' hroot.ne, hsize₂ _ hroot', if_pos rfl, hsize₁ _ hroot',
        if_neg hroot.ne, h.size_eq, entryBytes_length (shortname_le hname) hk, Nat.succ_mul]

theorem Rooted.addFiles {files : List SourceFile} {k : ℕ} (h : Rooted img k)
    (hroot : rootInodeNumber < k) (hk : k + files.length ≤ ninodes)
    (hf : img.addFiles files = some img') : Rooted img' (k + files.length) := by
  induction files generalizing img k with
  | nil =>
    obtain rfl := Option.some.inj hf
    exact h
  | cons f files ih =>
    rw [List.length_cons] at hk
    obtain ⟨img₁, h₁, h₂⟩ := Option.bind_eq_some_iff.mp hf
    have hr := ih (h.addFile (by omega) hroot h₁) (by omega) (by omega) h₂
    rwa [List.length_cons, Nat.add_comm files.length, ← Nat.add_assoc]

/-- Where the sectors of inodes and of blocks agree, and the addresses, the entries do. -/
theorem blockEntry_of_sectors (h : Built img) (hn : n < ninodes)
    (haddrs : (img'.inode n).addrs = (img.inode n).addrs)
    (hsectors : ∀ b, nmeta ≤ b → img'.sectors b = img.sectors b) (i : ℕ) :
    img'.mount.blockEntry n i = img.mount.blockEntry n i := by
  have haddrs' : (img'.mount.inodes n).addrs = (img.mount.inodes n).addrs := by
    rw [mount_inodes hn, mount_inodes hn]
    exact haddrs
  refine InodeBlocks.blockEntry_congr (fun slot => ?_) i
  refine State.target_congr haddrs' (fun hne => ?_) slot
  exact hsectors _ (h.wellFormed.target_used n (.pointer _) hn hne).1

theorem rootInodeNumber_lt : rootInodeNumber < ninodes := by decide

/-- What the end of `make` changes: the size of the root and the free map. -/
structure Finished (img img' : Image) : Prop where
  inode_eq : ∀ m < ninodes, img'.inode m = if m = rootInodeNumber then
    { img.inode rootInodeNumber with
      size := ((img.inode rootInodeNumber).size / blockSize + 1) * blockSize }
    else img.inode m
  sectors_eq : ∀ b, nmeta ≤ b → img'.sectors b = img.sectors b
  map_eq : img'.sectors superBlock.bmapstart = (List.range img.freeblock).foldl setBit .zero
  super_eq : img'.sectors 1 = img.sectors 1
  freeblock_eq : img'.freeblock = img.freeblock

theorem Built.finish_finished (h : Built img) : ∃ img', img.finish = some img' ∧ Finished img img' := by
  have hsize := (h.filled _ rootInodeNumber_lt).le
  have hfits : { img.inode rootInodeNumber with
      size := ((img.inode rootInodeNumber).size / blockSize + 1) * blockSize }.Fits :=
    { DiskInode.Fits.ofBlock _ _ with
      size := by
        simp only [maxFileBlockCount, directPointerCount, indirectPointerCount, blockSize] at *
        omega }
  obtain ⟨img₁, hwin, hwrote⟩ := winode_wrote img rootInodeNumber_lt hfits
  have hused : img₁.freeblock < blockSize * 8 := by
    rw [hwrote.freeblock_eq]
    exact h.freeblock_le.trans_lt (by decide)
  have hfinish : img.finish = some (img₁.wsect superBlock.bmapstart
      ((List.range img₁.freeblock).foldl setBit .zero)) := by
    unfold Image.finish
    rw [rinode_eq rootInodeNumber_lt]
    simp only [Option.bind_eq_bind, Option.bind_some, hwin]
    exact if_pos hused
  refine ⟨_, hfinish, fun m hm => ?_, fun b hb => ?_, ?_, ?_, hwrote.freeblock_eq⟩
  · rw [inode, wsect_sectors, if_neg, ← inode, hwrote.inode_eq m hm]
    simp only [SuperBlock.getInodeBlockNumber, SuperBlock.inodesPerBlock, blockSize, superBlock,
      ninodes, ninodeblocks] at *
    omega
  · have hne : b ≠ superBlock.bmapstart := by
      rintro rfl
      exact absurd hb (by decide)
    rw [wsect_sectors, if_neg hne, hwrote.sectors_eq b hb]
  · rw [wsect_sectors, if_pos rfl, hwrote.freeblock_eq]
  · rw [wsect_sectors, if_neg (by decide)]
    exact winode_super rootInodeNumber_lt hwin

/-- `make` ends with the size of the root, and the pointers stay. -/
theorem Built.finish (h : Built img) (hf : img.finish = some img') :
    (∀ m < ninodes, (img'.inode m).size = if m = rootInodeNumber then
      ((img.inode m).size / blockSize + 1) * blockSize else (img.inode m).size) ∧
    ∀ m < ninodes, ∀ i, img'.mount.blockEntry m i = img.mount.blockEntry m i := by
  obtain ⟨img₁, hf₁, hfinished⟩ := h.finish_finished
  obtain rfl : img₁ = img' := Option.some.inj (hf₁.symm.trans hf)
  refine ⟨fun m hm => ?_, fun m hm => blockEntry_of_sectors h hm ?_ hfinished.sectors_eq⟩
  · rw [hfinished.inode_eq m hm]
    split
    next hroot => rw [hroot]
    · rfl
  · rw [hfinished.inode_eq m hm]
    split
    next hroot => rw [hroot]
    · rfl

/-- The hole is where the entries end with a block. -/
theorem Rooted.noHoles_iff {k : ℕ} (h : Rooted img k) (hf : img.finish = some img') :
    img'.NoHoles ↔ k % 32 ≠ 0 := by
  obtain ⟨hsizes, hentries⟩ := h.built.finish hf
  have hroot := h.built.filled _ rootInodeNumber_lt
  rw [h.size_eq] at hroot
  refine ⟨fun hno => ?_, fun hk => ?_⟩
  · have hlast := hno _ rootInodeNumber_lt (k * entrySize / blockSize) (by
      rw [hsizes _ rootInodeNumber_lt, if_pos rfl, h.size_eq]
      simp only [entrySize, blockSize]
      omega)
    rw [hentries _ rootInodeNumber_lt, hroot] at hlast
    simp only [entrySize, blockSize] at hlast
    omega
  · intro m hm i hi
    rw [hentries m hm]
    rw [hsizes m hm] at hi
    split at hi
    next hm' =>
      subst hm'
      rw [hroot]
      rw [h.size_eq] at hi
      simp only [entrySize, blockSize] at *
      omega
    · exact (h.built.filled m hm i).mpr hi

theorem blank_inode (n : ℕ) :
    (blank.wsect 1 superBlockSector).inode n = DiskInode.zero := by
  have hne : superBlock.getInodeBlockNumber n ≠ 1 := by
    simp only [SuperBlock.getInodeBlockNumber, SuperBlock.inodesPerBlock, blockSize, superBlock,
      nlog, logSize, maxNumOperationBlocks]
    omega
  rw [inode, wsect_sectors, if_neg hne]
  simp only [blank, DiskInode.ofBlock, Block.readField_zero]
  rfl

theorem blank_built : Built (blank.wsect 1 superBlockSector) := by
  have hempty : ∀ n, n < ninodes → ∀ i, ((blank.wsect 1 superBlockSector).inode n).addrs i = 0 := by
    intro n hn i
    rw [blank_inode n]
    rfl
  have htarget : ∀ n, n < ninodes → ∀ slot,
      (blank.wsect 1 superBlockSector).mount.target n slot = 0 := by
    intro n hn slot
    rw [← load_inode _ hn, load_target_of_addrs (hempty n hn), if_pos rfl]
  refine ⟨⟨nmeta_pos, by decide, fun b hb => decide_eq_true hb, ?_, ?_⟩, ?_, le_rfl,
    nmeta_lt_fsSize.le, ?_⟩
  · exact fun n slot hn hne => absurd (htarget n hn slot) hne
  · exact fun n _ slot _ hn _ hne _ => absurd (htarget n hn slot) hne
  · intro b hb
    have hb' : nmeta ≤ b := hb
    have : 1 < nmeta := by decide
    rw [wsect_sectors, if_neg (by omega)]
    rfl
  · intro n hn i
    have hblock : (blank.wsect 1 superBlockSector).mount.blockEntry n i = 0 := by
      rw [← load_inode _ hn, load_blockEntry_of_addrs (hempty n hn), if_pos rfl]
    rw [hblock, blank_inode n]
    exact ⟨fun hne => absurd rfl hne, fun hlt => absurd hlt (Nat.not_lt_zero _)⟩

theorem makeRoot_rooted (h : makeRoot = some img) : Rooted img 2 := by
  unfold makeRoot at h
  obtain ⟨img₁, halloc, hb₁, hfree₁, -, hsize₁⟩ :=
    blank_built.ialloc .dir (by decide)
  have hroot : (blank.wsect 1 superBlockSector).freeinode = rootInodeNumber := rfl
  rw [hroot] at halloc hfree₁ hsize₁
  simp only [halloc, Option.bind_eq_bind, Option.bind_some, guard, if_true, Option.pure_def] at h
  have hlt := rootInodeNumber_lt
  cases hdot : img₁.iappend rootInodeNumber (entryBytes dot rootInodeNumber) with
  | none => simp [hdot] at h
  | some img₂ =>
    simp only [hdot, Option.bind_some] at h
    obtain ⟨hb₂, hfree₂, hsize₂⟩ := hb₁.iappend hlt hdot
    obtain ⟨hb₃, hfree₃, hsize₃⟩ := hb₂.iappend hlt h
    refine ⟨hb₃, by rw [hfree₃, hfree₂, hfree₁]; rfl, ?_⟩
    rw [hsize₃ _ hlt, hsize₂ _ hlt, hsize₁ _ hlt, if_pos rfl, if_pos rfl, if_pos rfl,
      entryBytes_length (by decide) hlt, entryBytes_length (by decide) hlt]
    rfl

theorem make_noHoles_iff {files : List SourceFile} (hfiles : files.length + 2 ≤ ninodes)
    (h : make files = some img) : img.NoHoles ↔ (files.length + 2) % 32 ≠ 0 := by
  unfold make at h
  obtain ⟨img₁, h₁, h⟩ := Option.bind_eq_some_iff.mp h
  obtain ⟨img₂, h₂, h₃⟩ := Option.bind_eq_some_iff.mp h
  have hr := (makeRoot_rooted h₁).addFiles (by decide) (by omega) h₂
  rw [hr.noHoles_iff h₃, Nat.add_comm]

/-! ## A directory without files fits -/

/-- The turns of the loop of `iappend`. -/
def turns (off len : ℕ) : ℕ :=
  if len = 0 then 0 else (off + len + (blockSize - 1)) / blockSize - off / blockSize

theorem Appending.block_isSome (h : Appending img n din) (hn : n < ninodes) (fbn : ℕ)
    (hd : fbn < directPointerCount) (hroom : img.freeblock + 1 ≤ fsSize) :
    ∃ img' din' x, img.iappendBlock din fbn = some (img', din', x) ∧ x < fsSize ∧
      img'.freeblock ≤ img.freeblock + 1 := by
  obtain ⟨-, hlt⟩ := fillAddr_addr_lt h.wellFormed hn h.nmeta_le ⟨fbn, hd.trans (by decide)⟩
  obtain ⟨-, hle, -, -⟩ := fillAddr_freeblock img din ⟨fbn, hd.trans (by decide)⟩
  exact ⟨_, _, _, by rw [iappendBlock, dif_pos hd], by omega, by omega⟩

theorem direct_of_le {off len : ℕ} (hlen : len ≠ 0)
    (hoff : off + len ≤ directPointerCount * blockSize) : off / blockSize < directPointerCount := by
  simp only [directPointerCount, blockSize] at *
  omega

theorem room_of_turns {off len freeblock : ℕ} (hlen : len ≠ 0)
    (hroom : freeblock + turns off len ≤ fsSize) : freeblock + 1 ≤ fsSize := by
  simp only [turns, if_neg hlen, blockSize] at hroom
  omega

theorem turns_step {off len : ℕ} (hlen : len ≠ 0) :
    turns (off + min len ((off / blockSize + 1) * blockSize - off))
      (len - min len ((off / blockSize + 1) * blockSize - off)) + 1 ≤ turns off len := by
  unfold turns
  rw [if_neg hlen]
  split
  · simp only [blockSize]
    omega
  · simp only [blockSize] at *
    omega

theorem Appending.loop_isSome {off : ℕ} {data : List UInt8} (h : Appending img n din)
    (hn : n < ninodes) (hf : Filled (img.load n din) n off)
    (hoff : off + data.length ≤ directPointerCount * blockSize)
    (hroom : img.freeblock + turns off data.length ≤ fsSize) :
    ∃ img' din' off', img.iappendLoop din off data = some (img', din', off') ∧
      img'.freeblock ≤ img.freeblock + turns off data.length := by
  fun_induction iappendLoop img din off data with
  | case1 img din off data hnil => exact ⟨img, din, off, rfl, Nat.le_add_right _ _⟩
  | case2 img din off data hne fbn hfbn =>
    simp only [fbn, maxFileBlockCount, directPointerCount, indirectPointerCount, blockSize] at *
    omega
  | case3 img din off data hne fbn hfbn hb =>
    obtain ⟨_, _, _, hsome, -⟩ := h.block_isSome hn fbn (direct_of_le hne hoff)
      (room_of_turns hne hroom)
    rw [hb] at hsome
    cases hsome
  | case4 img din off data hne fbn hfbn img₁ din₁ x hb hbuf =>
    obtain ⟨_, _, _, hsome, hx, -⟩ := h.block_isSome hn fbn (direct_of_le hne hoff)
      (room_of_turns hne hroom)
    obtain ⟨rfl, rfl, rfl⟩ : _ ∧ _ ∧ _ := by simpa [hb] using hsome
    rw [rsect, if_pos hx] at hbuf
    cases hbuf
  | case5 img din off data hne fbn hfbn img₁ din₁ x hb len buf hbuf ih =>
    obtain ⟨_, _, _, hsome, hx, hfree⟩ := h.block_isSome hn fbn (direct_of_le hne hoff)
      (room_of_turns hne hroom)
    obtain ⟨rfl, rfl, rfl⟩ : _ ∧ _ ∧ _ := by simpa [hb] using hsome
    have hturn := h.turn hn hf hne (Nat.not_le.mp hfbn) hb hx
      (buf.splice (off - fbn * blockSize) len (fun j => (data[j]?).getD 0))
    have hlen : len ≤ data.length := min_le_left _ _
    have hturns : turns (off + len) (data.length - len) + 1 ≤ turns off data.length := turns_step hne
    have hfree' : (img₁.wsect x (buf.splice (off - fbn * blockSize) len
        (fun j => (data[j]?).getD 0))).freeblock = img₁.freeblock := rfl
    obtain ⟨img', din', off', hrest, hle⟩ := ih hturn.appending hturn.filled
      (by rw [List.length_drop]; omega) (by rw [List.length_drop, hfree']; omega)
    rw [List.length_drop, hfree'] at hle
    exact ⟨img', din', off', hrest, by omega⟩

theorem Built.iappend_isSome {data : List UInt8} (h : Built img) (hn : n < ninodes)
    (hoff : (img.inode n).size + data.length ≤ directPointerCount * blockSize)
    (hroom : img.freeblock + turns (img.inode n).size data.length ≤ fsSize) :
    ∃ img', img.iappend n data = some img' ∧
      img'.freeblock ≤ img.freeblock + turns (img.inode n).size data.length := by
  have hload := load_inode img hn
  have ha : Appending img n (img.inode n) :=
    ⟨by rw [hload]; exact h.wellFormed, h.zeroTail, h.nmeta_le, h.freeblock_le⟩
  obtain ⟨img₁, din', off', hl, hle⟩ :=
    ha.loop_isSome hn (by rw [hload]; exact h.filled n hn) hoff hroom
  have hi : img.iappend n data = img₁.winode n { din' with size := off' } := by
    unfold Image.iappend
    rw [rinode_eq hn]
    simp only [hl]
  rw [winode_eq hn] at hi
  exact ⟨_, hi, hle⟩

/-- An entry takes one turn. -/
theorem turns_entry (k : ℕ) : turns (k * entrySize) entrySize = 1 := by
  rw [turns, if_neg (by decide)]
  simp only [entrySize, blockSize]
  omega

/-- An entry of the root, which has room for the entries of all inodes. -/
theorem Built.entry_isSome {k number : ℕ} (h : Built img) (name : Name)
    (hname : name.length ≤ maxEntryNameLength) (hnumber : number < ninodes)
    (hsize : (img.inode rootInodeNumber).size = k * entrySize) (hk : k < ninodes)
    (hroom : img.freeblock + 1 ≤ fsSize) :
    ∃ img', img.iappend rootInodeNumber (entryBytes name number) = some img' ∧
      img'.freeblock ≤ img.freeblock + 1 := by
  have hlen := entryBytes_length hname hnumber
  have hturns : turns (img.inode rootInodeNumber).size (entryBytes name number).length = 1 := by
    rw [hsize, hlen, turns_entry]
  have hoff : (img.inode rootInodeNumber).size + (entryBytes name number).length ≤
      directPointerCount * blockSize := by
    rw [hsize, hlen]
    simp only [entrySize, directPointerCount, blockSize, ninodes] at *
    omega
  have hi := h.iappend_isSome rootInodeNumber_lt hoff (by rw [hturns]; exact hroom)
  rwa [hturns] at hi

theorem Rooted.addFile_isSome {f : SourceFile} {k : ℕ} (h : Rooted img k) (hk : k < ninodes)
    (hroot : rootInodeNumber < k) (hreads : f.reads = []) (hname : (shortname f.basename).isSome)
    (hroom : img.freeblock + 1 ≤ fsSize) :
    ∃ img', img.addFile f = some img' ∧ img'.freeblock ≤ img.freeblock + 1 := by
  obtain ⟨name, hname⟩ := Option.isSome_iff_exists.mp hname
  obtain ⟨img₁, halloc, hb₁, -, hblock₁, hsize₁⟩ := h.built.ialloc .file
    (by rw [h.freeinode_eq]; exact hk)
  rw [h.freeinode_eq] at halloc hsize₁
  have hsize : (img₁.inode rootInodeNumber).size = k * entrySize := by
    rw [hsize₁ _ rootInodeNumber_lt, if_neg hroot.ne, h.size_eq]
  obtain ⟨img₂, happ, hle⟩ := hb₁.entry_isSome name (shortname_le hname) hk hsize hk
    (by rw [hblock₁]; exact hroom)
  refine ⟨img₂, ?_, by rw [← hblock₁]; exact hle⟩
  unfold Image.addFile
  simp only [hname, halloc, happ, hreads, Option.bind_eq_bind, Option.bind_some]
  rfl

theorem Rooted.addFiles_isSome {files : List SourceFile} {k : ℕ} (h : Rooted img k)
    (hroot : rootInodeNumber < k) (hk : k + files.length ≤ ninodes)
    (hfiles : ∀ f ∈ files, f.reads = [] ∧ (shortname f.basename).isSome)
    (hroom : img.freeblock + files.length ≤ fsSize) :
    ∃ img', img.addFiles files = some img' := by
  induction files generalizing img k with
  | nil => exact ⟨img, rfl⟩
  | cons f files ih =>
    rw [List.length_cons] at hk hroom
    obtain ⟨hreads, hname⟩ := hfiles f List.mem_cons_self
    obtain ⟨img₁, hadd, hle⟩ := h.addFile_isSome (by omega) hroot hreads hname (by omega)
    obtain ⟨img', hrest⟩ := ih (h.addFile (by omega) hroot hadd) (by omega) (by omega)
      (fun f hf => hfiles f (List.mem_cons_of_mem _ hf)) (by omega)
    exact ⟨img', by rw [Image.addFiles, hadd]; exact hrest⟩

theorem makeRoot_isSome : ∃ img, makeRoot = some img ∧ img.freeblock ≤ nmeta + 2 := by
  obtain ⟨img₁, halloc, hb₁, -, hblock₁, hsize₁⟩ :=
    blank_built.ialloc .dir (by decide)
  have hroot : (blank.wsect 1 superBlockSector).freeinode = rootInodeNumber := rfl
  have hfree : (blank.wsect 1 superBlockSector).freeblock = nmeta := rfl
  have hnmeta : nmeta + 2 ≤ fsSize := by decide
  rw [hroot] at halloc hsize₁
  rw [hfree] at hblock₁
  have hsize : (img₁.inode rootInodeNumber).size = 0 * entrySize := by
    rw [hsize₁ _ rootInodeNumber_lt, if_pos rfl, Nat.zero_mul]
  obtain ⟨img₂, hdot, hle₂⟩ := hb₁.entry_isSome dot (by decide) rootInodeNumber_lt hsize
    (by decide) (by omega)
  obtain ⟨hb₂, -, hsize₂⟩ := hb₁.iappend rootInodeNumber_lt hdot
  have hsize' : (img₂.inode rootInodeNumber).size = 1 * entrySize := by
    rw [hsize₂ _ rootInodeNumber_lt, hsize, if_pos rfl,
      entryBytes_length (by decide) rootInodeNumber_lt, Nat.zero_mul, Nat.zero_add, Nat.one_mul]
  obtain ⟨img₃, hdotdot, hle₃⟩ := hb₂.entry_isSome dotdot (by decide) rootInodeNumber_lt
    hsize' (by decide) (by omega)
  refine ⟨img₃, ?_, by omega⟩
  unfold makeRoot
  simp only [halloc, Option.bind_eq_bind, Option.bind_some, guard, if_true, Option.pure_def, hdot,
    hdotdot]

/-- Files without contents fit as long as there are inodes for them. -/
theorem make_isSome {files : List SourceFile} (hlen : files.length + 2 ≤ ninodes)
    (hfiles : ∀ f ∈ files, f.reads = [] ∧ (shortname f.basename).isSome) :
    ∃ img, make files = some img := by
  obtain ⟨img₁, h₁, hle⟩ := makeRoot_isSome
  have hr := makeRoot_rooted h₁
  have hroom : nmeta + 2 + ninodes ≤ fsSize := by decide
  obtain ⟨img₂, h₂⟩ := hr.addFiles_isSome (by decide) (by omega) hfiles (by omega)
  obtain ⟨img₃, h₃, -⟩ := (hr.addFiles (by decide) (by omega) h₂).built.finish_finished
  refine ⟨img₃, ?_⟩
  unfold make
  simp only [h₁, h₂, Option.bind_eq_bind, Option.bind_some, h₃]

end Image

/-- The image of any files that fit has no hole if and only if the entries of the root
do not end with a block. -/
theorem make_holes {files : List SourceFile} {image : Image} (hlen : files.length + 2 ≤ ninodes)
    (hmake : make files = some image) : image.NoHoles ↔ (files.length + 2) % 32 ≠ 0 :=
  Image.make_noHoles_iff hlen hmake

/-- A file without contents, named `a`. -/
def emptyFile : SourceFile := ⟨[97], [], nofun⟩

theorem make_emptyFiles (count : ℕ) (hcount : count + 2 ≤ ninodes) :
    ∃ image, make (List.replicate count emptyFile) = some image := by
  refine Image.make_isSome (by rwa [List.length_replicate]) (fun f hf => ?_)
  rw [List.eq_of_mem_replicate hf]
  exact ⟨rfl, rfl⟩

theorem make_holes_one : ∃ image, make (List.replicate 1 emptyFile) = some image ∧
    image.NoHoles := by
  obtain ⟨image, himage⟩ := make_emptyFiles 1 (by decide)
  exact ⟨image, himage, (make_holes (by decide) himage).mpr (by decide)⟩

/-- With thirty files the rounded size of the root covers a block that it does not have. -/
theorem make_thirty_hole : ∃ image, make (List.replicate 30 emptyFile) = some image ∧
    ¬ image.NoHoles := by
  obtain ⟨image, himage⟩ := make_emptyFiles 30 (by decide)
  exact ⟨image, himage, fun h => (Image.make_noHoles_iff (by decide) himage).mp h (by decide)⟩

end Zigmaos.MakeFilesystem
