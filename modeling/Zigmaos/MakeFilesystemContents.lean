import Zigmaos.MakeFilesystemInvariant
import Zigmaos.InodeArrays

/-!
# What the image holds

`iappend` puts its data behind the bytes of one file and leaves the other files
alone, and it takes the blocks that the file lacks. So whether `make` gets to its
end, how many blocks it hands out and what the kernel reads afterwards follow from
the source files.
-/
namespace Zigmaos.MakeFilesystem
open LittleEndian
open InodeBlocks (State WellFormed Beside directPointerCount indirectPointerBlockIndex
  indirectPointerCount maxFileBlockCount)

/-- The blocks of a file of that size, with the indirect one. -/
def fileBlocks (size : ℕ) : ℕ :=
  (size + (blockSize - 1)) / blockSize + if directPointerCount * blockSize < size then 1 else 0

theorem fileBlocks_mono {size size' : ℕ} (h : size ≤ size') : fileBlocks size ≤ fileBlocks size' := by
  unfold fileBlocks
  split <;> split
  all_goals
    simp only [directPointerCount, blockSize] at *
    omega

/-- The bytes behind the first one of a block come without another block. -/
theorem fileBlocks_add {off len : ℕ} (hpos : len ≠ 0)
    (hlen : len ≤ (off / blockSize + 1) * blockSize - off) :
    fileBlocks (off + len) = fileBlocks (off + 1) := by
  unfold fileBlocks
  split <;> split
  all_goals
    simp only [directPointerCount, blockSize] at *
    omega

theorem fileBlocks_inside {off : ℕ} (h : off % blockSize ≠ 0) :
    fileBlocks (off + 1) = fileBlocks off := by
  unfold fileBlocks
  split <;> split
  all_goals
    simp only [directPointerCount, blockSize] at *
    omega

/-- The first byte of a block comes with it, and with the indirect one where that is new. -/
theorem fileBlocks_begin {off : ℕ} (h : off % blockSize = 0) :
    fileBlocks (off + 1) =
      fileBlocks off + 1 + if off = directPointerCount * blockSize then 1 else 0 := by
  unfold fileBlocks
  split <;> split <;> split
  all_goals
    simp only [directPointerCount, blockSize] at *
    omega

namespace Image

variable {img img' : Image} {n m : ℕ} {din : DiskInode}

/-- The inode has an indirect block where the offset lies beyond the direct ones. -/
def Indirect (din : DiskInode) (off : ℕ) : Prop :=
  din.addrs indirectPointerBlockIndex ≠ 0 ↔ directPointerCount * blockSize < off

/-- The block of a turn is there, or it is handed out. -/
structure TookBlock (img img' : Image) (din' : DiskInode) (off x : ℕ) : Prop where
  lt : x < fsSize
  freeblock_eq : img'.freeblock + fileBlocks off = img.freeblock + fileBlocks (off + 1)
  indirect : Indirect din' (off + 1)
  meta_eq : ∀ b < nmeta, img'.sectors b = img.sectors b

theorem Filled.eq_zero_iff {s : State} {off : ℕ} (h : Filled s n off) :
    s.blockEntry n (off / blockSize) = 0 ↔ off % blockSize = 0 := by
  rw [← not_iff_not, ← ne_eq, h]
  simp only [blockSize]
  omega

theorem Appending.took_direct {off : ℕ} (h : Appending img n din) (hn : n < ninodes)
    (hf : Filled (img.load n din) n off) (hi : Indirect din off)
    (hd : off / blockSize < directPointerCount)
    (hroom : img.freeblock + fileBlocks (off + 1) ≤ fsSize + fileBlocks off) :
    ∃ img' din' x, img.iappendBlock din (off / blockSize) = some (img', din', x) ∧
      TookBlock img img' din' off x := by
  have hbefore : off < directPointerCount * blockSize :=
    (Nat.div_lt_iff_lt_mul (by decide)).mp hd
  let i : Fin 13 := ⟨off / blockSize, hd.trans (by decide)⟩
  have hentry : (img.load n din).blockEntry n (off / blockSize) = din.addrs i := by
    rw [State.blockEntry, dif_pos hd, load_addrs]
  have hzero := Filled.eq_zero_iff hf
  rw [hentry] at hzero
  have hne : indirectPointerBlockIndex ≠ i := fun heq =>
    hd.ne (congrArg Fin.val heq).symm
  have hindirect : Indirect (img.fillAddr din i).2 (off + 1) := by
    have hsame : (img.fillAddr din i).2.addrs indirectPointerBlockIndex =
        din.addrs indirectPointerBlockIndex := by
      by_cases hz : din.addrs i = 0
      · rw [fillAddr_of_eq hz]
        exact Function.update_of_ne hne _ _
      · rw [fillAddr_of_ne hz]
    unfold Indirect at *
    rw [hsame, hi]
    omega
  have hcount : (img.fillAddr din i).1.freeblock + fileBlocks off =
      img.freeblock + fileBlocks (off + 1) := by
    by_cases hz : din.addrs i = 0
    · rw [fillAddr_of_eq hz, fileBlocks_begin (hzero.mp hz), if_neg hbefore.ne]
      simp only [nextBlock]
      omega
    · rw [fillAddr_of_ne hz, fileBlocks_inside (mt hzero.mpr hz)]
  obtain ⟨-, hlt⟩ := fillAddr_addr_lt h.wellFormed hn h.nmeta_le i
  exact ⟨_, _, _, by rw [iappendBlock, dif_pos hd], ⟨hlt.trans_le (by omega), hcount, hindirect, fun b _ => by
    rw [(fillAddr_freeblock img din i).2.2.1]⟩⟩

/-- The pointer to the indirect block, and the entries that it has then. -/
theorem Appending.fillIndirect {off : ℕ} (h : Appending img n din) (hn : n < ninodes)
    (hf : Filled (img.load n din) n off) (hi : Indirect din off)
    (hd : directPointerCount ≤ off / blockSize)
    (hroom : img.freeblock + fileBlocks (off + 1) ≤ fsSize + fileBlocks off) :
    ∃ img₁ din₁, img.fillAddr din indirectPointerBlockIndex = (img₁, din₁) ∧
      Appending img₁ n din₁ ∧ Filled (img₁.load n din₁) n off ∧
      nmeta ≤ din₁.addrs indirectPointerBlockIndex ∧
      din₁.addrs indirectPointerBlockIndex < fsSize ∧ img₁.sectors = img.sectors ∧
      img₁.freeblock = img.freeblock + if off = directPointerCount * blockSize then 1 else 0 := by
  have hfree : (img.fillAddr din indirectPointerBlockIndex).1.freeblock =
      img.freeblock + if off = directPointerCount * blockSize then 1 else 0 := by
    by_cases hz : din.addrs indirectPointerBlockIndex = 0
    · have hoff : off = directPointerCount * blockSize := by
        have hle := mt hi.mpr (not_not.mpr hz)
        simp only [directPointerCount, blockSize] at *
        omega
      rw [fillAddr_of_eq hz, if_pos hoff]
      rfl
    · have hoff : off ≠ directPointerCount * blockSize := by
        have hlt := hi.mp hz
        omega
      rw [fillAddr_of_ne hz, if_neg hoff]
      rfl
  have hle : (img.fillAddr din indirectPointerBlockIndex).1.freeblock ≤ fsSize := by
    have hcount := h.freeblock_le
    rw [hfree]
    split
    next hoff =>
      have hmod : off % blockSize = 0 := by rw [hoff]; decide
      have hblocks := fileBlocks_begin hmod
      rw [if_pos hoff] at hblocks
      omega
    · exact hcount
  obtain ⟨hge, hlt⟩ := fillAddr_addr_lt h.wellFormed hn h.nmeta_le indirectPointerBlockIndex
  obtain ⟨ha, hp⟩ := h.fillAddr hn (hlt.trans_le hle)
  have hkept := InodeBlocks.pointerBlock_kept h.wellFormed hn hp
  refine ⟨(img.fillAddr din indirectPointerBlockIndex).1,
    (img.fillAddr din indirectPointerBlockIndex).2, rfl, ha, fun i => ?_, hge, hlt.trans_le hle,
    (fillAddr_freeblock img din _).2.2.1, hfree⟩
  rw [hkept.blockEntry_indirect hn, hf]

theorem Appending.took_indirect {off : ℕ} (h : Appending img n din) (hn : n < ninodes)
    (hf : Filled (img.load n din) n off) (hi : Indirect din off)
    (hd : directPointerCount ≤ off / blockSize) (hfbn : off / blockSize < maxFileBlockCount)
    (hroom : img.freeblock + fileBlocks (off + 1) ≤ fsSize + fileBlocks off) :
    ∃ img' din' x, img.iappendBlock din (off / blockSize) = some (img', din', x) ∧
      TookBlock img img' din' off x := by
  obtain ⟨img₁, din₁, hfill, ha, hf₁, hge, hlt, hsectors, hfree⟩ :=
    h.fillIndirect hn hf hi hd hroom
  have hne : din₁.addrs indirectPointerBlockIndex ≠ 0 := (nmeta_pos.trans_le hge).ne'
  have hk : off / blockSize - directPointerCount < indirectPointerCount := by
    simp only [maxFileBlockCount] at hfbn
    omega
  have hentry : (img₁.load n din₁).blockEntry n (off / blockSize) =
      (img₁.sectors (din₁.addrs indirectPointerBlockIndex)).readField
        (4 * (off / blockSize - directPointerCount)) 4 := by
    rw [State.blockEntry, dif_neg (Nat.not_lt.mpr hd), if_pos hk, load_addrs, if_neg hne]
    rfl
  have hzero := Filled.eq_zero_iff hf₁
  have hindirect : Indirect din₁ (off + 1) := by
    refine ⟨fun _ => ?_, fun _ => hne⟩
    simp only [directPointerCount, blockSize] at *
    omega
  have hrun : img.iappendBlock din (off / blockSize) =
      if (img₁.sectors (din₁.addrs indirectPointerBlockIndex)).readField
          (4 * (off / blockSize - directPointerCount)) 4 = 0 then
        some (img₁.nextBlock.wsect (din₁.addrs indirectPointerBlockIndex)
            ((img₁.sectors (din₁.addrs indirectPointerBlockIndex)).writeField
              (4 * (off / blockSize - directPointerCount)) 4 img₁.freeblock), din₁,
          ((img₁.sectors (din₁.addrs indirectPointerBlockIndex)).writeField
            (4 * (off / blockSize - directPointerCount)) 4 img₁.freeblock).readField
              (4 * (off / blockSize - directPointerCount)) 4)
      else some (img₁, din₁, (img₁.sectors (din₁.addrs indirectPointerBlockIndex)).readField
          (4 * (off / blockSize - directPointerCount)) 4) := by
    rw [iappendBlock, dif_neg (Nat.not_lt.mpr hd), hfill]
    simp only [rsect, if_pos hlt]
    rfl
  rw [← hentry] at hrun
  by_cases hz : (img₁.load n din₁).blockEntry n (off / blockSize) = 0
  · have hblocks := fileBlocks_begin (hzero.mp hz)
    have hlt₁ : img₁.freeblock < fsSize := by omega
    rw [if_pos hz, Block.readField_writeField _ _ _ _ (by
      simp only [indirectPointerCount, blockSize] at *; omega)] at hrun
    refine ⟨_, _, _, hrun, ⟨?_, ?_, hindirect, fun b hb => ?_⟩⟩
    · exact (Nat.mod_le _ _).trans_lt hlt₁
    · simp only [wsect, nextBlock]
      omega
    · rw [wsect_sectors, if_neg (by omega), ← hsectors]
      rfl
  · have hmod := mt hzero.mpr hz
    have hoff : off ≠ directPointerCount * blockSize := by
      rintro rfl
      exact hmod (by decide)
    rw [if_neg hz] at hrun
    refine ⟨_, _, _, hrun, ⟨?_, by
      rw [hfree, if_neg hoff, fileBlocks_inside hmod]
      rfl, hindirect, fun b _ => by rw [hsectors]⟩⟩
    rw [State.blockEntry_eq (by simp only [maxFileBlockCount] at hfbn; omega)] at hz ⊢
    obtain ⟨-, hused⟩ := ha.wellFormed.target_used n _ hn hz
    exact (of_decide_eq_true hused).trans_le ha.freeblock_le

/-- There is a block for the next byte. -/
theorem Appending.took {off : ℕ} (h : Appending img n din) (hn : n < ninodes)
    (hf : Filled (img.load n din) n off) (hi : Indirect din off)
    (hfbn : off / blockSize < maxFileBlockCount)
    (hroom : img.freeblock + fileBlocks (off + 1) ≤ fsSize + fileBlocks off) :
    ∃ img' din' x, img.iappendBlock din (off / blockSize) = some (img', din', x) ∧
      TookBlock img img' din' off x := by
  by_cases hd : off / blockSize < directPointerCount
  · exact h.took_direct hn hf hi hd hroom
  · exact h.took_indirect hn hf hi (Nat.not_lt.mp hd) hfbn hroom

/-! ## Appending -/

/-- What an append of `data` from `off` on leaves of the image and of the inode in hand. -/
structure Extended (img img' : Image) (n : ℕ) (din din' : DiskInode) (off : ℕ)
    (data : List UInt8) : Prop where
  appended : Appended img img' n din din' (off + data.length)
  freeblock_eq : img'.freeblock + fileBlocks off = img.freeblock + fileBlocks (off + data.length)
  indirect : Indirect din' (off + data.length)
  fileByte_eq : ∀ k, (img'.load n din').fileByte n k =
    if off ≤ k ∧ k < off + data.length then data.getD (k - off) 0
    else (img.load n din).fileByte n k
  beside : Beside (· < ninodes) n (img.load n din) (img'.load n din')
  meta_eq : ∀ b < nmeta, img'.sectors b = img.sectors b

theorem Extended.trans {img₁ : Image} {din₁ din' : DiskInode} {off : ℕ} {data data' : List UInt8}
    (h : Extended img img₁ n din din₁ off data)
    (h' : Extended img₁ img' n din₁ din' (off + data.length) data') :
    Extended img img' n din din' off (data ++ data') where
  appended := by
    rw [List.length_append, ← Nat.add_assoc]
    exact h.appended.trans h'.appended
  freeblock_eq := by
    have hfree := h.freeblock_eq
    have hfree' := h'.freeblock_eq
    rw [List.length_append, ← Nat.add_assoc]
    omega
  indirect := by
    rw [List.length_append, ← Nat.add_assoc]
    exact h'.indirect
  fileByte_eq k := by
    rw [h'.fileByte_eq, h.fileByte_eq, List.length_append]
    by_cases hlt : k < off + data.length
    · rw [if_neg (by omega)]
      by_cases hle : off ≤ k
      · rw [if_pos ⟨hle, hlt⟩, if_pos (by omega), List.getD_eq_getElem?_getD,
          List.getD_eq_getElem?_getD, List.getElem?_append_left (by omega)]
      · rw [if_neg (by omega), if_neg (by omega)]
    · by_cases hlt' : k < off + data.length + data'.length
      · rw [if_pos (by omega), if_pos (by omega), List.getD_eq_getElem?_getD,
          List.getD_eq_getElem?_getD, List.getElem?_append_right (by omega), Nat.sub_sub]
      · rw [if_neg (by omega), if_neg (by omega), if_neg (by omega)]
  beside := h.beside.trans h'.beside
  meta_eq b hb := (h'.meta_eq b hb).trans (h.meta_eq b hb)

/-- A turn writes the bytes that go into its block. -/
theorem Appending.extend {off len x : ℕ} {data : List UInt8} {din' : DiskInode}
    (h : Appending img n din) (hn : n < ninodes) (hf : Filled (img.load n din) n off)
    (hpos : data.length ≠ 0) (hfbn : off / blockSize < maxFileBlockCount)
    (hb : img.iappendBlock din (off / blockSize) = some (img', din', x))
    (htook : TookBlock img img' din' off x)
    (hlen : len = min data.length ((off / blockSize + 1) * blockSize - off)) :
    Extended img (img'.wsect x ((img'.sectors x).splice (off - off / blockSize * blockSize) len
      (fun j => (data[j]?).getD 0))) n din din' off (data.take len) := by
  have hle : len ≤ data.length := hlen ▸ min_le_left _ _
  have hpos' : len ≠ 0 := by
    simp only [blockSize] at *
    omega
  have htake : (data.take len).length = len := by rw [List.length_take, Nat.min_eq_left hle]
  have hblocks : fileBlocks (off + len) = fileBlocks (off + 1) :=
    fileBlocks_add hpos' (hlen ▸ min_le_right _ _)
  have hgot := h.block hn hfbn hb htook.lt
  have hheld : img'.sectors x = (img.load n din).held n (off / blockSize) :=
    InodeBlocks.getBlock_held h.wellFormed hn hgot.getBlock_eq
  have hmod : off - off / blockSize * blockSize = off % blockSize := by
    have := Nat.div_add_mod' off blockSize
    omega
  have hfit : off % blockSize + len ≤ blockSize := by
    simp only [blockSize] at *
    omega
  rw [hmod, hheld]
  have hturn := InodeBlocks.getBlock_turn h.wellFormed hn hgot.getBlock_eq
    (((img.load n din).held n (off / blockSize)).splice (off % blockSize) len
      (fun j => (data[j]?).getD 0))
  have hbeside := InodeBlocks.getBlock_beside h.wellFormed hn hgot.getBlock_eq
    (((img.load n din).held n (off / blockSize)).splice (off % blockSize) len
      (fun j => (data[j]?).getD 0))
  rw [← load_wsect hgot.nmeta_le] at hturn hbeside
  refine ⟨?_, ?_, ?_, fun k => ?_, hbeside, fun b hb => ?_⟩
  · rw [htake, hlen]
    exact h.turn hn hf hpos hfbn hb htook.lt _
  · rw [htake, hblocks]
    exact htook.freeblock_eq
  · rw [htake]
    have hi := htook.indirect
    unfold Indirect at *
    rw [hi]
    simp only [directPointerCount, blockSize] at *
    omega
  · rw [hturn.fileByte hfit, htake]
    split
    next hk =>
      rw [← List.getD_eq_getElem?_getD, List.getD_eq_getElem?_getD, List.getD_eq_getElem?_getD,
        List.getElem?_take_of_lt (by omega)]
    · rfl
  · have hge := hgot.nmeta_le
    rw [wsect_sectors, if_neg (by omega), htook.meta_eq b hb]

theorem Extended.refl {off : ℕ} (h : Appending img n din) (hf : Filled (img.load n din) n off)
    (hi : Indirect din off) : Extended img img n din din off [] where
  appended := ⟨h, hf, fun _ _ _ _ => rfl, fun _ _ => rfl, rfl, rfl⟩
  freeblock_eq := rfl
  indirect := hi
  fileByte_eq k := by
    rw [if_neg]
    simp only [List.length_nil]
    omega
  beside := .refl _
  meta_eq _ _ := rfl

/-- The loop of `iappend` goes through when its blocks are there, and appends. -/
theorem Appending.extends {off : ℕ} {data : List UInt8} (h : Appending img n din)
    (hn : n < ninodes) (hf : Filled (img.load n din) n off) (hi : Indirect din off)
    (hoff : off + data.length ≤ maxFileBlockCount * blockSize)
    (hroom : img.freeblock + fileBlocks (off + data.length) ≤ fsSize + fileBlocks off) :
    ∃ img' din', img.iappendLoop din off data = some (img', din', off + data.length) ∧
      Extended img img' n din din' off data := by
  induction hlength : data.length using Nat.strong_induction_on
    generalizing img din off data with
  | _ length ih =>
    subst hlength
    by_cases hpos : data.length = 0
    · obtain rfl := List.eq_nil_of_length_eq_zero hpos
      exact ⟨img, din, by rw [iappendLoop, if_pos hpos]; rfl, .refl h hf hi⟩
    · have hfbn : off / blockSize < maxFileBlockCount :=
        (Nat.div_lt_iff_lt_mul (by decide)).mpr (by omega)
      have hfirst : fileBlocks (off + 1) ≤ fileBlocks (off + data.length) :=
        fileBlocks_mono (by omega)
      obtain ⟨img₁, din₁, x, hb, htook⟩ := h.took hn hf hi hfbn (by omega)
      have hlen : min data.length ((off / blockSize + 1) * blockSize - off) ≠ 0 := by
        simp only [blockSize]
        omega
      have hle : min data.length ((off / blockSize + 1) * blockSize - off) ≤ data.length :=
        min_le_left _ _
      have hext := h.extend hn hf hpos hfbn hb htook rfl
      have hstep : img.iappendLoop din off data =
          (img₁.wsect x ((img₁.sectors x).splice (off - off / blockSize * blockSize)
            (min data.length ((off / blockSize + 1) * blockSize - off))
            (fun j => (data[j]?).getD 0))).iappendLoop din₁
              (off + min data.length ((off / blockSize + 1) * blockSize - off))
              (data.drop (min data.length ((off / blockSize + 1) * blockSize - off))) := by
        rw [iappendLoop, if_neg hpos]
        simp only [if_neg (Nat.not_le.mpr hfbn), hb, rsect, if_pos htook.lt]
      generalize min data.length ((off / blockSize + 1) * blockSize - off) = len at *
      generalize img₁.wsect x _ = img₂ at *
      have htake : (data.take len).length = len := by rw [List.length_take, Nat.min_eq_left hle]
      have hdrop : (data.drop len).length = data.length - len := List.length_drop
      have hsum : off + len + (data.length - len) = off + data.length := by omega
      have hfilled := hext.appended.filled
      have hindirect := hext.indirect
      have hcount := hext.freeblock_eq
      rw [htake] at hfilled hindirect hcount
      obtain ⟨img', din', hrest, hext'⟩ := ih (data.drop len).length (by omega)
        hext.appended.appending hfilled hindirect (by omega) (by rw [hdrop, hsum]; omega) rfl
      rw [hdrop, hsum] at hrest
      refine ⟨img', din', hstep.trans hrest, ?_⟩
      rw [← htake] at hext'
      have hall := hext.trans hext'
      rwa [htake, List.take_append_drop] at hall

/-! ## The files between two appends -/

/-- The blocks of an inode are counted by its size, and zero behind it. -/
structure Counted (img : Image) : Prop extends Built img where
  indirect : ∀ n < ninodes, Indirect (img.inode n) (img.inode n).size
  zeroEnd : ∀ n < ninodes, ∀ k, (img.inode n).size ≤ k → img.mount.fileByte n k = 0

theorem length_file (img : Image) (hn : n < ninodes) :
    (img.mount.file n).length = (img.inode n).size := by
  rw [InodeBlocks.length_file, mount_inodes hn]
  rfl

/-- The size of the inode in hand is not among its addresses. -/
theorem load_size_target (img : Image) (n : ℕ) (din : DiskInode) (size m : ℕ)
    (slot : InodeBlocks.Slot) :
    (img.load n { din with size := size }).target m slot = (img.load n din).target m slot := by
  have haddrs : ((img.load n { din with size := size }).inodes m).addrs =
      ((img.load n din).inodes m).addrs := by
    simp only [load, State.setInode_inodes]
    split <;> rfl
  exact State.target_congr haddrs (fun _ => rfl) slot

theorem Wrote.fileByte_eq (h : Wrote img img' n din)
    (hw : WellFormed (· < ninodes) (img.load n din)) (hm : m < ninodes) (k : ℕ) :
    img'.mount.fileByte m k = (img.load n din).fileByte m k := by
  unfold State.fileByte State.held
  rw [h.blockEntry_eq hw hm]
  split
  · rfl
  next hne =>
    have hlt := State.index_lt_of_blockEntry hne
    rw [State.blockEntry_eq hlt] at hne ⊢
    exact congrArg (fun b : Block => b.byte _)
      (h.sectors_eq _ (hw.target_used m _ hm hne).1)

/-- What `iappend` leaves of the image. -/
structure Grown (img img' : Image) (n : ℕ) (data : List UInt8) : Prop where
  counted : Counted img'
  freeinode_eq : img'.freeinode = img.freeinode
  freeblock_eq : img'.freeblock + fileBlocks (img.mount.file n).length =
    img.freeblock + fileBlocks ((img.mount.file n).length + data.length)
  file_eq : img'.mount.file n = img.mount.file n ++ data
  other_eq : ∀ m < ninodes, m ≠ n → img'.mount.file m = img.mount.file m
  type_eq : ∀ m < ninodes, (img'.inode m).type = (img.inode m).type
  super_eq : img'.sectors 1 = img.sectors 1

theorem Counted.iappend (h : Counted img) (hn : n < ninodes) {data : List UInt8}
    (hlen : (img.mount.file n).length + data.length ≤ maxFileBlockCount * blockSize)
    (hroom : img.freeblock + fileBlocks ((img.mount.file n).length + data.length) ≤
      fsSize + fileBlocks (img.mount.file n).length) :
    ∃ img', img.iappend n data = some img' ∧ Grown img img' n data := by
  rw [length_file img hn] at hlen hroom
  have hload := load_inode img hn
  have ha : Appending img n (img.inode n) :=
    ⟨by rw [hload]; exact h.wellFormed, h.zeroTail, h.nmeta_le, h.freeblock_le⟩
  obtain ⟨img₁, din', hl, hext⟩ := ha.extends hn (by rw [hload]; exact h.filled n hn)
    (h.indirect n hn) hlen hroom
  have happ := hext.appended
  have hold : (img.inode n).Fits := .ofBlock _ _
  have hfits : { din' with size := (img.inode n).size + data.length }.Fits :=
    happ.appending.fits hn happ.filled (by rw [happ.din_eq]; exact hold.device)
      (by rw [happ.din_eq]; exact hold.type) (by rw [happ.din_eq]; exact hold.linkCount)
  obtain ⟨img', hwin, hwrote⟩ := winode_wrote img₁ hn hfits
  have hi : img.iappend n data = some img' := by
    unfold Image.iappend
    rw [rinode_eq hn]
    simp only [hl, hwin]
  obtain ⟨hbuilt, hfree, hsize⟩ := h.toBuilt.iappend hn hi
  have hw : WellFormed (· < ninodes)
      (img₁.load n { din' with size := (img.inode n).size + data.length }) :=
    happ.appending.wellFormed.congr rfl rfl rfl (fun m slot _ => load_size_target ..)
  have hbytes : ∀ m < ninodes, ∀ k, img'.mount.fileByte m k = (img₁.load n din').fileByte m k := by
    intro m hm k
    rw [hwrote.fileByte_eq hw hm]
    unfold State.fileByte State.held
    rw [InodeBlocks.blockEntry_congr (fun slot => load_size_target ..)]
    rfl
  have hsizes : ∀ m < ninodes, (img'.mount.inodes m).size =
      (img.inode m).size + if m = n then data.length else 0 := by
    intro m hm
    rw [mount_inodes hm]
    exact hsize m hm
  have hinode : ∀ m < ninodes, (img.mount.inodes m).size = (img.inode m).size := by
    intro m hm
    rw [mount_inodes hm]
    rfl
  refine ⟨img', hi, ⟨hbuilt, fun m hm => ?_, fun m hm k hk => ?_⟩, hfree, ?_, ?_,
    fun m hm hmn => ?_, fun m hm => ?_,
    (winode_super hn hwin).trans (hext.meta_eq 1 (by decide))⟩
  · rw [hwrote.inode_eq m hm]
    by_cases hmn : m = n
    · rw [if_pos hmn]
      exact hext.indirect
    · rw [if_neg hmn, happ.inode_eq m hm]
      exact h.indirect m hm
  · rw [hsize m hm] at hk
    rw [hbytes m hm]
    by_cases hmn : m = n
    · subst hmn
      rw [if_pos rfl] at hk
      rw [hext.fileByte_eq, if_neg (by omega), hload]
      exact h.zeroEnd m hm k (by omega)
    · rw [if_neg hmn] at hk
      rw [(hext.beside m hmn hm).2, hload]
      exact h.zeroEnd m hm k hk
  · rw [length_file img hn, hwrote.freeblock_eq]
    exact hext.freeblock_eq
  · have hgrown : (img'.mount.inodes n).size =
        max (img.mount.inodes n).size ((img.inode n).size + data.length) := by
      rw [hsizes n hn, hinode n hn, if_pos rfl]
      omega
    have hsplice := InodeBlocks.file_splice (hinode n hn).ge hgrown
      (fun k => by rw [hbytes n hn, hext.fileByte_eq, hload])
    rw [hsplice, InodeBlocks.splice, ← length_file img hn, List.take_length,
      List.drop_eq_nil_of_le (Nat.le_add_right _ _), List.append_nil]
  · obtain ⟨-, hother⟩ := hext.beside m hmn hm
    unfold State.file State.bytesAt
    rw [hsizes m hm, hinode m hm, if_neg hmn, Nat.add_zero]
    refine List.map_congr_left fun k _ => ?_
    rw [hbytes m hm, hother, hload]
  · rw [hwrote.inode_eq m hm]
    split
    next hmn =>
      have htype : din'.type = (img.inode n).type := by rw [happ.din_eq]
      rw [hmn]
      exact htype
    · rw [happ.inode_eq m hm]

/-! ## Inodes and files -/

/-- What `ialloc` leaves of the image. -/
structure Allocated (img img' : Image) (fileType : FileType) : Prop where
  counted : Counted img'
  freeinode_eq : img'.freeinode = img.freeinode + 1
  freeblock_eq : img'.freeblock = img.freeblock
  file_eq : img'.mount.file img.freeinode = []
  other_eq : ∀ m < ninodes, m ≠ img.freeinode → img'.mount.file m = img.mount.file m
  type_eq : ∀ m < ninodes, (img'.inode m).type =
    if m = img.freeinode then fileType.toNat else (img.inode m).type
  super_eq : img'.sectors 1 = img.sectors 1

theorem Counted.ialloc (h : Counted img) (fileType : FileType) (hn : img.freeinode < ninodes) :
    ∃ img', img.ialloc fileType = some (img.freeinode, img') ∧ Allocated img img' fileType := by
  let din : DiskInode := { DiskInode.zero with type := fileType.toNat, linkCount := 1 }
  let img₀ : Image := { img with freeinode := img.freeinode + 1 }
  have hfits : din.Fits :=
    ⟨Nat.two_pow_pos 32, Nat.two_pow_pos 32, fun _ => Nat.two_pow_pos 32,
      by cases fileType <;> decide, Nat.one_lt_two_pow (by decide)⟩
  obtain ⟨img', halloc, hbuilt, hfreeinode, hfreeblock, hsize⟩ := h.toBuilt.ialloc fileType hn
  obtain ⟨img₁, hwin, hwrote⟩ := winode_wrote img₀ hn hfits
  obtain rfl : img₁ = img' := by
    unfold Image.ialloc at halloc
    have hall := (congrArg (Option.map (img.freeinode, ·)) hwin).symm.trans halloc
    exact (Prod.mk.inj (Option.some.inj hall)).2
  have hsuper : img₁.sectors 1 = img₀.sectors 1 := winode_super hn hwin
  have hbuilt₀ : Built img₀ := ⟨h.wellFormed, h.zeroTail, h.nmeta_le, h.freeblock_le, h.filled⟩
  have hbytes : ∀ m < ninodes, ∀ k, img₁.mount.fileByte m k =
      if m = img.freeinode then 0 else img.mount.fileByte m k := by
    intro m hm k
    have haddrs : ∀ i, din.addrs i = 0 := fun _ => rfl
    rw [hwrote.fileByte_eq (hbuilt₀.load_of_addrs haddrs).wellFormed hm]
    unfold State.fileByte State.held
    rw [load_blockEntry_of_addrs haddrs]
    by_cases hmn : m = img.freeinode
    · rw [if_pos hmn, if_pos hmn, if_pos rfl, Block.byte_zero]
    · rw [if_neg hmn, if_neg hmn]
      rfl
  have hsizes : ∀ m < ninodes, (img₁.mount.inodes m).size =
      if m = img.freeinode then 0 else (img.mount.inodes m).size := by
    intro m hm
    rw [mount_inodes hm, mount_inodes hm]
    exact hsize m hm
  refine ⟨img₁, halloc, ⟨hbuilt, fun m hm => ?_, fun m hm k hk => ?_⟩, hfreeinode, hfreeblock, ?_,
    fun m hm hmn => ?_, fun m hm => ?_, hsuper⟩
  · rw [hwrote.inode_eq m hm]
    by_cases hmn : m = img.freeinode
    · rw [if_pos hmn]
      exact ⟨fun hne => absurd rfl hne, fun hlt => absurd hlt (Nat.not_lt_zero _)⟩
    · rw [if_neg hmn]
      exact h.indirect m hm
  · rw [hbytes m hm]
    by_cases hmn : m = img.freeinode
    · exact if_pos hmn
    · rw [hsize m hm, if_neg hmn] at hk
      rw [if_neg hmn]
      exact h.zeroEnd m hm k hk
  · rw [State.file, hsizes _ hn, if_pos rfl]
    rfl
  · unfold State.file State.bytesAt
    rw [hsizes m hm, if_neg hmn]
    refine List.map_congr_left fun k _ => ?_
    rw [hbytes m hm, if_neg hmn]
  · rw [hwrote.inode_eq m hm]
    split <;> rfl

theorem Grown.trans {img₁ : Image} {data data' : List UInt8} (h : Grown img img₁ n data)
    (h' : Grown img₁ img' n data') : Grown img img' n (data ++ data') where
  counted := h'.counted
  freeinode_eq := h'.freeinode_eq.trans h.freeinode_eq
  freeblock_eq := by
    have hcount := h.freeblock_eq
    have hcount' := h'.freeblock_eq
    rw [h.file_eq, List.length_append] at hcount'
    rw [List.length_append, ← Nat.add_assoc]
    omega
  file_eq := by rw [h'.file_eq, h.file_eq, List.append_assoc]
  other_eq m hm hmn := (h'.other_eq m hm hmn).trans (h.other_eq m hm hmn)
  type_eq m hm := (h'.type_eq m hm).trans (h.type_eq m hm)
  super_eq := h'.super_eq.trans h.super_eq

theorem Grown.refl (h : Counted img) (n : ℕ) : Grown img img n [] where
  counted := h
  freeinode_eq := rfl
  freeblock_eq := rfl
  file_eq := (List.append_nil _).symm
  other_eq _ _ _ := rfl
  type_eq _ _ := rfl
  super_eq := rfl

end Image

/-- What is read of a source file: all up to the end of the stream. -/
def readData (reads : List (List UInt8)) : List UInt8 :=
  (reads.takeWhile (fun amt => amt.length ≠ 0)).flatten

namespace Image

variable {img img' : Image} {n m : ℕ}

theorem Counted.iappendReads {reads : List (List UInt8)} (h : Counted img) (hn : n < ninodes)
    (hlen : (img.mount.file n).length + (readData reads).length ≤ maxFileBlockCount * blockSize)
    (hroom : img.freeblock + fileBlocks ((img.mount.file n).length + (readData reads).length) ≤
      fsSize + fileBlocks (img.mount.file n).length) :
    ∃ img', img.iappendReads n reads = some img' ∧ Grown img img' n (readData reads) := by
  induction reads generalizing img with
  | nil => exact ⟨img, rfl, .refl h n⟩
  | cons amt reads ih =>
    by_cases hzero : amt.length = 0
    · have hdata : readData (amt :: reads) = [] := by
        rw [readData, List.takeWhile_cons_of_neg (by simpa using hzero), List.flatten_nil]
      rw [hdata]
      exact ⟨img, by rw [Image.iappendReads, if_pos hzero], .refl h n⟩
    · have hdata : readData (amt :: reads) = amt ++ readData reads := by
        rw [readData, List.takeWhile_cons_of_pos (by simpa using hzero), List.flatten_cons]
        rfl
      rw [hdata, List.length_append, ← Nat.add_assoc] at hlen hroom
      rw [hdata]
      have hmono : fileBlocks ((img.mount.file n).length + amt.length) ≤
          fileBlocks ((img.mount.file n).length + amt.length + (readData reads).length) :=
        fileBlocks_mono (Nat.le_add_right _ _)
      obtain ⟨img₁, hi, hgrown⟩ : ∃ img', img.iappend n amt = some img' ∧ Grown img img' n amt :=
        h.iappend hn (by omega) (by omega)
      have hcount := hgrown.freeblock_eq
      have hlength : (img₁.mount.file n).length = (img.mount.file n).length + amt.length := by
        rw [hgrown.file_eq, List.length_append]
      obtain ⟨img', hrest, hgrown'⟩ := ih hgrown.counted (by omega) (by rw [hlength]; omega)
      refine ⟨img', ?_, hgrown.trans hgrown'⟩
      rw [Image.iappendReads, if_neg hzero, hi]
      exact hrest

end Image

/-! ## The root -/

/-- The entries of the root. -/
def rootEntries (names : List Name) : List (Name × ℕ) :=
  (dot, rootInodeNumber) :: (dotdot, rootInodeNumber) :: names.zipIdx 2

def rootBytes (names : List Name) : List UInt8 :=
  (rootEntries names).flatMap (fun entry => Image.entryBytes entry.1 entry.2)

theorem rootEntries_concat (names : List Name) (name : Name) :
    rootEntries (names ++ [name]) = rootEntries names ++ [(name, names.length + 2)] := by
  simp only [rootEntries, List.zipIdx_append, List.zipIdx_singleton, List.cons_append]
  rw [Nat.add_comm]

theorem rootBytes_concat (names : List Name) (name : Name) :
    rootBytes (names ++ [name]) = rootBytes names ++ Image.entryBytes name (names.length + 2) := by
  rw [rootBytes, rootEntries_concat, List.flatMap_append, List.flatMap_singleton]
  rfl

theorem rootEntries_length (names : List Name) : (rootEntries names).length = names.length + 2 := by
  simp [rootEntries]

/-- The blocks in use once the files are in the image. -/
def usedBlocks (files : List (Name × List UInt8)) : ℕ :=
  nmeta + fileBlocks ((files.length + 2) * entrySize) +
    (files.map (fun f => fileBlocks f.2.length)).sum

/-- What `make` takes from a source file, where its name fits an entry. -/
def named (f : SourceFile) : Option (Name × List UInt8) :=
  (Image.shortname f.basename).map (fun name => (name, readData f.reads))

namespace Image

variable {img img' : Image} {files : List (Name × List UInt8)}

/-- The image with the files that are in it. -/
structure Laid (img : Image) (files : List (Name × List UInt8)) : Prop where
  counted : Counted img
  freeinode_eq : img.freeinode = files.length + 2
  freeblock_eq : img.freeblock = usedBlocks files
  root_eq : img.mount.file rootInodeNumber = rootBytes (files.map Prod.fst)
  root_length : (img.mount.file rootInodeNumber).length = (files.length + 2) * entrySize
  root_type : (img.inode rootInodeNumber).type = FileType.dir.toNat
  file_eq : ∀ i f, files[i]? = some f → img.mount.file (i + 2) = f.2
  file_type : ∀ i < files.length, (img.inode (i + 2)).type = FileType.file.toNat
  super_eq : img.sectors 1 = superBlockSector

theorem usedBlocks_concat (files : List (Name × List UInt8)) (f : Name × List UInt8) :
    usedBlocks (files ++ [f]) + fileBlocks ((files.length + 2) * entrySize) =
      usedBlocks files + fileBlocks ((files.length + 2) * entrySize + entrySize) +
        fileBlocks f.2.length := by
  have hsize : (files.length + 1 + 2) * entrySize = (files.length + 2) * entrySize + entrySize := by
    ring
  simp only [usedBlocks, List.length_append, List.length_singleton, List.map_append, List.map_cons,
    List.map_nil, List.sum_append, List.sum_singleton, hsize]
  omega

theorem Laid.addFile {f : SourceFile} {name : Name} (h : Laid img files)
    (hlt : files.length + 2 < ninodes) (hname : shortname f.basename = some name)
    (hlen : (readData f.reads).length ≤ maxFileBlockCount * blockSize)
    (hroom : usedBlocks (files ++ [(name, readData f.reads)]) ≤ fsSize) :
    ∃ img', img.addFile f = some img' ∧ Laid img' (files ++ [(name, readData f.reads)]) := by
  have hroot : rootInodeNumber ≠ files.length + 2 := by
    simp only [rootInodeNumber]
    omega
  have hroot' := rootInodeNumber_lt
  obtain ⟨img₁, halloc, h₁⟩ := h.counted.ialloc .file (by rw [h.freeinode_eq]; exact hlt)
  rw [h.freeinode_eq] at halloc
  have hfile₁ := h₁.file_eq
  have hother₁ := h₁.other_eq
  have htype₁ := h₁.type_eq
  rw [h.freeinode_eq] at hfile₁ hother₁ htype₁
  have hentry := entryBytes_length (shortname_le hname) hlt
  have hused := usedBlocks_concat files (name, readData f.reads)
  have hfree := h.freeblock_eq
  have hfree₁ := h₁.freeblock_eq
  have hlength : (img₁.mount.file rootInodeNumber).length = (files.length + 2) * entrySize := by
    rw [hother₁ _ hroot' hroot, h.root_length]
  obtain ⟨img₂, happ, h₂⟩ : ∃ img', img₁.iappend rootInodeNumber
      (entryBytes name (files.length + 2)) = some img' ∧
        Grown img₁ img' rootInodeNumber (entryBytes name (files.length + 2)) := by
    refine h₁.counted.iappend hroot' ?_ ?_
    · rw [hlength, hentry]
      simp only [ninodes, entrySize, maxFileBlockCount, directPointerCount, indirectPointerCount,
        blockSize] at *
      omega
    · rw [hlength, hentry]
      simp only at hused
      omega
  have hcount₂ := h₂.freeblock_eq
  rw [hlength, hentry] at hcount₂
  have hempty : img₂.mount.file (files.length + 2) = [] := by
    rw [h₂.other_eq _ hlt hroot.symm, hfile₁]
  have hzero : fileBlocks 0 = 0 := by decide
  simp only at hused
  obtain ⟨img₃, hreads, h₃⟩ : ∃ img', img₂.iappendReads (files.length + 2) f.reads = some img' ∧
      Grown img₂ img' (files.length + 2) (readData f.reads) := by
    refine h₂.counted.iappendReads hlt ?_ ?_
    · rw [hempty, List.length_nil, Nat.zero_add]
      exact hlen
    · rw [hempty, List.length_nil, Nat.zero_add, hzero]
      omega
  have hcount₃ := h₃.freeblock_eq
  rw [hempty, List.length_nil, Nat.zero_add, hzero] at hcount₃
  have hroot₃ : img₃.mount.file rootInodeNumber =
      img.mount.file rootInodeNumber ++ entryBytes name (files.length + 2) := by
    rw [h₃.other_eq _ hroot' hroot, h₂.file_eq, hother₁ _ hroot' hroot]
  refine ⟨img₃, ?_, h₃.counted, ?_, ?_, ?_, ?_, ?_, fun i g hi => ?_, fun i hi => ?_,
    h₃.super_eq.trans (h₂.super_eq.trans (h₁.super_eq.trans h.super_eq))⟩
  · unfold Image.addFile
    simp only [hname, halloc, happ, Option.bind_eq_bind, Option.bind_some]
    exact hreads
  · rw [h₃.freeinode_eq, h₂.freeinode_eq, h₁.freeinode_eq, h.freeinode_eq, List.length_append,
      List.length_singleton]
  · omega
  · rw [hroot₃, h.root_eq, List.map_append, List.map_singleton, rootBytes_concat, List.length_map]
  · rw [hroot₃, List.length_append, h.root_length, hentry, List.length_append,
      List.length_singleton]
    ring
  · rw [h₃.type_eq _ hroot', h₂.type_eq _ hroot', htype₁ _ hroot', if_neg hroot, h.root_type]
  · by_cases hlast : i = files.length
    · subst hlast
      rw [List.getElem?_concat_length, Option.some.injEq] at hi
      rw [h₃.file_eq, hempty, List.nil_append, ← hi]
    · have hlt' : i < files.length := by
        have hbound := (List.getElem?_eq_some_iff.mp hi).1
        rw [List.length_append, List.length_singleton] at hbound
        omega
      rw [List.getElem?_append_left hlt'] at hi
      have hne : i + 2 ≠ rootInodeNumber := by
        simp only [rootInodeNumber]
        omega
      rw [h₃.other_eq _ (by omega) (by omega), h₂.other_eq _ (by omega) hne,
        hother₁ _ (by omega) (by omega), h.file_eq i g hi]
  · rw [List.length_append, List.length_singleton] at hi
    rw [h₃.type_eq _ (by omega), h₂.type_eq _ (by omega), htype₁ _ (by omega)]
    split
    · rfl
    · exact h.file_type i (by omega)

theorem usedBlocks_le (files files' : List (Name × List UInt8)) :
    usedBlocks files ≤ usedBlocks (files ++ files') := by
  have hsize : fileBlocks ((files.length + 2) * entrySize) ≤
      fileBlocks (((files ++ files').length + 2) * entrySize) := by
    refine fileBlocks_mono (Nat.mul_le_mul_right _ ?_)
    rw [List.length_append]
    omega
  simp only [usedBlocks, List.map_append, List.sum_append]
  omega

/-- The rest of the files goes in when there are blocks and inodes for them. -/
theorem Laid.addFiles {sources : List SourceFile} {rest : List (Name × List UInt8)}
    (h : Laid img files) (hlt : files.length + rest.length + 2 ≤ ninodes)
    (hrest : sources.map named = rest.map some)
    (hlen : ∀ f ∈ rest, f.2.length ≤ maxFileBlockCount * blockSize)
    (hroom : usedBlocks (files ++ rest) ≤ fsSize) :
    ∃ img', img.addFiles sources = some img' ∧ Laid img' (files ++ rest) := by
  induction sources generalizing img files rest with
  | nil =>
    obtain rfl : rest = [] := by simpa using hrest.symm
    exact ⟨img, rfl, by rwa [List.append_nil]⟩
  | cons f sources ih =>
    cases rest with
    | nil => exact absurd hrest nofun
    | cons g rest =>
      obtain ⟨hf, hsources⟩ : named f = some g ∧ sources.map named = rest.map some :=
        List.cons.inj hrest
      obtain ⟨name, hname, rfl⟩ := Option.map_eq_some_iff.mp hf
      rw [List.length_cons] at hlt
      have happend : files ++ (name, readData f.reads) :: rest =
          files ++ [(name, readData f.reads)] ++ rest := by rw [List.append_assoc, List.singleton_append]
      rw [happend] at hroom ⊢
      obtain ⟨img₁, hadd, h₁⟩ := h.addFile (by omega) hname
        (hlen (name, readData f.reads) List.mem_cons_self) ((usedBlocks_le _ _).trans hroom)
      obtain ⟨img', hadds, h'⟩ := ih h₁ (by rw [List.length_append, List.length_singleton]; omega)
        hsources (fun g hg => hlen g (List.mem_cons_of_mem _ hg)) hroom
      exact ⟨img', by rw [Image.addFiles, hadd]; exact hadds, h'⟩

theorem blank_counted : Counted (blank.wsect 1 superBlockSector) where
  toBuilt := blank_built
  indirect n _ := by
    rw [blank_inode n]
    exact ⟨fun hne => absurd rfl hne, fun hlt => absurd hlt (Nat.not_lt_zero _)⟩
  zeroEnd n hn k _ := by
    have haddrs : ∀ i, ((blank.wsect 1 superBlockSector).inode n).addrs i = 0 := by
      intro i
      rw [blank_inode n]
      rfl
    rw [State.fileByte, State.held, if_pos, Block.byte_zero]
    rw [← load_inode _ hn, load_blockEntry_of_addrs haddrs, if_pos rfl]

theorem makeRoot_laid : ∃ img, makeRoot = some img ∧ Laid img [] := by
  have hlt := rootInodeNumber_lt
  obtain ⟨img₁, halloc, h₁⟩ := blank_counted.ialloc .dir (by decide)
  have hroot : (blank.wsect 1 superBlockSector).freeinode = rootInodeNumber := rfl
  have hfree : (blank.wsect 1 superBlockSector).freeblock = nmeta := rfl
  have hfile₁ := h₁.file_eq
  have hfree₁ := h₁.freeblock_eq
  have hfreeinode₁ := h₁.freeinode_eq
  have htype₁ := h₁.type_eq _ hlt
  rw [hroot] at halloc hfile₁ hfreeinode₁ htype₁
  rw [hfree] at hfree₁
  have hroom : nmeta + 1 ≤ fsSize := by decide
  have hdot := entryBytes_length (show dot.length ≤ maxEntryNameLength by decide) hlt
  have hdotdot := entryBytes_length (show dotdot.length ≤ maxEntryNameLength by decide) hlt
  have hblocks₀ : fileBlocks 0 = 0 := by decide
  have hblocks₁ : fileBlocks entrySize = 1 := by decide
  have hblocks₂ : fileBlocks (entrySize + entrySize) = 1 := by decide
  obtain ⟨img₂, happ₂, h₂⟩ : ∃ img', img₁.iappend rootInodeNumber (entryBytes dot rootInodeNumber) =
      some img' ∧ Grown img₁ img' rootInodeNumber (entryBytes dot rootInodeNumber) := by
    refine h₁.counted.iappend hlt ?_ ?_
    · rw [hfile₁, List.length_nil, hdot]
      decide
    · rw [hfile₁, List.length_nil, hdot, Nat.zero_add, hblocks₁, hfree₁]
      omega
  have hfile₂ := h₂.file_eq
  have hcount₂ := h₂.freeblock_eq
  rw [hfile₁, List.nil_append] at hfile₂
  rw [hfile₁, List.length_nil, hdot, Nat.zero_add, hblocks₀, hblocks₁, hfree₁] at hcount₂
  obtain ⟨img₃, happ₃, h₃⟩ : ∃ img', img₂.iappend rootInodeNumber (entryBytes dotdot rootInodeNumber) =
      some img' ∧ Grown img₂ img' rootInodeNumber (entryBytes dotdot rootInodeNumber) := by
    refine h₂.counted.iappend hlt ?_ ?_
    · rw [hfile₂, hdot, hdotdot]
      decide
    · rw [hfile₂, hdot, hdotdot, hblocks₁, hblocks₂]
      omega
  have hfile₃ := h₃.file_eq
  have hcount₃ := h₃.freeblock_eq
  rw [hfile₂] at hfile₃
  rw [hfile₂, hdot, hdotdot, hblocks₁, hblocks₂] at hcount₃
  refine ⟨img₃, ?_, h₃.counted, ?_, ?_, ?_, ?_, ?_, nofun, fun i hi => absurd hi (Nat.not_lt_zero i),
    h₃.super_eq.trans (h₂.super_eq.trans h₁.super_eq)⟩
  · unfold makeRoot
    simp only [halloc, Option.bind_eq_bind, Option.bind_some, guard, if_true, Option.pure_def, happ₂,
      happ₃]
  · rw [h₃.freeinode_eq, h₂.freeinode_eq, hfreeinode₁]
    rfl
  · have hused : usedBlocks [] = nmeta + 1 := by decide
    omega
  · rw [hfile₃]
    simp only [rootBytes, rootEntries, List.map_nil, List.zipIdx_nil, List.flatMap_cons,
      List.flatMap_nil, List.append_nil]
  · rw [hfile₃, List.length_append, hdot, hdotdot]
    rfl
  · rw [h₃.type_eq _ hlt, h₂.type_eq _ hlt, htype₁, if_pos rfl]

end Image
end Zigmaos.MakeFilesystem
