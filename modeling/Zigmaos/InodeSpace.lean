import Zigmaos.InodeContents

/-!
# Room for a file

How many blocks a file lacks up to an offset, set against the blocks that are
free. As long as there are enough, `getBlock` below the offset returns a block and
there are still enough.
-/
namespace Zigmaos.InodeBlocks

namespace State

def freeBlocks (s : State) : Finset ℕ := {b ∈ Finset.range s.superSize | s.used b = false}

/-- The indices of the blocks below `stop` that the file does not have. -/
def missing (s : State) (n stop : ℕ) : Finset ℕ :=
  {i ∈ Finset.range ((stop + (blockSize - 1)) / blockSize) | s.blockEntry n i = 0}

/-- One, if the file will need an indirect block that it does not have. -/
def missingIndirect (s : State) (n stop : ℕ) : ℕ :=
  if directPointerCount * blockSize < stop ∧ (s.inodes n).addrs indirectPointerBlockIndex = 0 then 1
  else 0

/-- There are free blocks for all bytes of the file below `stop`. -/
def Enough (s : State) (n stop : ℕ) : Prop :=
  (s.missing n stop).card + s.missingIndirect n stop ≤ s.freeBlocks.card

instance (s : State) (n stop : ℕ) : Decidable (s.Enough n stop) :=
  inferInstanceAs (Decidable (_ ≤ _))

theorem mem_freeBlocks {s : State} {b : ℕ} :
    b ∈ s.freeBlocks ↔ b < s.superSize ∧ s.used b = false := by
  rw [freeBlocks, Finset.mem_filter, Finset.mem_range]

theorem mem_missing {s : State} {n stop i : ℕ} :
    i ∈ s.missing n stop ↔ i * blockSize < stop ∧ s.blockEntry n i = 0 := by
  rw [missing, Finset.mem_filter, Finset.mem_range]
  simp only [blockSize]
  have : i < (stop + (1024 - 1)) / 1024 ↔ i * 1024 < stop := by omega
  rw [this]

/-- `allocate` finds a block where there is one. -/
theorem allocate_isSome {s : State} (ho : 0 < s.outstanding) (h : s.freeBlocks.Nonempty) :
    ∃ b, s.allocate = .ok (some b, s.withBlock b) := by
  obtain ⟨c, hc⟩ := h
  obtain ⟨hlt, hfree⟩ := mem_freeBlocks.mp hc
  cases hf : (List.range ((s.superSize + (bitmapBitsPerBlock - 1)) / bitmapBitsPerBlock)).findSome?
      (fun k => s.findFree (k * bitmapBitsPerBlock)) with
  | none =>
    exfalso
    have hnone := List.findSome?_eq_none_iff.mp hf (c / bitmapBitsPerBlock) (by
      rw [List.mem_range]
      simp only [bitmapBitsPerBlock, blockSize]
      omega)
    have hall := List.find?_eq_none.mp (Option.map_eq_none_iff.mp hnone) (c % bitmapBitsPerBlock) (by
      rw [List.mem_range]
      simp only [bitmapBitsPerBlock, blockSize]
      omega)
    have hsum : c / bitmapBitsPerBlock * bitmapBitsPerBlock + c % bitmapBitsPerBlock = c := by
      rw [Nat.mul_comm, Nat.div_add_mod]
    rw [hsum, hfree] at hall
    exact hall rfl
  | some b =>
    have h₁ : (s.setUsed b true).logWrite = .ok (s.setUsed b true) := logWrite_eq_ok.mpr ⟨ho, rfl⟩
    have h₂ : ((s.setUsed b true).setBlock b .zero).logWrite =
        .ok ((s.setUsed b true).setBlock b .zero) := logWrite_eq_ok.mpr ⟨ho, rfl⟩
    refine ⟨b, ?_⟩
    unfold allocate
    simp only [hf, h₁, h₂]
    rfl

/-- An allocation takes one block. -/
theorem card_freeBlocks {s : State} {b : ℕ} (ha : s.allocate = .ok (some b, s.withBlock b))
    (s' : State) (hused : s'.used = (s.withBlock b).used) (hsize : s'.superSize = s.superSize) :
    s'.freeBlocks.card + 1 = s.freeBlocks.card := by
  obtain ⟨hb, hlt, -⟩ := allocate_some ha
  have hmem : b ∈ s.freeBlocks := mem_freeBlocks.mpr ⟨hlt, hb⟩
  have herase : s'.freeBlocks = s.freeBlocks.erase b := by
    ext c
    have hc : s'.used c = if c = b then true else s.used c := by
      rw [hused]
      exact setUsed_used s b c true
    rw [Finset.mem_erase, mem_freeBlocks, mem_freeBlocks, hc, hsize]
    by_cases hcb : c = b
    · simp [hcb]
    · simp [hcb]
  rw [herase, Finset.card_erase_add_one hmem]

/-- A block that is entered is missing no more. -/
theorem card_missing {s s' : State} {n stop index : ℕ} (hindex : index * blockSize < stop)
    (hzero : s.blockEntry n index = 0) (hne : s'.blockEntry n index ≠ 0)
    (hother : ∀ i ≠ index, s'.blockEntry n i = s.blockEntry n i) :
    (s'.missing n stop).card + 1 = (s.missing n stop).card := by
  have herase : s'.missing n stop = (s.missing n stop).erase index := by
    ext i
    rw [Finset.mem_erase, mem_missing, mem_missing]
    by_cases hi : i = index
    · simp [hi, hne]
    · simp [hi, hother i hi]
  rw [herase, Finset.card_erase_add_one (mem_missing.mpr ⟨hindex, hzero⟩)]

end State

open State

variable {live : ℕ → Prop} {s s' : State} {n : ℕ}

/-- Room for a block that the file lacks. -/
theorem State.Enough.nonempty {stop index : ℕ} (h : s.Enough n stop)
    (hindex : index * blockSize < stop) (hzero : s.blockEntry n index = 0) :
    s.freeBlocks.Nonempty := by
  have hpos : 0 < (s.missing n stop).card :=
    Finset.card_pos.mpr ⟨index, mem_missing.mpr ⟨hindex, hzero⟩⟩
  unfold State.Enough at h
  exact Finset.card_pos.mp (by omega)

theorem pointerBlock_of_allocate {i : Fin 13} {b : ℕ} (hzero : (s.inodes n).addrs i = 0)
    (ha : s.allocate = .ok (some b, s.withBlock b)) :
    s.pointerBlock n i = .ok (some b, (s.withBlock b).setAddr n i b) := by
  unfold pointerBlock getDiskBlockDirect
  simp only [if_pos hzero, ha]

theorem entryBlock_of_allocate {ib k b : ℕ} (ho : 0 < s.outstanding) (hzero : s.entry ib k = 0)
    (ha : s.allocate = .ok (some b, s.withBlock b)) :
    s.entryBlock ib k = .ok (some b, (s.withBlock b).setBlock ib
      (((s.withBlock b).blocks ib).writeField (4 * k) 4 b)) := by
  have hlog : ((s.withBlock b).setBlock ib
      (((s.withBlock b).blocks ib).writeField (4 * k) 4 b)).logWrite = .ok ((s.withBlock b).setBlock ib
      (((s.withBlock b).blocks ib).writeField (4 * k) 4 b)) := logWrite_eq_ok.mpr ⟨ho, rfl⟩
  unfold entryBlock
  rw [if_neg (not_not.mpr hzero), ha]
  simp only [hlog]

/-- A new indirect block is one that the file was to need. -/
theorem pointerBlock_enough (h : WellFormed live s) (hn : live n) (ho : 0 < s.outstanding)
    {stop index : ℕ} (hindex : index * blockSize < stop) (hzero : s.blockEntry n index = 0)
    (hindirect : directPointerCount ≤ index) (henough : s.Enough n stop) :
    ∃ b s₁, s.pointerBlock n indirectPointerBlockIndex = .ok (some b, s₁) ∧ s₁.Enough n stop ∧
      s₁.blockEntry n index = 0 ∧ s₁.outstanding = s.outstanding := by
  by_cases hp : (s.inodes n).addrs indirectPointerBlockIndex = 0
  · obtain ⟨b, ha⟩ := allocate_isSome ho (henough.nonempty hindex hzero)
    have hb := pointerBlock_of_allocate hp ha
    have hkept := pointerBlock_kept h hn hb
    have hentries := fun i => hkept.blockEntry_indirect hn i
    refine ⟨b, _, hb, ?_, by rw [hentries, hzero], rfl⟩
    have hcard := card_freeBlocks ha
      ((s.withBlock b).setAddr n indirectPointerBlockIndex b) rfl rfl
    have hmissing : ((s.withBlock b).setAddr n indirectPointerBlockIndex b).missing n stop =
        s.missing n stop := by
      ext i
      rw [mem_missing, mem_missing, hentries]
    have hpos : b ≠ 0 := (h.fresh ha).pos
    have hone : s.missingIndirect n stop = 1 := by
      refine if_pos ⟨?_, hp⟩
      exact (Nat.mul_le_mul_right blockSize hindirect).trans_lt hindex
    have hnone : ((s.withBlock b).setAddr n indirectPointerBlockIndex b).missingIndirect n stop = 0 := by
      refine if_neg (fun hboth => hpos ?_)
      have := hboth.2
      rwa [setAddr_addrs, if_pos ⟨rfl, rfl⟩] at this
    unfold State.Enough at *
    rw [hmissing, hnone]
    omega
  · refine ⟨(s.inodes n).addrs indirectPointerBlockIndex, s, ?_, henough, hzero, rfl⟩
    unfold pointerBlock getDiskBlockDirect
    simp only [if_neg hp]

/-- A block that is allocated is one that was missing. -/
theorem State.Enough.fill {stop index b : ℕ} (h : s.Enough n stop)
    (ha : s.allocate = .ok (some b, s.withBlock b)) (hused : s'.used = (s.withBlock b).used)
    (hsize : s'.superSize = s.superSize) (hindex : index * blockSize < stop)
    (hzero : s.blockEntry n index = 0) (hne : s'.blockEntry n index ≠ 0)
    (hother : ∀ i ≠ index, s'.blockEntry n i = s.blockEntry n i)
    (hp : (s'.inodes n).addrs indirectPointerBlockIndex =
      (s.inodes n).addrs indirectPointerBlockIndex) : s'.Enough n stop := by
  have hfree := card_freeBlocks ha _ hused hsize
  have hmissing := card_missing hindex hzero hne hother
  have hindirect : s'.missingIndirect n stop = s.missingIndirect n stop := by
    rw [missingIndirect, missingIndirect, hp]
  unfold State.Enough at *
  omega

theorem getBlock_of_pointerBlock {index ib : ℕ} (hd : ¬ index < directPointerCount)
    (hk : index - directPointerCount < indirectPointerCount)
    (hp : s.pointerBlock n indirectPointerBlockIndex = .ok (some ib, s')) :
    s.getBlock n index = s'.entryBlock ib (index - directPointerCount) := by
  rw [State.getBlock, dif_neg hd]
  simp only [if_neg (Nat.not_le.mpr hk), hp]

/-- Below `stop` there is always a block to write to. -/
theorem getBlock_enough (h : WellFormed live s) (hn : live n) (ho : 0 < s.outstanding)
    {stop : ℕ} (index : ℕ) (hindex : index * blockSize < stop)
    (hstop : stop ≤ maxFileBlockCount * blockSize) (henough : s.Enough n stop) :
    ∃ b s', s.getBlock n index = .ok (some b, s') ∧ s'.Enough n stop := by
  have hlt : index < directPointerCount + indirectPointerCount := by
    simp only [maxFileBlockCount, directPointerCount, indirectPointerCount, blockSize] at *
    omega
  by_cases hzero : s.blockEntry n index = 0
  · by_cases hd : index < directPointerCount
    · have hp : (s.inodes n).addrs ⟨index, hd.trans (by decide)⟩ = 0 := by
        rwa [blockEntry, dif_pos hd] at hzero
      obtain ⟨b, ha⟩ := allocate_isSome ho (henough.nonempty hindex hzero)
      have hr : s.getBlock n index =
          .ok (some b, (s.withBlock b).setAddr n ⟨index, hd.trans (by decide)⟩ b) := by
        rw [State.getBlock, dif_pos hd, pointerBlock_of_allocate hp ha]
      obtain ⟨-, -, hb⟩ := getBlock_spec h hn hr
      obtain ⟨hb, hne⟩ := hb b rfl
      refine ⟨b, _, hr, henough.fill ha rfl rfl hindex hzero (fun hz => hne (hb.symm.trans hz))
        (fun i hi => (getBlock_kept h hn hr).blockEntry_eq hn hlt hi) ?_⟩
      have hdiff : ¬ (n = n ∧ indirectPointerBlockIndex = ⟨index, hd.trans (by decide)⟩) := by
        intro hboth
        have hval : 12 = index := congrArg Fin.val hboth.2
        exact absurd hd (by rw [← hval]; decide)
      rw [setAddr_addrs, if_neg hdiff]
      rfl
    · have hk : index - directPointerCount < indirectPointerCount := by omega
      obtain ⟨ib, s₁, hp, henough₁, hzero₁, ho₁⟩ :=
        pointerBlock_enough h hn ho hindex hzero (Nat.not_lt.mp hd) henough
      obtain ⟨hw₁, -, hib⟩ := pointerBlock_got h hn hp
      obtain ⟨hib, hne⟩ := hib ib rfl
      obtain rfl : (s₁.inodes n).addrs indirectPointerBlockIndex = ib := hib
      obtain ⟨b, ha⟩ := allocate_isSome (ho₁.symm ▸ ho) (henough₁.nonempty hindex hzero₁)
      have hentry : s₁.entry ((s₁.inodes n).addrs indirectPointerBlockIndex)
          (index - directPointerCount) = 0 := by
        rwa [blockEntry, dif_neg hd, if_pos hk, if_neg hne] at hzero₁
      have he := entryBlock_of_allocate (ho₁.symm ▸ ho) hentry ha
      have hp₁ : s₁.pointerBlock n indirectPointerBlockIndex =
          .ok (some ((s₁.inodes n).addrs indirectPointerBlockIndex), s₁) := by
        unfold pointerBlock getDiskBlockDirect
        simp only [if_neg hne]
      have hr := (getBlock_of_pointerBlock hd hk hp).trans he
      have hr₁ := (getBlock_of_pointerBlock hd hk hp₁).trans he
      obtain ⟨-, -, hb⟩ := getBlock_spec hw₁ hn hr₁
      obtain ⟨hb, hne'⟩ := hb b rfl
      exact ⟨b, _, hr, henough₁.fill ha rfl rfl hindex hzero₁ (fun hz => hne' (hb.symm.trans hz))
        (fun i hi => (getBlock_kept hw₁ hn hr₁).blockEntry_eq hn hlt hi) rfl⟩
  · exact ⟨_, s, getBlock_of_blockEntry hzero, henough⟩

theorem State.Enough.congr {stop : ℕ} (h : s.Enough n stop) (hused : s'.used = s.used)
    (hsize : s'.superSize = s.superSize) (hentry : ∀ i, s'.blockEntry n i = s.blockEntry n i)
    (hp : (s'.inodes n).addrs indirectPointerBlockIndex =
      (s.inodes n).addrs indirectPointerBlockIndex) : s'.Enough n stop := by
  have hfree : s'.freeBlocks = s.freeBlocks := by
    ext b
    rw [mem_freeBlocks, mem_freeBlocks, hused, hsize]
  have hmissing : s'.missing n stop = s.missing n stop := by
    ext i
    rw [mem_missing, mem_missing, hentry]
  unfold State.Enough at *
  rwa [hfree, hmissing, missingIndirect, hp]

theorem State.Enough.setBlock {stop index : ℕ} (h : s.Enough n stop) (hw : WellFormed live s)
    (hn : live n) (hne : s.blockEntry n index ≠ 0) (data : Block) :
    (s.setBlock (s.blockEntry n index) data).Enough n stop :=
  h.congr rfl rfl (blockEntry_congr (fun slot => hw.setBlock_target hn hne data n slot hn)) rfl

theorem State.Enough.copied {stop index b : ℕ} (h : s.Enough n stop) (hw : WellFormed live s)
    (hn : live n) (hb : s.blockEntry n index = b) (hne : b ≠ 0) (offset : ℕ) (bytes : List UInt8) :
    (s.copied b offset bytes).Enough n stop := by
  subst hb
  exact h.setBlock hw hn hne _

/-! ## A write that gets all its bytes -/

/-- What a write of `count` bytes leaves behind. -/
structure Written (live : ℕ → Prop) (n offset count : ℕ) (src : ℕ → UInt8) (stop : ℕ)
    (s s' : State) : Prop where
  wellFormed : WellFormed live s'
  enough : s'.Enough n stop
  outstanding_eq : s'.outstanding = s.outstanding
  fileByte_eq : ∀ k, s'.fileByte n k =
    if offset ≤ k ∧ k < offset + count then src (k - offset) else s.fileByte n k

theorem writeLoop_full (h : WellFormed live s) (hn : live n) (ho : 0 < s.outstanding)
    {stop : ℕ} (hstop : stop ≤ maxFileBlockCount * blockSize) (henough : s.Enough n stop)
    (src : ℕ → UInt8) (limit : ℕ) {offset written remaining : ℕ} (hle : offset + remaining ≤ stop)
    (hlimit : written + remaining ≤ limit) :
    ∃ s', s.writeLoop n (source src limit) offset written remaining =
        .ok (offset + remaining, written + remaining, s') ∧ Grows live s s' ∧
      Written live n offset remaining (fun k => src (written + k)) stop s s' := by
  induction remaining using Nat.strong_induction_on generalizing s offset written with
  | _ remaining ih =>
    by_cases hzero : remaining = 0
    · subst hzero
      refine ⟨s, ?_, .refl s, h, henough, rfl, fun k => ?_⟩
      · rw [State.writeLoop, if_pos rfl]
        rfl
      · rw [if_neg (by omega)]
    · have hpos := bytesThisBlock_pos offset hzero
      have hcount : bytesThisBlock offset remaining ≤ remaining := min_le_left _ _
      obtain ⟨b, s₁, hr, henough₁⟩ := getBlock_enough h hn ho (offset / blockSize) (by
        have := Nat.div_mul_le_self offset blockSize
        omega) hstop henough
      obtain ⟨hw₁, -, hb⟩ := getBlock_spec h hn hr
      obtain ⟨hb, hne⟩ := hb b rfl
      have ho₁ : s₁.outstanding = s.outstanding := (getBlock_kept h hn hr).outstanding_eq
      obtain ⟨hw₂, hg₂, ho₂, hbyte₂⟩ := getBlock_source h hn src limit written
        remaining hr rfl
      have hmin : min (bytesThisBlock offset remaining) (limit - written) =
          bytesThisBlock offset remaining := by omega
      rw [hmin] at hbyte₂
      have henough₂ := henough₁.copied hw₁ hn hb hne offset
        (source src limit written (bytesThisBlock offset remaining)).1
      rw [writeLoop_turn hzero hr (by omega)]
      simp only [if_pos (show written + bytesThisBlock offset remaining ≤ limit by omega)]
      generalize s₁.copied b offset
        (source src limit written (bytesThisBlock offset remaining)).1 = s₂ at *
      generalize bytesThisBlock offset remaining = count at *
      have hle₂ : offset + count + (remaining - count) ≤ stop := by omega
      have hlimit₂ : written + count + (remaining - count) ≤ limit := by omega
      obtain ⟨s', hloop, hg', hdone⟩ := ih (remaining - count) (by omega) hw₂ (by omega) henough₂
        hle₂ hlimit₂
      refine ⟨s', ?_, hg₂.trans hg', hdone.wellFormed, hdone.enough,
        hdone.outstanding_eq.trans ho₂, fun k => ?_⟩
      · rw [hloop, show offset + count + (remaining - count) = offset + remaining by omega,
          show written + count + (remaining - count) = written + remaining by omega]
      · rw [hdone.fileByte_eq, hbyte₂]
        by_cases hk : offset + count ≤ k ∧ k < offset + count + (remaining - count)
        · rw [if_pos hk, if_pos (by omega)]
          congr 1
          omega
        · rw [if_neg hk]
          by_cases hk' : offset ≤ k ∧ k < offset + count
          · rw [if_pos hk', if_pos (by omega)]
          · rw [if_neg hk', if_neg (by omega)]

@[simp] theorem setSize_blockEntry (s : State) (n size m i : ℕ) :
    (s.setSize n size).blockEntry m i = s.blockEntry m i :=
  blockEntry_congr (fun slot => setSize_target s n size m slot) i

@[simp] theorem setSize_fileByte (s : State) (n size m k : ℕ) :
    (s.setSize n size).fileByte m k = s.fileByte m k := by
  simp only [State.fileByte, held, setSize_blockEntry]
  rfl

theorem Written.setSize {offset count stop : ℕ} {src : ℕ → UInt8}
    (h : Written live n offset count src stop s s') (size : ℕ) :
    Written live n offset count src stop s (s'.setSize n size) where
  wellFormed := h.wellFormed.congr rfl rfl rfl (fun m slot _ => setSize_target s' n size m slot)
  enough := h.enough.congr rfl rfl (fun i => setSize_blockEntry s' n size n i)
    (setSize_target s' n size n (.pointer _))
  outstanding_eq := h.outstanding_eq
  fileByte_eq k := by rw [setSize_fileByte, h.fileByte_eq]

/-- `Inode.write` of mapped bytes, with enough free blocks and below the limit of a file. -/
theorem write_full (h : WellFormed live s) (hn : live n) (ho : 0 < s.outstanding)
    {stop : ℕ} (hstop : stop ≤ maxFileBlockCount * blockSize) (henough : s.Enough n stop)
    (src : ℕ → UInt8) (limit : ℕ) {offset count : ℕ} (hoffset : offset ≤ (s.inodes n).size)
    (hle : offset + count ≤ stop) (hlimit : count ≤ limit) :
    ∃ s', s.write n (source src limit) offset count = .ok (.ok count, s') ∧
      (∀ m, (s'.inodes m).type = (s.inodes m).type) ∧
      (s'.inodes n).size = max (s.inodes n).size (offset + count) ∧
      Written live n offset count src stop s s' := by
  have hlimit : 0 + count ≤ limit := by omega
  obtain ⟨s₁, hloop, hg, hdone⟩ := writeLoop_full h hn ho hstop henough src limit hle hlimit
  have hsize : (s₁.inodes n).size = (s.inodes n).size := hg.size_eq n
  have ho₁ := hdone.outstanding_eq
  have hsmall : maxFileBlockCount * blockSize < 2 ^ 32 := by decide
  have hcomm : blockSize * maxFileBlockCount = maxFileBlockCount * blockSize := Nat.mul_comm ..
  have hwritten : Written live n offset count src stop s s₁ := by
    simpa only [Nat.zero_add] using hdone
  unfold State.write
  rw [if_neg (by omega), if_neg (by omega), if_neg (by omega), hloop, Nat.zero_add]
  by_cases hgrow : (s₁.inodes n).size < offset + count
  · have hlog : (s₁.setSize n (offset + count)).logWrite = .ok (s₁.setSize n (offset + count)) :=
      logWrite_eq_ok.mpr ⟨by change 0 < s₁.outstanding; omega, rfl⟩
    refine ⟨s₁.setSize n (offset + count), by simp only [if_pos hgrow, hlog], fun m => ?_, ?_,
      hwritten.setSize _⟩
    · rw [← hg.type_eq m]
      simp only [State.setSize, setInode_inodes]
      split
      next hm => rw [hm]
      · rfl
    · rw [State.setSize, setInode_inodes, if_pos rfl]
      change offset + count = _
      omega
  · have hlog : s₁.logWrite = .ok s₁ := logWrite_eq_ok.mpr ⟨by omega, rfl⟩
    exact ⟨s₁, by simp only [if_neg hgrow, hlog], hg.type_eq, by omega, hwritten⟩

end Zigmaos.InodeBlocks
