import Zigmaos.InodeSpace

/-!
# Files as arrays of bytes

What the calls on an inode do to the list of bytes that it holds. Another inode
names none of its blocks, so no call changes the bytes of another file.
-/
namespace Zigmaos.InodeBlocks
open State

variable {live : ℕ → Prop} {s s' s'' : State} {n : ℕ}

/-! ## Other files -/

/-- The other files are as they were. -/
def Beside (live : ℕ → Prop) (n : ℕ) (s s' : State) : Prop :=
  ∀ m ≠ n, live m →
    (s'.inodes m).size = (s.inodes m).size ∧ ∀ k, s'.fileByte m k = s.fileByte m k

theorem Beside.refl (s : State) : Beside live n s s := fun _ _ _ => ⟨rfl, fun _ => rfl⟩

theorem Beside.trans (h : Beside live n s s') (h' : Beside live n s' s'') :
    Beside live n s s'' := by
  intro m hmn hm
  obtain ⟨hsize, hbytes⟩ := h m hmn hm
  obtain ⟨hsize', hbytes'⟩ := h' m hmn hm
  exact ⟨hsize'.trans hsize, fun k => (hbytes' k).trans (hbytes k)⟩

/-- A turn of a loop that gets its block, whatever becomes of the block. -/
theorem getBlock_beside (h : WellFormed live s) (hn : live n) {index b : ℕ}
    (hr : s.getBlock n index = .ok (some b, s')) (data : Block) :
    Beside live n s (s'.setBlock b data) := by
  have hkept := getBlock_kept h hn hr
  have hlt := getBlock_index_lt hr
  obtain ⟨hw, hg, hb⟩ := getBlock_spec h hn hr
  obtain ⟨hb, hne⟩ := hb b rfl
  have hturn := getBlock_turn h hn hr data
  intro m hmn hm
  refine ⟨hturn.grows.size_eq m, fun k => ?_⟩
  have hentry := hturn.other_eq m hmn hm (k / blockSize)
  unfold State.fileByte State.held
  rw [hentry]
  split
  · rfl
  next hnz =>
    have hk := index_lt_of_blockEntry hnz
    rw [State.blockEntry_eq hk] at hnz ⊢
    have hdiff : s.target m (slotOf (k / blockSize)) ≠ b := by
      have htarget : s'.target m (slotOf (k / blockSize)) = s.target m (slotOf (k / blockSize)) :=
        hg.target_eq m _ hm hnz
      rw [← htarget, ← hb, State.blockEntry_eq hlt]
      intro heq
      exact hmn (hw.target_inj m n _ _ hm hn (by rwa [htarget]) heq).1
    rw [setBlock_blocks, if_neg hdiff, hkept.blocks_eq m _ hm (slotOf_ne_indirect _) hnz]

theorem getBlock_none_beside (h : WellFormed live s) (hn : live n) {index : ℕ}
    (hr : s.getBlock n index = .ok (none, s')) : Beside live n s s' := by
  have hrefused := getBlock_refused h hn hr
  intro m hmn hm
  refine ⟨hrefused.grows.size_eq m, fun k => ?_⟩
  unfold State.fileByte State.held
  rw [hrefused.entry_eq m hm]
  split
  · rfl
  next hnz =>
    have hk := index_lt_of_blockEntry hnz
    rw [State.blockEntry_eq hk] at hnz ⊢
    unfold State.getBlock at hr
    split at hr
    · rw [pointerBlock_none hr]
    · simp only at hr
      split at hr
      · cases hr
      · split at hr
        · cases hr
        next hp =>
          cases hr
          rw [pointerBlock_none hp]
        next ib s₁ hp =>
          rw [entryBlock_none hr]
          rw [(pointerBlock_kept h hn hp).blocks_eq m _ hm (slotOf_ne_indirect _) hnz]

theorem setBlock_self (s : State) (b : ℕ) : s.setBlock b (s.blocks b) = s := by
  simp [State.setBlock]

theorem writeLoop_beside (h : WellFormed live s) (hn : live n)
    {copyIn : ℕ → ℕ → List UInt8 × Bool} {offset written remaining : ℕ} {r : ℕ × ℕ × State}
    (hr : s.writeLoop n copyIn offset written remaining = .ok r) : Beside live n s r.2.2 := by
  fun_induction State.writeLoop s n copyIn offset written remaining with
  | case1 s offset written =>
    cases hr
    exact Beside.refl s
  | case2 => cases hr
  | case3 s offset written remaining _ s₁ hs₁ =>
    cases hr
    exact getBlock_none_beside h hn hs₁
  | case4 => cases hr
  | case5 s offset written remaining _ b s₁ hs₁ count bytes s₂ _ s₃ hs₃ ih =>
    obtain ⟨-, rfl⟩ := logWrite_eq_ok.mp hs₃
    exact (getBlock_beside h hn hs₁ _).trans (ih (getBlock_turn h hn hs₁ _).wellFormed hr)
  | case6 s offset written remaining _ b s₁ hs₁ count bytes s₂ _ =>
    cases hr
    exact getBlock_beside h hn hs₁ _

/-! ## Reading -/

/-- The blocks below `stop` are there, or there is room for them. -/
def Readable (s : State) (n stop : ℕ) : Prop :=
  (∀ i, i * blockSize < stop → s.blockEntry n i ≠ 0) ∨ 0 < s.outstanding ∧ s.Enough n stop

/-- The block that a turn of `read` gets, with the bytes of the file. -/
theorem getBlock_readable (h : WellFormed live s) (hn : live n) {stop : ℕ} (index : ℕ)
    (hindex : index * blockSize < stop) (hstop : stop ≤ maxFileBlockCount * blockSize)
    (hread : Readable s n stop) :
    ∃ b s', s.getBlock n index = .ok (some b, s') ∧ Readable s' n stop := by
  obtain hthere | ⟨ho, henough⟩ := hread
  · exact ⟨_, s, getBlock_of_blockEntry (hthere index hindex), .inl hthere⟩
  · obtain ⟨b, s', hr, henough'⟩ := getBlock_enough h hn ho index hindex hstop henough
    refine ⟨b, s', hr, .inr ⟨?_, henough'⟩⟩
    rwa [(getBlock_kept h hn hr).outstanding_eq]

/-- What a read leaves behind: every file as it was. -/
structure Unchanged (live : ℕ → Prop) (n : ℕ) (s s' : State) : Prop where
  wellFormed : WellFormed live s'
  types : ∀ m, (s'.inodes m).type = (s.inodes m).type
  sizes : (s'.inodes n).size = (s.inodes n).size
  fileByte_eq : ∀ k, s'.fileByte n k = s.fileByte n k
  beside : Beside live n s s'

theorem getBlock_unchanged (h : WellFormed live s) (hn : live n) {index b : ℕ}
    (hr : s.getBlock n index = .ok (some b, s')) : Unchanged live n s s' := by
  have hturn := getBlock_turn h hn hr (s'.blocks b)
  have hbeside := getBlock_beside h hn hr (s'.blocks b)
  rw [setBlock_self] at hturn hbeside
  refine ⟨hturn.wellFormed, hturn.grows.type_eq, hturn.grows.size_eq n, fun k => ?_, hbeside⟩
  unfold State.fileByte
  by_cases hk : k / blockSize = index
  · rw [hk, hturn.held, getBlock_held h hn hr]
  · rw [hturn.held_eq _ hk]

theorem Unchanged.refl (h : WellFormed live s) : Unchanged live n s s :=
  ⟨h, fun _ => rfl, rfl, fun _ => rfl, Beside.refl s⟩

theorem Unchanged.trans (h : Unchanged live n s s') (h' : Unchanged live n s' s'') :
    Unchanged live n s s'' :=
  ⟨h'.wellFormed, fun m => (h'.types m).trans (h.types m), h'.sizes.trans h.sizes,
    fun k => (h'.fileByte_eq k).trans (h.fileByte_eq k), h.beside.trans h'.beside⟩

/-- Bytes of a file from an offset on. -/
def State.bytesAt (s : State) (n offset count : ℕ) : List UInt8 :=
  (List.range count).map fun i => s.fileByte n (offset + i)

theorem Unchanged.bytesAt (h : Unchanged live n s s') (offset count : ℕ) :
    s'.bytesAt n offset count = s.bytesAt n offset count :=
  List.map_congr_left fun _ _ => h.fileByte_eq _

theorem bytesAt_add (s : State) (n offset count count' : ℕ) :
    s.bytesAt n offset (count + count') =
      s.bytesAt n offset count ++ s.bytesAt n (offset + count) count' := by
  simp only [State.bytesAt, List.range_add, List.map_append, List.map_map, add_assoc]
  rfl

theorem getBlock_bytes (h : WellFormed live s) (hn : live n) {offset b : ℕ} (remaining : ℕ)
    (hr : s.getBlock n (offset / blockSize) = .ok (some b, s')) :
    (List.range (bytesThisBlock offset remaining)).map
        (fun i => (s'.blocks b).byte (offset % blockSize + i)) =
      s.bytesAt n offset (bytesThisBlock offset remaining) := by
  refine List.map_congr_left fun i hi => ?_
  have hlt : i < bytesThisBlock offset remaining := List.mem_range.mp hi
  have hle := bytesThisBlock_le offset remaining
  have hquotient : (offset + i) / blockSize = offset / blockSize := by
    simp only [blockSize] at *
    omega
  have hremainder : (offset + i) % blockSize = offset % blockSize + i := by
    simp only [blockSize] at *
    omega
  rw [State.fileByte, hquotient, hremainder, getBlock_held h hn hr]

theorem readLoop_full (h : WellFormed live s) (hn : live n) {stop : ℕ}
    (hstop : stop ≤ maxFileBlockCount * blockSize) (hread : Readable s n stop)
    {offset remaining : ℕ} (hle : offset + remaining ≤ stop) (bytes : List UInt8) :
    ∃ s', s.readLoop n (fun _ => true) offset bytes remaining =
        .ok (.ok (bytes ++ s.bytesAt n offset remaining), s') ∧ Unchanged live n s s' ∧
      Readable s' n stop := by
  induction remaining using Nat.strong_induction_on generalizing s offset bytes with
  | _ remaining ih =>
    by_cases hzero : remaining = 0
    · subst hzero
      refine ⟨s, ?_, Unchanged.refl h, hread⟩
      rw [State.readLoop, if_pos rfl]
      simp [State.bytesAt]
    · have hpos := bytesThisBlock_pos offset hzero
      have hcount : bytesThisBlock offset remaining ≤ remaining := Nat.min_le_left _ _
      obtain ⟨b, s₁, hr, hread₁⟩ := getBlock_readable h hn (offset / blockSize) (by
        have := Nat.div_mul_le_self offset blockSize
        omega) hstop hread
      have hsame := getBlock_unchanged h hn hr
      have hle₁ : offset + bytesThisBlock offset remaining +
          (remaining - bytesThisBlock offset remaining) ≤ stop := by omega
      obtain ⟨s', hloop, hrest, hread'⟩ := ih (remaining - bytesThisBlock offset remaining) (by omega)
        hsame.wellFormed hread₁ hle₁ (bytes ++ s.bytesAt n offset (bytesThisBlock offset remaining))
      refine ⟨s', ?_, hsame.trans hrest, hread'⟩
      rw [State.readLoop, if_neg hzero, hr]
      simp only [if_true, getBlock_bytes h hn remaining hr]
      rw [hloop, hsame.bytesAt, List.append_assoc, ← bytesAt_add, Nat.add_sub_of_le hcount]

/-! ## Truncating -/

/-- The blocks that `n` names are in use, and it names none of them twice. -/
structure Freeable (n : ℕ) (s : State) : Prop where
  used : ∀ slot, s.target n slot ≠ 0 → s.used (s.target n slot) = true
  inj : ∀ slot slot', s.target n slot ≠ 0 → s.target n slot = s.target n slot' → slot = slot'
  outstanding : 0 < s.outstanding

theorem WellFormed.freeable (h : WellFormed live s) (hn : live n) (ho : 0 < s.outstanding) :
    Freeable n s where
  used slot hne := (h.target_used n slot hn hne).2
  inj slot slot' hne heq := (h.target_inj n n slot slot' hn hn hne heq).2
  outstanding := ho

theorem free_of_used {b : ℕ} (ho : 0 < s.outstanding) (hu : s.used b = true) :
    s.free b = .ok (s.setUsed b false) := by
  unfold State.free
  rw [hu]
  exact logWrite_eq_ok.mpr ⟨ho, rfl⟩

theorem freePointer_of_used {i : Fin 13} (ho : 0 < s.outstanding)
    (hu : s.used ((s.inodes n).addrs i) = true) (hne : (s.inodes n).addrs i ≠ 0) :
    s.freePointer n i = .ok ((s.setUsed ((s.inodes n).addrs i) false).setAddr n i 0) := by
  unfold State.freePointer State.getDiskBlockDirect
  simp only [if_neg hne, free_of_used ho hu]

theorem Freeable.freePointer (h : Freeable n s) (i : Fin 13) :
    ∃ s', s.freePointer n i = .ok s' ∧ Freeable n s' := by
  by_cases hzero : (s.inodes n).addrs i = 0
  · refine ⟨s, ?_, h⟩
    unfold State.freePointer State.getDiskBlockDirect
    simp only [if_pos hzero]
  · refine ⟨_, freePointer_of_used h.outstanding (h.used (.pointer i) hzero) hzero, ?_⟩
    generalize hb : (s.inodes n).addrs i = b
    have hkeeps : ∀ slot, ((s.setUsed b false).setAddr n i 0).target n slot ≠ 0 →
        ((s.setUsed b false).setAddr n i 0).target n slot = s.target n slot := by
      intro slot hne
      obtain heq | heq := target_setAddr_zero (s.setUsed b false) n i slot
      · exact heq
      · exact absurd heq hne
    have hdiff : ∀ slot, ((s.setUsed b false).setAddr n i 0).target n slot ≠ 0 →
        s.target n slot ≠ b := by
      intro slot hne heq
      have hsame := hkeeps slot hne
      have hslot : slot = .pointer i := by
        refine h.inj slot (.pointer i) (hsame ▸ hne) ?_
        rw [heq, ← hb]
        rfl
      apply hne
      rw [hslot]
      exact (setAddr_addrs ..).trans (if_pos ⟨rfl, rfl⟩)
    refine ⟨fun slot hne => ?_, fun slot slot' hne heq => ?_, h.outstanding⟩
    · rw [hkeeps slot hne]
      change (s.setUsed b false).used (s.target n slot) = true
      rw [setUsed_used, if_neg (hdiff slot hne)]
      exact h.used slot (hkeeps slot hne ▸ hne)
    · have hne' : ((s.setUsed b false).setAddr n i 0).target n slot' ≠ 0 := heq ▸ hne
      rw [hkeeps slot hne, hkeeps slot' hne'] at heq
      exact h.inj slot slot' (hkeeps slot hne ▸ hne) heq

theorem Freeable.freePointers (h : Freeable n s) (l : List (Fin 13)) :
    ∃ s', l.foldlM (fun s i => s.freePointer n i) s = .ok s' ∧ Freeable n s' := by
  induction l generalizing s with
  | nil => exact ⟨s, rfl, h⟩
  | cons i l ih =>
    obtain ⟨s₁, hs₁, h₁⟩ := h.freePointer i
    obtain ⟨s', hs', h'⟩ := ih h₁
    exact ⟨s', by rw [List.foldlM_cons, hs₁]; exact hs', h'⟩

/-- The entries from those in the list on are freed one after the other. -/
theorem freeEntries_ok {b : ℕ} {l : List ℕ} (hnodup : l.Nodup)
    (hused : ∀ k ∈ l, s.entry b k ≠ 0 → s.used (s.entry b k) = true)
    (hinj : ∀ j ∈ l, ∀ k ∈ l, s.entry b j ≠ 0 → s.entry b j = s.entry b k → j = k)
    (hb : s.used b = true) (hne : ∀ k ∈ l, s.entry b k ≠ b) (ho : 0 < s.outstanding) :
    ∃ s', l.foldlM (freeEntry b) s = .ok s' ∧ s'.used b = true ∧ s'.inodes = s.inodes ∧
      s'.outstanding = s.outstanding := by
  induction l generalizing s with
  | nil => exact ⟨s, rfl, hb, rfl, rfl⟩
  | cons k l ih =>
    obtain ⟨hk, hnodup⟩ := List.nodup_cons.mp hnodup
    have hmem : k ∈ k :: l := List.mem_cons_self
    have htail : ∀ j ∈ l, j ∈ k :: l := fun j hj => List.mem_cons_of_mem k hj
    rw [List.foldlM_cons]
    by_cases hzero : s.entry b k = 0
    · have hskip : freeEntry b s k = .ok s := by
        unfold State.freeEntry
        rw [if_neg (not_not.mpr hzero)]
      rw [hskip]
      exact ih hnodup (fun j hj => hused j (htail j hj))
        (fun j hj m hm => hinj j (htail j hj) m (htail m hm)) hb (fun j hj => hne j (htail j hj)) ho
    · have hfree : freeEntry b s k = .ok (s.setUsed (s.entry b k) false) := by
        unfold State.freeEntry
        rw [if_pos hzero]
        exact free_of_used ho (hused k hmem hzero)
      rw [hfree]
      refine ih hnodup (fun j hj hnz => ?_)
        (fun j hj m hm => hinj j (htail j hj) m (htail m hm)) ?_ (fun j hj => hne j (htail j hj)) ho
      · have hdiff : s.entry b j ≠ s.entry b k := by
          intro heq
          exact hk (hinj j (htail j hj) k hmem hnz heq ▸ hj)
        change (s.setUsed (s.entry b k) false).used (s.entry b j) = true
        rw [setUsed_used, if_neg hdiff]
        exact hused j (htail j hj) hnz
      · rw [setUsed_used, if_neg (hne k hmem).symm]
        exact hb

theorem Freeable.freeIndirect (h : Freeable n s) :
    ∃ s', s.freeIndirect n = .ok s' ∧ s'.outstanding = s.outstanding := by
  generalize hib : (s.inodes n).addrs indirectPointerBlockIndex = ib
  by_cases hzero : ib = 0
  · refine ⟨s, ?_, rfl⟩
    unfold State.freeIndirect State.getDiskBlockDirect
    simp only [hib, if_pos hzero]
  · have hentry : ∀ k (hk : k < indirectPointerCount),
        s.target n (.entry ⟨k, hk⟩) = s.entry ib k := by
      intro k hk
      rw [State.target, if_neg (by rw [hib]; exact hzero), hib]
    have hpointer : s.target n (.pointer indirectPointerBlockIndex) = ib := hib
    obtain ⟨s₁, hloop, hused, hinodes, ho⟩ := freeEntries_ok (s := s) (b := ib)
      (l := List.range indirectPointerCount) List.nodup_range
      (fun k hk hne => by
        have hlt := List.mem_range.mp hk
        rw [← hentry k hlt] at hne ⊢
        exact h.used _ hne)
      (fun j hj k hk hne heq => by
        have hjlt := List.mem_range.mp hj
        have hklt := List.mem_range.mp hk
        rw [← hentry j hjlt] at hne heq
        rw [← hentry k hklt] at heq
        simpa using h.inj _ _ hne heq)
      (hpointer ▸ h.used _ (hpointer ▸ hzero))
      (fun k hk heq => by
        have hlt := List.mem_range.mp hk
        rw [← hentry k hlt, ← hpointer] at heq
        cases h.inj _ _ (by rw [heq, hpointer]; exact hzero) heq) h.outstanding
    have hib₁ : (s₁.inodes n).addrs indirectPointerBlockIndex = ib := by rw [hinodes, hib]
    have hlast := freePointer_of_used (n := n) (i := indirectPointerBlockIndex)
      (by rw [ho]; exact h.outstanding) (by rw [hib₁]; exact hused) (by rw [hib₁]; exact hzero)
    refine ⟨(s₁.setUsed ((s₁.inodes n).addrs indirectPointerBlockIndex) false).setAddr n
      indirectPointerBlockIndex 0, ?_, ho⟩
    unfold State.freeIndirect State.getDiskBlockDirect
    simp only [hib, if_neg hzero]
    exact bind_eq_ok.mpr ⟨s₁, hloop, hlast⟩

theorem truncate_ok (h : WellFormed live s) (hn : live n) (ho : 0 < s.outstanding) :
    ∃ s', s.truncate n = .ok s' := by
  obtain ⟨s₁, hs₁, h₁⟩ := (h.freeable hn ho).freePointers
    ((List.finRange directPointerCount).map (Fin.castLE (by decide)))
  obtain ⟨s₂, hs₂, ho₂⟩ := h₁.freeIndirect
  have ho' : 0 < s₂.outstanding := ho₂ ▸ h₁.outstanding
  exact ⟨s₂.setSize n 0, bind_eq_ok.mpr ⟨s₁, hs₁, bind_eq_ok.mpr ⟨s₂, hs₂,
    logWrite_eq_ok.mpr ⟨ho', rfl⟩⟩⟩⟩

/-- A truncated file, with the others as they were. -/
theorem truncate_empties (h : WellFormed live s) (hn : live n) (ho : 0 < s.outstanding) :
    ∃ s', s.truncate n = .ok s' ∧ WellFormed live s' ∧ (s'.inodes n).size = 0 ∧
      Beside live n s s' := by
  obtain ⟨s', ht⟩ := truncate_ok h hn ho
  have htruncating : Truncating (fun m => live m ∧ m ≠ n) n s s := by
    refine ⟨h.mono fun m hm => hm.1, fun slot hne => ⟨(h.target_used n slot hn hne).1, ?_⟩, rfl,
      fun _ _ => rfl, rfl⟩
    intro m slot' hm heq
    exact hm.2 (h.target_inj n m slot slot' hn hm.1 hne heq.symm).1.symm
  obtain ⟨h', hsize, hzero⟩ := truncate_spec htruncating (fun hlive => hlive.2 rfl) ht
  refine ⟨s', ht, h'.wellFormed.extend fun m hm => ?_, hsize, fun m hmn _ => ?_⟩
  · by_cases hmn : m = n
    · exact .inr (hmn ▸ hzero)
    · exact .inl ⟨hm, hmn⟩
  · refine ⟨by rw [h'.inodes_eq m hmn], fun k => ?_⟩
    unfold State.fileByte State.held
    rw [blockEntry_congr (h'.target_eq hmn), h'.blocks_eq]

/-! ## Writing -/

theorem setSize_beside (s : State) (size : ℕ) : Beside live n s (s.setSize n size) := by
  intro m hmn _
  exact ⟨by simp [State.setSize, hmn], fun k => setSize_fileByte s n size m k⟩

theorem write_beside (h : WellFormed live s) (hn : live n)
    {copyIn : ℕ → ℕ → List UInt8 × Bool} {offset count : ℕ} {r : Except Error ℕ}
    (hr : s.write n copyIn offset count = .ok (r, s')) : Beside live n s s' := by
  unfold State.write at hr
  split at hr
  · cases hr
    exact Beside.refl s
  · split at hr
    · cases hr
      exact Beside.refl s
    · split at hr
      · cases hr
        exact Beside.refl s
      · split at hr
        · cases hr
        next offset' written s₁ hloop =>
          have hbeside := writeLoop_beside h hn hloop
          split at hr
          · cases hr
          next s₂ hlog =>
            cases hr
            obtain ⟨-, rfl⟩ := logWrite_eq_ok.mp hlog
            split
            · exact hbeside.trans (setSize_beside s₁ offset')
            · exact hbeside

/-! ## Files -/

/-- The bytes of a file. -/
def State.file (s : State) (n : ℕ) : List UInt8 := s.bytesAt n 0 (s.inodes n).size

@[simp] theorem length_file (s : State) (n : ℕ) : (s.file n).length = (s.inodes n).size := by
  simp [State.file, State.bytesAt]

theorem getElem_file (s : State) (n : ℕ) {k : ℕ} (hk : k < (s.file n).length) :
    (s.file n)[k] = s.fileByte n k := by
  simp [State.file, State.bytesAt]

theorem file_part (s : State) (n : ℕ) {offset count remaining : ℕ}
    (h : offset ≤ (s.inodes n).size)
    (hremaining : offset + remaining = min (s.inodes n).size (offset + count)) :
    ((s.file n).drop offset).take count = s.bytesAt n offset remaining := by
  refine List.ext_getElem ?_ fun k hk hk' => ?_
  · simp only [List.length_take, List.length_drop, length_file, State.bytesAt, List.length_map,
      List.length_range]
    omega
  · rw [List.getElem_take, List.getElem_drop, getElem_file]
    simp [State.bytesAt]

theorem Beside.file (h : Beside live n s s') {m : ℕ} (hmn : m ≠ n) (hm : live m) :
    s'.file m = s.file m := by
  obtain ⟨hsize, hbytes⟩ := h m hmn hm
  unfold State.file
  rw [hsize]
  exact List.map_congr_left fun _ _ => hbytes _

/-- The bytes from the offset on are replaced, and the array grows where they reach beyond it. -/
def splice (c : List UInt8) (offset : ℕ) (bytes : List UInt8) : List UInt8 :=
  c.take offset ++ bytes ++ c.drop (offset + bytes.length)

theorem file_splice {offset : ℕ} {bytes : List UInt8} (hoffset : offset ≤ (s.inodes n).size)
    (hsize : (s'.inodes n).size = max (s.inodes n).size (offset + bytes.length))
    (hbytes : ∀ k, s'.fileByte n k =
      if offset ≤ k ∧ k < offset + bytes.length then bytes.getD (k - offset) 0
      else s.fileByte n k) : s'.file n = splice (s.file n) offset bytes := by
  unfold splice
  have hlength : (s'.file n).length =
      ((s.file n).take offset ++ bytes ++ (s.file n).drop (offset + bytes.length)).length := by
    simp only [List.length_append, List.length_take, List.length_drop, length_file]
    omega
  refine List.ext_getElem hlength fun k hk hk' => ?_
  rw [getElem_file, hbytes]
  have htake : ((s.file n).take offset).length = offset := by
    rw [List.length_take, length_file]
    omega
  have hfirst : ((s.file n).take offset ++ bytes).length = offset + bytes.length := by
    rw [List.length_append, htake]
  by_cases hlt : k < offset
  · rw [if_neg (by omega), List.getElem_append_left (by omega),
      List.getElem_append_left (by omega), List.getElem_take, getElem_file]
  · by_cases hmid : k < offset + bytes.length
    · rw [if_pos (by omega), List.getElem_append_left (by omega),
        List.getElem_append_right (by omega)]
      simp only [htake]
      rw [List.getD_eq_getElem?_getD, List.getElem?_eq_getElem (by omega), Option.getD_some]
    · rw [if_neg (by omega), List.getElem_append_right (by omega), List.getElem_drop, getElem_file]
      simp only [hfirst]
      congr 1
      omega

/-! ## Calls -/

/-- A call on a file, with a source that can be read and a destination that can be written. -/
inductive Call
  | write (bytes : List UInt8) (offset : ℕ)
  | read (offset count : ℕ)
  | truncate

inductive Answer
  | wrote (count : ℕ)
  | bytes (l : List UInt8)
  | truncated
  | failed
  deriving DecidableEq

def State.perform (s : State) (n : ℕ) : Call → Except Panic (Answer × State)
  | .write bytes offset =>
    match s.write n (source (fun i => bytes.getD i 0) bytes.length) offset bytes.length with
    | .error p => .error p
    | .ok (.error _, s) => .ok (.failed, s)
    | .ok (.ok count, s) => .ok (.wrote count, s)
  | .read offset count =>
    match s.read n (fun _ => true) offset count with
    | .error p => .error p
    | .ok (.error _, s) => .ok (.failed, s)
    | .ok (.ok bytes, s) => .ok (.bytes bytes, s)
  | .truncate =>
    match s.truncate n with
    | .error p => .error p
    | .ok s => .ok (.truncated, s)

def State.performAll (s : State) (n : ℕ) : List Call → Except Panic (List Answer × State)
  | [] => .ok ([], s)
  | call :: calls =>
    match s.perform n call with
    | .error p => .error p
    | .ok (answer, s) =>
      match s.performAll n calls with
      | .error p => .error p
      | .ok (answers, s) => .ok (answer :: answers, s)

/-- What a call does to an array of bytes. -/
def Call.apply (c : List UInt8) : Call → Answer × List UInt8
  | .write bytes offset =>
    if offset ≤ c.length ∧ offset + bytes.length ≤ maxFileBlockCount * blockSize then
      (.wrote bytes.length, splice c offset bytes)
    else (.failed, c)
  | .read offset count =>
    if c.length < offset then (.bytes [], c)
    else if 2 ^ 32 ≤ offset + count then (.failed, c)
    else (.bytes ((c.drop offset).take count), c)
  | .truncate => (.truncated, [])

def Call.applyAll (c : List UInt8) : List Call → List Answer × List UInt8
  | [] => ([], c)
  | call :: calls =>
    ((call.apply c).1 :: (Call.applyAll (call.apply c).2 calls).1,
      (Call.applyAll (call.apply c).2 calls).2)

/-- There are enough free blocks for the call, which is inside of an operation of the log
where it writes to the disk. -/
def Call.Room (s : State) (n : ℕ) : Call → Prop
  | .write bytes offset => offset ≤ (s.inodes n).size →
      offset + bytes.length ≤ maxFileBlockCount * blockSize →
        0 < s.outstanding ∧ s.Enough n (offset + bytes.length)
  | .read offset count => Readable s n (min (s.inodes n).size (offset + count))
  | .truncate => 0 < s.outstanding

/-- Each call of the sequence has room. -/
def Roomy (n : ℕ) : State → List Call → Prop
  | _, [] => True
  | s, call :: calls => call.Room s n ∧
      ∀ answer s', s.perform n call = .ok (answer, s') → Roomy n s' calls

/-- An inode that can hold a file. -/
structure Sound (live : ℕ → Prop) (n : ℕ) (s : State) : Prop where
  wellFormed : WellFormed live s
  size : (s.inodes n).size ≤ maxFileBlockCount * blockSize

theorem Unchanged.file (h : Unchanged live n s s') : s'.file n = s.file n := by
  unfold State.file
  rw [h.sizes]
  exact h.bytesAt 0 _

theorem perform_write (h : Sound live n s) (hn : live n) {bytes : List UInt8} {offset : ℕ}
    (hroom : (Call.write bytes offset).Room s n) :
    ∃ s', s.perform n (.write bytes offset) =
        .ok (((Call.write bytes offset).apply (s.file n)).1, s') ∧ Sound live n s' ∧
      s'.file n = ((Call.write bytes offset).apply (s.file n)).2 ∧ Beside live n s s' := by
  have hsmall : maxFileBlockCount * blockSize < 2 ^ 32 := by decide
  have hcomm : blockSize * maxFileBlockCount = maxFileBlockCount * blockSize := Nat.mul_comm ..
  simp only [Call.apply, length_file]
  by_cases hin : offset ≤ (s.inodes n).size ∧
      offset + bytes.length ≤ maxFileBlockCount * blockSize
  · obtain ⟨ho, henough⟩ := hroom hin.1 hin.2
    obtain ⟨s', hr, -, hsize, hdone⟩ := write_full h.wellFormed hn ho hin.2 henough
      (fun i => bytes.getD i 0) bytes.length hin.1 le_rfl le_rfl
    rw [if_pos hin]
    refine ⟨s', ?_, ⟨hdone.wellFormed, ?_⟩, file_splice hin.1 hsize hdone.fileByte_eq,
      write_beside h.wellFormed hn hr⟩
    · simp only [State.perform, hr]
    · rw [hsize]
      exact max_le h.size hin.2
  · rw [if_neg hin]
    refine ⟨s, ?_, h, rfl, Beside.refl s⟩
    unfold State.perform State.write
    by_cases hoffset : (s.inodes n).size < offset
    · simp only [if_pos hoffset]
    · simp only [if_neg hoffset]
      by_cases hword : 2 ^ 32 ≤ offset + bytes.length
      · simp only [if_pos hword]
      · simp only [if_neg hword, if_pos (show blockSize * maxFileBlockCount <
          offset + bytes.length by omega)]

theorem perform_read (h : Sound live n s) (hn : live n) {offset count : ℕ}
    (hroom : (Call.read offset count).Room s n) :
    ∃ s', s.perform n (.read offset count) =
        .ok (((Call.read offset count).apply (s.file n)).1, s') ∧ Sound live n s' ∧
      s'.file n = ((Call.read offset count).apply (s.file n)).2 ∧ Beside live n s s' := by
  simp only [Call.apply, length_file]
  by_cases hoffset : (s.inodes n).size < offset
  · simp only [if_pos hoffset]
    exact ⟨s, by simp only [State.perform, State.read, if_pos hoffset], h, rfl, Beside.refl s⟩
  · by_cases hword : 2 ^ 32 ≤ offset + count
    · simp only [if_neg hoffset, if_pos hword]
      exact ⟨s, by simp only [State.perform, State.read, if_neg hoffset, if_pos hword], h, rfl,
        Beside.refl s⟩
    · simp only [if_neg hoffset, if_neg hword]
      generalize hremaining : (if (s.inodes n).size < offset + count then
        (s.inodes n).size - offset else count) = remaining
      have hstop : offset + remaining = min (s.inodes n).size (offset + count) := by
        rw [← hremaining]
        split <;> omega
      obtain ⟨s', hloop, hsame, -⟩ := readLoop_full h.wellFormed hn
        ((min_le_left _ _).trans h.size) hroom hstop.le []
      refine ⟨s', ?_, ⟨hsame.wellFormed, by rw [hsame.sizes]; exact h.size⟩, hsame.file,
        hsame.beside⟩
      simp only [State.perform, State.read, if_neg hoffset, if_neg hword, hremaining, hloop,
        List.nil_append, file_part s n (Nat.not_lt.mp hoffset) hstop]

/-- A call does to the file what it does to an array. -/
theorem perform_spec (h : Sound live n s) (hn : live n) {call : Call} (hroom : call.Room s n) :
    ∃ s', s.perform n call = .ok ((call.apply (s.file n)).1, s') ∧ Sound live n s' ∧
      s'.file n = (call.apply (s.file n)).2 ∧ Beside live n s s' := by
  cases call with
  | write bytes offset => exact perform_write h hn hroom
  | read offset count => exact perform_read h hn hroom
  | truncate =>
    obtain ⟨s', ht, hw, hsize, hbeside⟩ := truncate_empties h.wellFormed hn hroom
    refine ⟨s', by simp only [State.perform, ht, Call.apply], ⟨hw, ?_⟩, ?_, hbeside⟩
    · rw [hsize]
      exact Nat.zero_le _
    · unfold State.file
      rw [hsize]
      rfl

/-- Any sequence of calls on an inode returns what it returns on an array of bytes, leaves the
array that it leaves there, and leaves the other files alone. -/
theorem files_refine_arrays (h : Sound live n s) (hn : live n) (calls : List Call)
    (hroom : Roomy n s calls) :
    ∃ s', s.performAll n calls = .ok ((Call.applyAll (s.file n) calls).1, s') ∧
      s'.file n = (Call.applyAll (s.file n) calls).2 ∧
      ∀ m ≠ n, live m → s'.file m = s.file m := by
  induction calls generalizing s with
  | nil => exact ⟨s, rfl, rfl, fun _ _ _ => rfl⟩
  | cons call calls ih =>
    obtain ⟨hcall, hrest⟩ := hroom
    obtain ⟨s₁, hs₁, h₁, hfile, hbeside⟩ := perform_spec h hn hcall
    obtain ⟨s', hs', hfile', hothers⟩ := ih h₁ (hrest _ s₁ hs₁)
    rw [hfile] at hs' hfile'
    refine ⟨s', ?_, hfile', fun m hmn hm => ?_⟩
    · simp only [State.performAll, hs₁, hs', Call.applyAll]
    · rw [hothers m hmn hm, hbeside.file hmn hm]

theorem files_refine_arrays_oneFile :
    ∃ s', oneFile.performAll 1 [.write [7] 0] = .ok ([.wrote 1], s') ∧ s'.file 1 = [7] := by
  have hempty : ∀ m slot, oneFile.target m slot = 0 := by
    intro m slot
    have haddrs : (oneFile.inodes m).addrs = fun _ => 0 := by
      by_cases hm : m = 1 <;> simp [oneFile, emptyImage, State.setInode, DiskInode.ofType, hm]
    cases slot with
    | pointer i => exact congrFun haddrs i
    | entry k => rw [State.target, if_pos (congrFun haddrs _)]
  have hwell : WellFormed oneFile.Allocated oneFile :=
    ⟨by decide, by decide, fun b hb => decide_eq_true hb,
      fun m slot _ hne => absurd (hempty m slot) hne,
      fun m _ slot _ _ _ hne => absurd (hempty m slot) hne⟩
  have hsound : Sound oneFile.Allocated 1 oneFile := ⟨hwell, by decide⟩
  have hroom : Roomy 1 oneFile [.write [7] 0] :=
    ⟨fun _ _ => by decide +kernel, fun _ _ _ => trivial⟩
  obtain ⟨s', hrun, hfile, -⟩ := files_refine_arrays hsound (by decide) [.write [7] 0] hroom
  exact ⟨s', hrun, hfile⟩

end Zigmaos.InodeBlocks
