import Zigmaos.InodeContents

/-!
# The blocks of a file are an initial segment

`write` begins at most at the end of the file and goes on block by block, so a file
never has a block behind one that it lacks.
-/
namespace Zigmaos.InodeBlocks
open State

/-- Before a block that the file has there is no gap. -/
def Segment (s : State) (n : ℕ) : Prop :=
  ∀ i j, i ≤ j → s.blockEntry n j ≠ 0 → s.blockEntry n i ≠ 0

def Segments (s : State) : Prop := ∀ n, s.Allocated n → Segment s n

variable {live : ℕ → Prop} {s s' : State} {n : ℕ}

theorem Segment.congr (h : Segment s n) (hentry : ∀ i, s'.blockEntry n i = s.blockEntry n i) :
    Segment s' n := by
  intro i j hij
  rw [hentry, hentry]
  exact h i j hij

/-- A turn of `write` fills the next gap. -/
theorem Turned.segment {offset b m : ℕ} {data : Block}
    (h : Turned live n (offset / blockSize) s s' b data) (hcov : Covered s n offset)
    (hm : live m) (hseg : Segment s m) : Segment s' m := by
  by_cases hmn : m = n
  · subst hmn
    intro i j hij hj
    by_cases hi : i = offset / blockSize
    · rw [hi, h.entry]
      exact h.ne
    · rw [h.entry_eq i hi]
      by_cases hjo : j = offset / blockSize
      · refine hcov i ?_
        simp only [blockSize] at *
        omega
      · rw [h.entry_eq j hjo] at hj
        exact hseg i j hij hj
  · exact hseg.congr (h.other_eq m hmn hm)

theorem writeLoop_segment (h : WellFormed live s) (hn : live n)
    {copyIn : ℕ → ℕ → List UInt8 × Bool} {offset written remaining : ℕ} {r : ℕ × ℕ × State}
    (hcov : Covered s n offset) (hseg : ∀ m, live m → Segment s m)
    (hr : s.writeLoop n copyIn offset written remaining = .ok r) :
    ∀ m, live m → Segment r.2.2 m := by
  fun_induction State.writeLoop s n copyIn offset written remaining with
  | case1 s offset written =>
    obtain rfl := Except.ok.inj hr
    exact hseg
  | case2 => cases hr
  | case3 s offset written remaining _ s₁ hs₁ =>
    obtain rfl := Except.ok.inj hr
    exact fun m hm => (hseg m hm).congr ((getBlock_refused h hn hs₁).entry_eq m hm)
  | case4 => cases hr
  | case5 s offset written remaining _ b s₁ hs₁ count bytes s₂ _ s₃ hs₃ ih =>
    have hturn := getBlock_turn h hn hs₁ ((s₁.blocks b).splice (offset % blockSize) bytes.length
      (fun i => (bytes[i]?).getD 0))
    obtain ⟨-, rfl⟩ := logWrite_eq_ok.mp hs₃
    have hcov₂ : Covered s₂ n (offset + count) :=
      (hcov.grows hturn.grows hn).turn (by rw [hturn.entry]; exact hturn.ne)
    exact ih hturn.wellFormed hcov₂ (fun m hm => hturn.segment hcov hm (hseg m hm)) hr
  | case6 s offset written remaining _ b s₁ hs₁ count bytes s₂ _ =>
    obtain rfl := Except.ok.inj hr
    have hturn := getBlock_turn h hn hs₁ ((s₁.blocks b).splice (offset % blockSize) bytes.length
      (fun i => (bytes[i]?).getD 0))
    exact fun m hm => hturn.segment hcov hm (hseg m hm)

theorem Segments.write (hseg : Segments s) (h : Invariant s) (hn : s.Allocated n)
    {copyIn : ℕ → ℕ → List UInt8 × Bool} {offset count : ℕ} {r : Except Error ℕ × State}
    (hr : s.write n copyIn offset count = .ok r) : Segments r.2 := by
  unfold State.write at hr
  split at hr
  · obtain rfl := Except.ok.inj hr
    exact hseg
  next hle =>
    split at hr
    · obtain rfl := Except.ok.inj hr
      exact hseg
    split at hr
    · obtain rfl := Except.ok.inj hr
      exact hseg
    split at hr
    · exact absurd hr nofun
    next offset' written s₁ hs₁ =>
      have hcov : Covered s n offset := fun i hi => h.noMissing n hn i (by omega)
      have hloop := writeLoop_segment h.wellFormed hn hcov hseg hs₁
      obtain ⟨-, hg, -⟩ := writeLoop_spec h.wellFormed hn hcov hs₁
      split at hr
      · exact absurd hr nofun
      next s₂ hs₂ =>
        obtain rfl := Except.ok.inj hr
        obtain ⟨-, rfl⟩ := logWrite_eq_ok.mp hs₂
        intro m hm
        split
        · have hm' : s₁.Allocated m := by
            by_cases hgrow : (s₁.inodes n).size < offset'
            · rw [if_pos hgrow] at hm
              by_cases hmn : m = n <;> simpa [Allocated, State.setSize, hmn] using hm
            · rwa [if_neg hgrow] at hm
          exact (hloop m ((hg.allocated m).mp hm')).congr (fun i =>
            blockEntry_congr (fun slot => setSize_target s₁ n offset' m slot) i)
        next hgrow =>
          rw [if_neg hgrow] at hm
          exact hloop m ((hg.allocated m).mp hm)

/-- An inode without blocks, beside the others. -/
theorem Segments.of_zero (hseg : Segments s)
    (halloc : ∀ m, m ≠ n → s'.Allocated m → s.Allocated m)
    (hzero : ∀ slot, s'.target n slot = 0)
    (hother : ∀ m, m ≠ n → ∀ slot, s'.target m slot = s.target m slot) : Segments s' := by
  intro m hm
  by_cases hmn : m = n
  · subst hmn
    intro i j _ hj
    have hlt := index_lt_of_blockEntry hj
    rw [State.blockEntry_eq hlt, hzero] at hj
    exact absurd rfl hj
  · exact (hseg m (halloc m hmn hm)).congr (blockEntry_congr (hother m hmn))

theorem Segments.alloc (hseg : Segments s) {type : FileSystem.InodeType} :
    Segments (s.setInode n (.ofType type)) := by
  refine hseg.of_zero (n := n) (fun m hm hall => ?_) (fun slot => ?_) (fun m hm slot => ?_)
  · simpa [Allocated, hm] using hall
  · cases slot <;> simp [State.target, DiskInode.ofType]
  · have haddrs : ((s.setInode n (.ofType type)).inodes m).addrs = (s.inodes m).addrs := by
      simp [hm]
    exact target_congr haddrs (fun _ => rfl) slot

theorem Segments.setInode (hseg : Segments s) {inode : DiskInode}
    (hlive : inode.type ≠ .free → s.Allocated n) (haddrs : inode.addrs = (s.inodes n).addrs) :
    Segments (s.setInode n inode) := by
  intro m hm
  have halloc : s.Allocated m := by
    by_cases hmn : m = n
    · subst hmn
      exact hlive (by simpa [Allocated] using hm)
    · simpa [Allocated, hmn] using hm
  have haddrs' : ((s.setInode n inode).inodes m).addrs = (s.inodes m).addrs := by
    by_cases hmn : m = n <;> simp [hmn, haddrs]
  exact (hseg m halloc).congr (blockEntry_congr (fun slot =>
    target_congr haddrs' (fun _ => rfl) slot))

theorem Segments.truncate (hseg : Segments s) (h : Invariant s) (hn : s.Allocated n)
    (ht : s.truncate n = .ok s') : Segments s' := by
  obtain ⟨h', -, hzero⟩ := truncate_spec (h.wellFormed.truncating hn) (fun hlive => hlive.2 rfl) ht
  refine hseg.of_zero (n := n) (fun m hmn hm => ?_) hzero (fun m hmn => h'.target_eq hmn)
  unfold Allocated at *
  rwa [h'.inodes_eq m hmn] at hm

theorem Segments.step (hseg : Segments s) (h : Invariant s) {e : Event}
    (hs : InodeBlocks.step s e = some s') : Segments s' := by
  unfold InodeBlocks.step at hs
  cases e with
  | beginOperation =>
    obtain rfl := Option.some.inj hs
    exact hseg
  | endOperation =>
    obtain ⟨-, hs⟩ := Option.ite_none_right_eq_some.mp hs
    obtain rfl := Option.some.inj hs
    exact hseg
  | alloc n type =>
    obtain ⟨-, hs⟩ := Option.ite_none_right_eq_some.mp hs
    obtain ⟨-, rfl⟩ := logWrite_eq_ok.mp (toOption_eq_some hs)
    exact hseg.alloc
  | read n copyOut offset count =>
    obtain ⟨hn, hs⟩ := Option.ite_none_right_eq_some.mp hs
    obtain ⟨r, hr, rfl⟩ := Option.map_eq_some_iff.mp hs
    obtain ⟨r', hr'⟩ := read_of_noMissing h.noMissing hn copyOut offset count
    obtain rfl := Except.ok.inj ((toOption_eq_some hr).symm.trans hr')
    exact hseg
  | write n copyIn offset count =>
    obtain ⟨hn, hs⟩ := Option.ite_none_right_eq_some.mp hs
    obtain ⟨r, hr, rfl⟩ := Option.map_eq_some_iff.mp hs
    exact hseg.write h hn (toOption_eq_some hr)
  | truncate n =>
    obtain ⟨hn, hs⟩ := Option.ite_none_right_eq_some.mp hs
    exact hseg.truncate h hn (toOption_eq_some hs)
  | setLinkCount n linkCount =>
    obtain ⟨hn, hs⟩ := Option.ite_none_right_eq_some.mp hs
    obtain ⟨-, rfl⟩ := logWrite_eq_ok.mp (toOption_eq_some hs)
    exact hseg.setInode (fun _ => hn) rfl
  | put n =>
    obtain ⟨hn, hs⟩ := Option.ite_none_right_eq_some.mp hs
    split at hs
    · cases hs
    next s₁ hs₁ =>
      obtain ⟨-, rfl⟩ := logWrite_eq_ok.mp (toOption_eq_some hs)
      exact (hseg.truncate h hn hs₁).setInode (fun hfree => absurd rfl hfree) rfl

/-- What a run keeps of an image that starts out well formed and without gaps. -/
theorem segments_run {s₀ : State} {es : List Event} (hwell : WellFormed s₀.Allocated s₀)
    (hnone : NoMissing s₀) (hseg : Segments s₀) (hrun : Transition.run step s₀ es = some s) :
    Invariant s ∧ Segments s :=
  Transition.run_induction (P := fun _ s => Invariant s ∧ Segments s) ⟨⟨hwell, hnone⟩, hseg⟩
    (fun _ _ _ _ _ h hs => ⟨h.1.step hs, h.2.step h.1 hs⟩) es s hrun

end Zigmaos.InodeBlocks
