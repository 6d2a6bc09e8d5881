import Zigmaos.UserMallocFree

/-!
# Allocating a block

`malloc` takes a block off the list or cuts one up, asking `sbrk` for more when
a whole round has found none that is large enough.
-/
namespace Zigmaos.UserMalloc

open CircularList

variable {base brk p n : ℕ} {F B : Finset ℕ} {h : Heap} {obtained : List (ℕ × ℕ)}

/-! ## Taking a block -/

/-- What taking a block of `n` units leaves; `y` is its header. -/
structure Taken (base : ℕ) (F B : Finset ℕ) (h : Heap) (brk : ℕ) (obtained : List (ℕ × ℕ))
    (n : ℕ) (r : ℕ × Heap) (F' B' : Finset ℕ) (y : ℕ) : Prop where
  linked : WellLinked base F' B' r.2 brk obtained
  result : r.1 = y + headerSize
  new : ¬ Allocated F B y
  allocated : ∀ a, Allocated F' B' a ↔ Allocated F B a ∨ a = y
  size : r.2.size y = n
  sizes : ∀ a, Allocated F B a → r.2.size a = h.size a

/-- A block that fits is taken off the list. -/
theorem WellLinked.unlink (hw : WellLinked base F B h brk obtained) {prevp : ℕ} (hprev : prevp ∈ F)
    (hne : h.ptr prevp ≠ base) :
    Taken base F B h brk obtained (h.size (h.ptr prevp))
      (h.ptr prevp + headerSize,
        { h.setPtr prevp (h.ptr (h.ptr prevp)) with freep := prevp })
      (F.erase (h.ptr prevp)) B (h.ptr prevp) := by
  have hb := hw.blocks
  have hp := hb.circular.next_mem prevp hprev
  have hlt := hb.circular.lt_next hprev hne
  have hgood := hb.layout.good _ (hb.sub hp) hne
  refine ⟨⟨⟨hb.circular.erase hprev hne, hb.layout, (Finset.erase_subset _ F).trans hb.sub⟩,
    fun a ha hab => ?_, Finset.mem_erase.mpr ⟨hlt.ne, hprev⟩⟩, rfl, fun hy => hy.2 hp, fun a => ?_,
    rfl, fun _ _ => rfl⟩
  · by_cases hax : a = prevp
    · -- The node before the block now leads past it.
      rw [hax] at hab ⊢
      have hend := hb.layout.apart prevp (hb.sub hprev) _ (hb.sub hp) hlt
      have hgoodp := hb.layout.good _ (hb.sub hprev) hab
      have hptr : (h.setPtr prevp (h.ptr (h.ptr prevp))).ptr prevp = h.ptr (h.ptr prevp) :=
        Function.update_self ..
      change h.blockEnd prevp ≠ (h.setPtr prevp (h.ptr (h.ptr prevp))).ptr prevp
      rw [hptr, Heap.blockEnd_eq]
      rcases hb.circular.up _ hp with hup | hlast
      · omega
      · omega
    · change h.blockEnd a ≠ (h.setPtr prevp (h.ptr (h.ptr prevp))).ptr a
      rw [Heap.setPtr_ptr, Function.update_of_ne hax]
      exact hw.separate a (Finset.mem_of_mem_erase ha) hab
  · simp only [Allocated, Finset.mem_erase, not_and_or, not_not]
    constructor
    · rintro ⟨ha, hF⟩
      exact hF.symm.imp (fun hF => ⟨ha, hF⟩) id
    · intro ha
      rcases ha with ⟨ha, hF⟩ | rfl
      · exact ⟨ha, .inr hF⟩
      · exact ⟨hb.sub hp, .inl rfl⟩

/-- A larger block is cut up, and stays on the list. -/
theorem WellLinked.cut (hw : WellLinked base F B h brk obtained) {prevp : ℕ} (hprev : prevp ∈ F)
    (hp : p ∈ F) (hne : p ≠ base) (hn : 0 < n) (hlt : n < h.size p) :
    ∃ B', Taken base F B h brk obtained n
      (p + (h.size p - n) * headerSize + headerSize,
        { (h.setSize p (h.size p - n)).setSize (p + (h.size p - n) * headerSize) n with
          freep := prevp }) F B' (p + (h.size p - n) * headerSize) := by
  have hb := hw.blocks
  have hgood := hb.layout.good p (hb.sub hp) hne
  obtain ⟨hnew, hlayout⟩ := hb.layout.split (hb.sub hp) hne hn hlt rfl
  have hsize : ((h.setSize p (h.size p - n)).setSize (p + (h.size p - n) * headerSize) n).size =
      Function.update (Function.update h.size p (h.size p - n))
        (p + (h.size p - n) * 16) n := by
    rw [Heap.setSize_size, Heap.setSize_size, Nat.mod_eq_of_lt (by omega : n < 2 ^ 32),
      Nat.mod_eq_of_lt (by omega : h.size p - n < 2 ^ 32)]
    rfl
  have hself : ∀ a ∈ B, a ≠ p → Function.update (Function.update h.size p (h.size p - n))
      (p + (h.size p - n) * 16) n a = h.size a := by
    intro a ha hap
    have hay : a ≠ p + (h.size p - n) * 16 := fun heq => hnew (heq ▸ ha)
    rw [Function.update_of_ne hay, Function.update_of_ne hap]
  refine ⟨insert (p + (h.size p - n) * 16) B, ⟨⟨hb.circular, ?_,
    hb.sub.trans (Finset.subset_insert _ B)⟩, fun a ha hab => ?_, hprev⟩, rfl,
    fun hy => hnew hy.1, fun a => ?_, ?_, fun a ha => ?_⟩
  · change Layout base _ ((h.setSize p _).setSize _ n).size brk obtained
    rw [hsize]
    exact hlayout
  · change a + ((h.setSize p _).setSize _ n).size a * 16 ≠ h.ptr a
    rw [hsize]
    by_cases hap : a = p
    · -- The rest of the block ends below where the block ended.
      have hpy : p ≠ p + (h.size p - n) * 16 := by omega
      rw [hap, Function.update_of_ne hpy, Function.update_self]
      rcases hb.circular.up p hp with hup | hlast
      · have := hb.layout.apart p (hb.sub hp) _ (hb.sub (hb.circular.next_mem p hp)) hup
        omega
      · omega
    · rw [hself a (hb.sub ha) hap]
      exact hw.separate a ha hab
  · have hF : p + (h.size p - n) * 16 ∉ F := fun hF => hnew (hb.sub hF)
    change Allocated F (insert (p + (h.size p - n) * 16) B) a ↔
      Allocated F B a ∨ a = p + (h.size p - n) * 16
    simp only [Allocated, Finset.mem_insert]
    constructor
    · rintro ⟨ha, haF⟩
      exact ha.symm.imp (fun ha => ⟨ha, haF⟩) id
    · intro ha
      rcases ha with ⟨ha, haF⟩ | rfl
      · exact ⟨.inr ha, haF⟩
      · exact ⟨.inl rfl, hF⟩
  · change ((h.setSize p _).setSize _ n).size _ = n
    rw [hsize]
    exact Function.update_self ..
  · change ((h.setSize p _).setSize _ n).size a = _
    rw [hsize]
    exact hself a ha.1 (fun heq => ha.2 (heq ▸ hp))

theorem WellLinked.take (hw : WellLinked base F B h brk obtained) {prevp : ℕ} (hprev : prevp ∈ F)
    (hn : 0 < n) (hfits : n ≤ h.size (h.ptr prevp)) :
    ∃ F' B' y, Taken base F B h brk obtained n (h.take prevp (h.ptr prevp) n) F' B' y := by
  have hb := hw.blocks
  have hp := hb.circular.next_mem prevp hprev
  have hne : h.ptr prevp ≠ base := by
    intro heq
    rw [heq, hb.layout.sentinel] at hfits
    omega
  rw [Heap.take]
  split
  next heq =>
    have := hw.unlink hprev hne
    rw [heq] at this
    exact ⟨_, _, _, this⟩
  next hlarger =>
    have hlt : n < h.size (h.ptr prevp) := lt_of_le_of_ne hfits (Ne.symm hlarger)
    have hgood := hb.layout.good _ (hb.sub hp) hne
    have hend : (h.setSize (h.ptr prevp) (h.size (h.ptr prevp) - n)).blockEnd (h.ptr prevp) =
        h.ptr prevp + (h.size (h.ptr prevp) - n) * headerSize := by
      rw [Heap.blockEnd, Heap.setSize_size, Function.update_self, Nat.mod_eq_of_lt (by omega)]
    obtain ⟨B', htaken⟩ := hw.cut hprev hp hne hn hlt
    exact ⟨F, B', _, by simpa only [hend] using htaken⟩

/-! ## Asking for more -/

theorem toInt_of_lt (hn : n < 2 ^ 31) : toInt n = n :=
  Int.bmod_eq_of_le (by omega) (by omega)

theorem morecoreUnits_bounds {nu : ℕ} (hnu : nu * headerSize < 2 ^ 31) :
    nu ≤ morecoreUnits nu ∧ 0 < morecoreUnits nu ∧ morecoreUnits nu * headerSize < 2 ^ 31 := by
  rw [morecoreUnits]
  have : headerSize = 16 := rfl
  split <;> omega

/-- The units of a free block that ends where memory is added make a `uint` with
those that are added. -/
def ExtendableTo (free : ℕ → Prop) (h : Heap) (brk n : ℕ) : Prop :=
  ∀ p, free p → h.blockEnd p = brk → h.size p + n < 2 ^ 32

/-- What asking `sbrk` leaves when it grants what is asked. -/
structure Extended (base : ℕ) (F B : Finset ℕ) (s : State) (nu : ℕ) (s' : State)
    (F' B' : Finset ℕ) : Prop where
  linked : WellLinked base F' B' s'.heap s'.brk s'.obtained
  allocated : ∀ a, Allocated F' B' a ↔ Allocated F B a
  sizes : ∀ a, Allocated F B a → s'.heap.size a = s.heap.size a
  fits : ∃ t ∈ F', nu ≤ s'.heap.size t
  live : s'.live = s.live
  brk : s.brk ≤ s'.brk

theorem WellLinked.morecore {s : State} (hw : WellLinked base F B s.heap s.brk s.obtained) {nu : ℕ}
    (hbrk : s.brk % 16 = 0) (hnu : nu * headerSize < 2 ^ 31)
    (hext : ExtendableTo (· ∈ F) s.heap s.brk (morecoreUnits nu)) :
    ∃ s' F' B' n, (∀ fuel ≥ n, s.morecore fuel nu true = some (some s'.heap.freep, s')) ∧
      Extended base F B s nu s' F' B' := by
  have hb := hw.blocks
  obtain ⟨hle, hpos, hsmall⟩ := morecoreUnits_bounds hnu
  have hunits : morecoreUnits nu < 2 ^ 32 := by
    rw [headerSize] at hsmall
    omega
  obtain ⟨hnew, hlayout⟩ := hb.layout.extend hbrk hpos hunits
  have hsize : (s.heap.setSize s.brk (morecoreUnits nu)).size =
      Function.update s.heap.size s.brk (morecoreUnits nu) := by
    rw [Heap.setSize_size, Nat.mod_eq_of_lt hunits]
  have hself : (s.heap.setSize s.brk (morecoreUnits nu)).size s.brk = morecoreUnits nu := by
    rw [hsize, Function.update_self]
  have hother : ∀ a ∈ B, (s.heap.setSize s.brk (morecoreUnits nu)).size a = s.heap.size a := by
    intro a ha
    rw [hsize, Function.update_of_ne (hb.layout.lt_brk ha).ne]
  have hend : ∀ a ∈ B, (s.heap.setSize s.brk (morecoreUnits nu)).blockEnd a = s.heap.blockEnd a :=
    fun a ha => congrArg (a + · * headerSize) (hother a ha)
  have hw' : WellLinked base F (insert s.brk B) (s.heap.setSize s.brk (morecoreUnits nu))
      (s.brk + morecoreUnits nu * 16) ((s.brk, morecoreUnits nu * 16) :: s.obtained) := by
    refine ⟨⟨hb.circular, ?_, hb.sub.trans (Finset.subset_insert _ B)⟩, fun a ha => ?_, hw.freep⟩
    · rw [hsize]
      exact hlayout
    · rw [SeparateAt, hend a (hb.sub ha)]
      exact hw.separate a ha
  have hlt : ∀ q ∈ F, q < s.brk := fun q hq => hb.layout.lt_brk (hb.sub hq)
  have hnone : ∀ q ∈ F, (s.heap.setSize s.brk (morecoreUnits nu)).blockEnd s.brk ≠ q := by
    intro q hq heq
    rw [Heap.blockEnd_eq] at heq
    have := hlt q hq
    omega
  have hbp : Allocated F (insert s.brk B) s.brk :=
    ⟨Finset.mem_insert_self _ B, fun hF => hnew (hb.sub hF)⟩
  obtain ⟨h', F', B', n, hfree, hfreed⟩ := hw'.free hbp
    ⟨fun q hq heq => absurd heq (hnone q hq), fun p hp hadj => by
      rw [hend p (hb.sub hp)] at hadj
      rw [hself, hother p (hb.sub hp)]
      exact hext p hp hadj, fun p q _ hq _ heq => absurd heq (hnone q hq)⟩
  have hn : toInt (morecoreUnits nu * headerSize) = (morecoreUnits nu * 16 : ℕ) :=
    toInt_of_lt hsmall
  refine ⟨⟨h', s.brk + morecoreUnits nu * 16, (s.brk, morecoreUnits nu * 16) :: s.obtained, s.live⟩,
    F', B', n, fun fuel hfuel => ?_, hfreed.linked, fun a => ?_, fun a ha => ?_, ?_, rfl,
    Nat.le_add_right _ _⟩
  · simp only [State.morecore, if_true, hfree fuel hfuel, hn, Int.toNat_natCast]
    congr 4
  · rw [hfreed.allocated, Allocated, Allocated, Finset.mem_insert]
    constructor
    · rintro ⟨⟨ha, hF⟩, hne⟩
      exact ⟨ha.resolve_left hne, hF⟩
    · rintro ⟨ha, hF⟩
      exact ⟨⟨.inr ha, hF⟩, (hb.layout.lt_brk ha).ne⟩
  · have hne := (hb.layout.lt_brk ha.1).ne
    rw [hfreed.sizes a ((hfreed.allocated a).mpr
      ⟨⟨Finset.mem_insert_of_mem ha.1, ha.2⟩, hne⟩), hother a ha.1]
  · obtain ⟨t, ht, hjoined⟩ := hfreed.joined
    rw [hself] at hjoined
    exact ⟨t, ht, hle.trans hjoined⟩

/-! ## The loop -/

/-- Where the loop of `malloc` does more than go on, seen from the node before. -/
def stopsAt (h : Heap) (nunits prevp : ℕ) : Bool :=
  nunits ≤ h.size (h.ptr prevp) || h.ptr prevp = h.freep

theorem mallocLoop_walk {s : State} {nunits q n : ℕ} {prevp : ℕ} (grants : List Bool)
    (hwalk : walk s.heap.ptr (stopsAt s.heap nunits) n prevp = some q) (fuel : ℕ) :
    ∃ m ≥ fuel, s.mallocLoop nunits (fuel + n) grants prevp (s.heap.ptr prevp) =
      s.mallocLoop nunits (m + 1) grants q (s.heap.ptr q) := by
  induction n generalizing prevp with
  | zero => exact absurd hwalk nofun
  | succ n ih =>
    rw [walk] at hwalk
    split at hwalk
    · obtain rfl := Option.some.inj hwalk
      exact ⟨fuel + n, Nat.le_add_right _ _, rfl⟩
    next hgo =>
      simp only [stopsAt, Bool.or_eq_true, decide_eq_true_eq, not_or] at hgo
      obtain ⟨m, hm, heq⟩ := ih hwalk
      refine ⟨m, hm, ?_⟩
      rw [← heq, ← Nat.add_assoc, State.mallocLoop, if_neg hgo.1, if_neg hgo.2]

/-- The loop comes to a block that fits, or has looked at all of them. -/
theorem WellLinked.search (hw : WellLinked base F B h brk obtained) (nunits : ℕ) :
    ∃ q ∈ F, (nunits ≤ h.size (h.ptr q) ∨
        (h.ptr q = h.freep ∧ ∀ t ∈ F, h.size t < nunits)) ∧
      ∃ n, walk h.ptr (stopsAt h nunits) n h.freep = some q := by
  have hc := hw.blocks.circular
  obtain ⟨j, hj⟩ := hc.reach (hc.next_mem _ hw.freep) hw.freep
  have hend : stopsAt h nunits (h.ptr^[j] h.freep) = true := by
    have hround : h.ptr (h.ptr^[j] h.freep) = h.freep := by
      rw [← Function.iterate_succ_apply' h.ptr, Function.iterate_succ_apply, hj]
    rw [stopsAt, hround]
    simp
  obtain ⟨i, _, hi, hpass, hwalk⟩ := CircularList.walk_stops hend
  refine ⟨h.ptr^[i] h.freep, hc.iterate_mem hw.freep i, ?_, i + 1, hwalk _ (Nat.lt_succ_self i)⟩
  by_cases hfits : nunits ≤ h.size (h.ptr (h.ptr^[i] h.freep))
  · exact .inl hfits
  · have hback : h.ptr (h.ptr^[i] h.freep) = h.freep := by
      simpa [stopsAt, hfits] using hi
    refine .inr ⟨hback, fun t ht => ?_⟩
    have hall := hc.round (fun t => decide (nunits ≤ h.size t)) hw.freep
      (by rw [Function.iterate_succ_apply']; exact hback) (fun k hk => ?_) t ht
    · simpa using hall
    · rw [Function.iterate_succ_apply']
      rcases hk.lt_or_eq with hlt | rfl
      · have := hpass k hlt
        simp only [stopsAt, Bool.or_eq_false_iff] at this
        exact this.1
      · exact decide_eq_false hfits

/-- What `malloc` leaves when it returns a pointer. -/
structure Got (base : ℕ) (F B : Finset ℕ) (s : State) (nunits : ℕ) (result : Option ℕ) (s' : State)
    (F' B' : Finset ℕ) (y : ℕ) : Prop where
  linked : WellLinked base F' B' s'.heap s'.brk s'.obtained
  result : result = some (y + headerSize)
  new : ¬ Allocated F B y
  allocated : ∀ a, Allocated F' B' a ↔ Allocated F B a ∨ a = y
  size : s'.heap.size y = nunits
  sizes : ∀ a, Allocated F B a → s'.heap.size a = s.heap.size a
  live : s'.live = s.live
  brk : s.brk ≤ s'.brk

/-- With a block that fits the loop returns one. -/
theorem WellLinked.loop_found {s : State}
    (hw : WellLinked base F B s.heap s.brk s.obtained) {nunits : ℕ} (hn : 0 < nunits)
    (hfits : ∃ t ∈ F, nunits ≤ s.heap.size t) (grants : List Bool) :
    ∃ result s' F' B' y n, (∀ fuel ≥ n, s.mallocLoop nunits fuel grants s.heap.freep
      (s.heap.ptr s.heap.freep) = some (result, s')) ∧ Got base F B s nunits result s' F' B' y := by
  obtain ⟨q, hq, hstop, n, hwalk⟩ := hw.search nunits
  obtain ⟨t, ht, hle⟩ := hfits
  have hfit := hstop.resolve_right (fun hnone => absurd hle (not_le.mpr (hnone.2 t ht)))
  obtain ⟨F', B', y, htaken⟩ := hw.take hq hn hfit
  refine ⟨some (s.heap.take q (s.heap.ptr q) nunits).1,
    { s with heap := (s.heap.take q (s.heap.ptr q) nunits).2 }, F', B', y, n, fun fuel hfuel => ?_,
    htaken.linked, congrArg some htaken.result, htaken.new, htaken.allocated, htaken.size,
    htaken.sizes, rfl, le_rfl⟩
  obtain ⟨m, _, hloop⟩ := mallocLoop_walk grants hwalk (fuel - n)
  rw [Nat.sub_add_cancel hfuel] at hloop
  rw [hloop, State.mallocLoop, if_pos hfit]

/-- What `malloc` may ask of `sbrk`: an `int`, at an aligned break. -/
structure Askable (free : ℕ → Prop) (s : State) (nunits : ℕ) : Prop where
  int : nunits * headerSize < 2 ^ 31
  aligned : s.brk % 16 = 0
  extendable : ExtendableTo free s.heap s.brk (morecoreUnits nunits)

/-- The loop ends: it returns a block, or nothing when none fits and `sbrk` fails. -/
theorem WellLinked.loop {s : State} (hw : WellLinked base F B s.heap s.brk s.obtained)
    {nunits : ℕ} (hn : 0 < nunits) (grants : List Bool)
    (hask : grants.headD false = true → (∀ t ∈ F, s.heap.size t < nunits) →
      Askable (· ∈ F) s nunits) :
    ∃ result s' n, (∀ fuel ≥ n, s.mallocLoop nunits fuel grants s.heap.freep
        (s.heap.ptr s.heap.freep) = some (result, s')) ∧
      ((result = none ∧ s' = s ∧ grants.headD false = false ∧ ∀ t ∈ F, s.heap.size t < nunits) ∨
        ∃ F' B' y, Got base F B s nunits result s' F' B' y) := by
  by_cases hfits : ∃ t ∈ F, nunits ≤ s.heap.size t
  · obtain ⟨result, s', F', B', y, n, hloop, hgot⟩ := hw.loop_found hn hfits grants
    exact ⟨result, s', n, hloop, .inr ⟨F', B', y, hgot⟩⟩
  · have hnone : ∀ t ∈ F, s.heap.size t < nunits := fun t ht =>
      not_le.mp (fun hle => hfits ⟨t, ht, hle⟩)
    obtain ⟨q, hq, hstop, n, hwalk⟩ := hw.search nunits
    have hlarge := hnone _ (hw.blocks.circular.next_mem q hq)
    have hback := (hstop.resolve_left (not_le.mpr hlarge)).1
    have hfails : ∀ m, s.morecore m nunits (grants.headD false) = some (none, s) →
        s.mallocLoop nunits (m + 1) grants q (s.heap.ptr q) = some (none, s) := by
      intro m hmore
      rw [State.mallocLoop, if_neg (not_le.mpr hlarge), if_pos hback, hmore]
    have hturn : ∀ m p s₁, s.morecore m nunits (grants.headD false) = some (some p, s₁) →
        s.mallocLoop nunits (m + 1) grants q (s.heap.ptr q) =
          s₁.mallocLoop nunits m grants.tail p (s₁.heap.ptr p) := by
      intro m p s₁ hmore
      rw [State.mallocLoop, if_neg (not_le.mpr hlarge), if_pos hback, hmore]
    cases hgrant : grants.headD false with
    | false =>
      refine ⟨none, s, n, fun fuel hfuel => ?_, .inl ⟨rfl, rfl, rfl, hnone⟩⟩
      obtain ⟨m, _, hloop⟩ := mallocLoop_walk grants hwalk (fuel - n)
      rw [Nat.sub_add_cancel hfuel] at hloop
      rw [hloop]
      exact hfails m (by rw [hgrant]; rfl)
    | true =>
      have hok := hask hgrant hnone
      obtain ⟨s₁, F₁, B₁, n₁, hmore, hext⟩ := hw.morecore hok.aligned hok.int hok.extendable
      obtain ⟨result, s', F', B', y, n₂, hfound, hgot⟩ :=
        hext.linked.loop_found hn hext.fits grants.tail
      refine ⟨result, s', n + (n₁ + n₂), fun fuel hfuel => ?_, .inr ⟨F', B', y, hgot.linked,
        hgot.result, fun hy => hgot.new ((hext.allocated y).mpr hy), fun a => ?_, hgot.size,
        fun a ha => ?_, hgot.live.trans hext.live, hext.brk.trans hgot.brk⟩⟩
      · obtain ⟨m, hm, hloop⟩ := mallocLoop_walk grants hwalk (fuel - n)
        rw [Nat.sub_add_cancel (by omega)] at hloop
        rw [hloop, hturn m _ _ (by rw [hgrant]; exact hmore m (by omega))]
        exact hfound m (by omega)
      · rw [hgot.allocated, hext.allocated]
      · rw [hgot.sizes a ((hext.allocated a).mpr ha), hext.sizes a ha]

end Zigmaos.UserMalloc
