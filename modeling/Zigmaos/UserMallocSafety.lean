import Zigmaos.Transition
import Zigmaos.UserMallocAlloc

/-!
# The heap of a user program in any run

As long as `sbrk` is asked for an `int` at an aligned break, and no two joined
blocks have more units than a `uint` holds, the blocks fill the memory that
`sbrk` has given, `malloc` returns blocks that are large enough and apart, and
every search ends.
-/
namespace Zigmaos.UserMalloc

open CircularList Transition

/-! ## Fuel -/

theorem Heap.free_mono {h h' : Heap} {ap n m : ℕ} (hn : h.free n ap = some h') (hm : n ≤ m) :
    h.free m ap = some h' := by
  obtain ⟨p, hp, heq⟩ := Option.map_eq_some_iff.mp hn
  exact Option.map_eq_some_iff.mpr ⟨p, walk_mono hp hm, heq⟩

theorem State.morecore_mono {s : State} {nu n m : ℕ} {granted : Bool} {r : Option ℕ × State}
    (hn : s.morecore n nu granted = some r) (hm : n ≤ m) : s.morecore m nu granted = some r := by
  cases granted with
  | false => exact hn
  | true =>
    simp only [State.morecore, if_true] at hn ⊢
    split at hn
    · cases hn
    next h heq => rw [Heap.free_mono heq hm, ← hn]

theorem State.mallocLoop_mono {s : State} {grants : List Bool} {nunits prevp p n m : ℕ}
    {r : Option ℕ × State} (hn : s.mallocLoop nunits n grants prevp p = some r) (hm : n ≤ m) :
    s.mallocLoop nunits m grants prevp p = some r := by
  induction n generalizing s grants prevp p m with
  | zero => cases hn
  | succ n ih =>
    cases m with
    | zero => exact absurd hm (Nat.not_succ_le_zero n)
    | succ m =>
      have hm := Nat.le_of_succ_le_succ hm
      rw [State.mallocLoop] at hn ⊢
      split at hn
      next hfits => rwa [if_pos hfits]
      next hlarge =>
        rw [if_neg hlarge]
        split at hn
        next hback =>
          rw [if_pos hback]
          split at hn
          · cases hn
          next heq => rwa [State.morecore_mono heq hm]
          next heq =>
            rw [State.morecore_mono heq hm]
            exact ih hn hm
        next hgo =>
          rw [if_neg hgo]
          exact ih hn hm

theorem State.malloc_mono {s : State} {base nbytes n m : ℕ} {grants : List Bool}
    {r : Option ℕ × State} (hn : s.malloc base n nbytes grants = some r) (hm : n ≤ m) :
    s.malloc base m nbytes grants = some r :=
  State.mallocLoop_mono hn hm

/-! ## The invariant -/

namespace State

/-- The node is on the list of free blocks. -/
def OnList (base : ℕ) (s : State) (a : ℕ) : Prop :=
  s.heap.freep ≠ 0 ∧ ∃ k, s.heap.ptr^[k] base = a

/-- The address is that of the header of a block that is allocated. -/
def IsLive (s : State) (a : ℕ) : Prop := a + headerSize ∈ s.live.map Prod.fst

end State

structure Inv (base : ℕ) (F B : Finset ℕ) (s : State) : Prop where
  linked : WellLinked base F B s.heap s.brk s.obtained
  live : ∀ e ∈ s.live, ∃ a, Allocated F B a ∧ e.1 = a + headerSize ∧
    e.2 + headerSize ≤ s.heap.size a * headerSize
  all : ∀ a, Allocated F B a → s.IsLive a
  nodup : (s.live.map Prod.fst).Nodup

/-- No call of `malloc` yet. -/
structure Unused (base : ℕ) (s : State) : Prop where
  freep : s.heap.freep = 0
  live : s.live = []
  obtained : s.obtained = []
  above : base + headerSize ≤ s.brk

def Invariant (base : ℕ) (s : State) : Prop := 0 < base ∧ (Unused base s ∨ ∃ F B, Inv base F B s)

variable {base : ℕ} {F B : Finset ℕ} {s s' : State}

theorem Inv.freep_ne (hbase : 0 < base) (h : Inv base F B s) : s.heap.freep ≠ 0 := by
  have := h.linked.blocks.circular.least _ h.linked.freep
  omega

theorem Inv.onList (hbase : 0 < base) (h : Inv base F B s) {a : ℕ} : s.OnList base a ↔ a ∈ F := by
  rw [State.OnList, h.linked.blocks.circular.mem_iff]
  exact and_iff_right (h.freep_ne hbase)

theorem Inv.isLive (h : Inv base F B s) {a : ℕ} : s.IsLive a ↔ Allocated F B a := by
  refine ⟨fun ha => ?_, h.all a⟩
  obtain ⟨e, he, heq⟩ := List.mem_map.mp ha
  obtain ⟨b, hb, hab, _⟩ := h.live e he
  rw [heq] at hab
  rwa [Nat.add_right_cancel hab]

/-- What a call may find: the sentinel alone, or the list of the calls before. -/
theorem Unused.initialized (h : Unused base s) :
    Inv base {base} {base} { s with heap := s.heap.initialized base } := by
  have heq : s.heap.initialized base =
      { (s.heap.setPtr base base).setSize base 0 with freep := base } := if_pos h.freep
  have hnone : ∀ a, ¬ Allocated {base} {base} a := fun a ha => ha.2 ha.1
  have hzero : (s.heap.initialized base).size base = 0 := by
    rw [heq]
    exact Function.update_self ..
  have hptr : (s.heap.initialized base).ptr base = base := by
    rw [heq]
    exact Function.update_self ..
  refine ⟨⟨⟨.singleton base _ hptr, ?_, subset_rfl⟩, fun a ha hab => ?_, ?_⟩, fun e he => ?_,
    fun a ha => absurd ha (hnone a), ?_⟩
  · rw [h.obtained]
    exact .start h.above hzero
  · exact absurd (Finset.mem_singleton.mp ha) hab
  · rw [heq]
    exact Finset.mem_singleton_self base
  · rw [h.live] at he
    exact absurd he List.not_mem_nil
  · rw [h.live]
    exact List.nodup_nil

/-! ## Calls -/

/-- The units that joining or asking makes are those of a `uint` and an `int`, and the
break at which memory is asked for is aligned. -/
def Regular (base : ℕ) (s : State) : Event → Prop
  | .malloc nbytes grants => grants.headD false = true →
    (∀ a, s.OnList base a → s.heap.size a < unitsFor nbytes.toNat) →
      Askable (s.OnList base) s (unitsFor nbytes.toNat)
  | .free ap => Joinable (s.OnList base) s.heap (ap - headerSize)
  | .moveBreak _ => True

theorem unitsFor_bounds (nbytes : UInt32) :
    0 < unitsFor nbytes.toNat ∧ nbytes.toNat + headerSize ≤ unitsFor nbytes.toNat * headerSize := by
  have hlt := nbytes.toNat_lt
  rw [unitsFor, headerSize]
  omega

/-- What a call of `malloc` leaves. -/
structure Mallocs (base : ℕ) (s : State) (nbytes : UInt32) (grants : List Bool)
    (result : Option ℕ) (s' : State) : Prop where
  brk : s.brk ≤ s'.brk
  null : result = none → grants.headD false = false ∧
    ∀ a, s.OnList base a → s.heap.size a < unitsFor nbytes.toNat
  keeps : result = none → Invariant base s'
  got : ∀ ap, result = some ap → Invariant base { s' with live := (ap, nbytes.toNat) :: s'.live }

theorem Inv.mallocs (hbase : 0 < base) (h : Inv base F B s) (nbytes : UInt32) (grants : List Bool)
    (hask : grants.headD false = true → (∀ t ∈ F, s.heap.size t < unitsFor nbytes.toNat) →
      Askable (· ∈ F) s (unitsFor nbytes.toNat)) :
    ∃ result s' n, (∀ fuel ≥ n, s.mallocLoop (unitsFor nbytes.toNat) fuel grants s.heap.freep
      (s.heap.ptr s.heap.freep) = some (result, s')) ∧ Mallocs base s nbytes grants result s' := by
  obtain ⟨hpos, henough⟩ := unitsFor_bounds nbytes
  obtain ⟨result, s', n, hloop, hresult⟩ := h.linked.loop hpos grants hask
  refine ⟨result, s', n, hloop, ?_⟩
  rcases hresult with ⟨rfl, rfl, hgrants, hnone⟩ | ⟨F', B', y, hgot⟩
  · exact ⟨le_rfl, fun _ => ⟨hgrants, fun a ha => hnone a ((h.onList hbase).mp ha)⟩,
      fun _ => ⟨hbase, .inr ⟨F, B, h⟩⟩, nofun⟩
  · refine ⟨hgot.brk, fun hr => ?_, fun hr => ?_, fun ap hr => ⟨hbase, .inr ⟨F', B', hgot.linked,
      fun e he => ?_, fun a ha => ?_, ?_⟩⟩⟩
    · exact absurd (hgot.result.symm.trans hr) nofun
    · exact absurd (hgot.result.symm.trans hr) nofun
    · obtain rfl := Option.some.inj (hgot.result.symm.trans hr)
      rcases List.mem_cons.mp he with rfl | he
      · refine ⟨y, (hgot.allocated y).mpr (.inr rfl), rfl, ?_⟩
        rw [hgot.size]
        exact henough
      · rw [hgot.live] at he
        obtain ⟨a, ha, heq, hle⟩ := h.live e he
        refine ⟨a, (hgot.allocated a).mpr (.inl ha), heq, ?_⟩
        rwa [hgot.sizes a ha]
    · obtain rfl := Option.some.inj (hgot.result.symm.trans hr)
      rw [State.IsLive, List.map_cons, hgot.live, List.mem_cons]
      rcases (hgot.allocated a).mp ha with ha | rfl
      · exact .inr (h.all a ha)
      · exact .inl rfl
    · obtain rfl := Option.some.inj (hgot.result.symm.trans hr)
      rw [List.map_cons, hgot.live, List.nodup_cons]
      exact ⟨fun hmem => hgot.new (h.isLive.mp hmem), h.nodup⟩

theorem Invariant.mallocs (h : Invariant base s) {nbytes : UInt32} {grants : List Bool}
    (hregular : Regular base s (.malloc nbytes grants)) :
    ∃ result s' n, (∀ fuel ≥ n, s.malloc base fuel nbytes.toNat grants = some (result, s')) ∧
      Mallocs base s nbytes grants result s' := by
  obtain ⟨hbase, hunused | ⟨F, B, hinv⟩⟩ := h
  · have hno : ∀ a, ¬ s.OnList base a := fun a ha => ha.1 hunused.freep
    have hinit := hunused.initialized
    obtain ⟨result, s', n, hloop, hmallocs⟩ := hinit.mallocs hbase nbytes grants
      (fun hgrant _ => by
        have hask := hregular hgrant (fun a ha => absurd ha (hno a))
        refine ⟨hask.int, hask.aligned, fun p hp hend => ?_⟩
        -- The sentinel is not next to the break.
        have hlayout := hinit.linked.blocks.layout
        rw [Finset.mem_singleton.mp hp, Heap.blockEnd_eq, hlayout.sentinel] at hend
        have habove : base + 16 ≤ s.brk := hlayout.above
        have : base = s.brk := by simpa using hend
        omega)
    exact ⟨result, s', n, hloop, hmallocs.brk, fun hr =>
      ⟨(hmallocs.null hr).1, fun a ha => absurd ha (hno a)⟩, hmallocs.keeps, hmallocs.got⟩
  · have hsame : s.heap.initialized base = s.heap := if_neg (hinv.freep_ne hbase)
    obtain ⟨result, s', n, hloop, hmallocs⟩ := hinv.mallocs hbase nbytes grants
      (fun hgrant hnone => by
        have hask := hregular hgrant (fun a ha => hnone a ((hinv.onList hbase).mp ha))
        exact ⟨hask.int, hask.aligned, fun p hp => hask.extendable p ((hinv.onList hbase).mpr hp)⟩)
    refine ⟨result, s', n, fun fuel hfuel => ?_, hmallocs⟩
    rw [State.malloc, hsame]
    exact hloop fuel hfuel

theorem Invariant.frees (h : Invariant base s) {ap : ℕ} (hap : ap ∈ s.live.map Prod.fst)
    (hregular : Regular base s (.free ap)) :
    ∃ h' n, (∀ fuel ≥ n, s.heap.free fuel ap = some h') ∧
      Invariant base { s with heap := h', live := s.live.filter (·.1 ≠ ap) } := by
  obtain ⟨hbase, hunused | ⟨F, B, hinv⟩⟩ := h
  · rw [hunused.live] at hap
    exact absurd hap List.not_mem_nil
  obtain ⟨e, he, rfl⟩ := List.mem_map.mp hap
  obtain ⟨bp, hbp, heq, _⟩ := hinv.live e he
  rw [Regular, heq, Nat.add_sub_cancel] at hregular
  have hjoin : Joinable (· ∈ F) s.heap bp :=
    ⟨fun q hq => hregular.next q ((hinv.onList hbase).mpr hq),
      fun p hp => hregular.previous p ((hinv.onList hbase).mpr hp),
      fun p q hp hq => hregular.both p q ((hinv.onList hbase).mpr hp)
        ((hinv.onList hbase).mpr hq)⟩
  obtain ⟨h', F', B', n, hfree, hfreed⟩ := hinv.linked.free hbp hjoin
  rw [heq]
  refine ⟨h', n, hfree, hbase, .inr ⟨F', B', hfreed.linked, fun e' he' => ?_, fun a ha => ?_, ?_⟩⟩
  · obtain ⟨he', hne⟩ := List.mem_filter.mp he'
    obtain ⟨a, ha, heq', hle⟩ := hinv.live e' he'
    have hne' : a ≠ bp := by
      intro hab
      rw [heq', hab] at hne
      simp at hne
    have ha' := (hfreed.allocated a).mpr ⟨ha, hne'⟩
    refine ⟨a, ha', heq', ?_⟩
    rwa [hfreed.sizes a ha']
  · obtain ⟨ha, hne⟩ := (hfreed.allocated a).mp ha
    obtain ⟨e', he', heq'⟩ := List.mem_map.mp (hinv.all a ha)
    refine List.mem_map.mpr ⟨e', List.mem_filter.mpr ⟨he', ?_⟩, heq'⟩
    rw [heq', headerSize]
    simpa using hne
  · exact hinv.nodup.sublist (List.filter_sublist.map Prod.fst)

theorem Invariant.moveBreak (h : Invariant base s) (n : ℕ) :
    Invariant base { s with brk := s.brk + n } := by
  obtain ⟨hbase, hunused | ⟨F, B, hinv⟩⟩ := h
  · exact ⟨hbase, .inl ⟨hunused.freep, hunused.live, hunused.obtained,
      hunused.above.trans (Nat.le_add_right _ n)⟩⟩
  · exact ⟨hbase, .inr ⟨F, B, ⟨⟨hinv.linked.blocks.circular,
      hinv.linked.blocks.layout.moveBreak n, hinv.linked.blocks.sub⟩, hinv.linked.separate,
      hinv.linked.freep⟩, hinv.live, hinv.all, hinv.nodup⟩⟩

theorem step_invariant (h : Invariant base s) {fuel : ℕ} {e : Event} (hregular : Regular base s e)
    (hs : step base fuel s e = some s') : Invariant base s' := by
  cases e with
  | malloc nbytes grants =>
    obtain ⟨result, s₁, n, hmalloc, hmallocs⟩ := h.mallocs hregular
    rw [step] at hs
    split at hs
    · exact absurd hs nofun
    next heq =>
      have hmore := State.malloc_mono heq (Nat.le_max_left fuel n)
      rw [hmalloc _ (Nat.le_max_right fuel n)] at hmore
      obtain ⟨rfl, rfl⟩ := Prod.mk.inj (Option.some.inj hmore)
      obtain rfl := Option.some.inj hs
      exact hmallocs.keeps rfl
    next heq =>
      have hmore := State.malloc_mono heq (Nat.le_max_left fuel n)
      rw [hmalloc _ (Nat.le_max_right fuel n)] at hmore
      obtain ⟨rfl, rfl⟩ := Prod.mk.inj (Option.some.inj hmore)
      obtain rfl := Option.some.inj hs
      exact hmallocs.got _ rfl
  | free ap =>
    rw [step] at hs
    split at hs
    next hap =>
      obtain ⟨h', n, hfree, hinv⟩ := h.frees hap hregular
      split at hs
      · exact absurd hs nofun
      next heq =>
        have hmore := Heap.free_mono heq (Nat.le_max_left fuel n)
        rw [hfree _ (Nat.le_max_right fuel n)] at hmore
        obtain rfl := Option.some.inj hmore
        obtain rfl := Option.some.inj hs
        exact hinv
    · exact absurd hs nofun
  | moveBreak n =>
    obtain rfl := Option.some.inj hs
    exact h.moveBreak n

theorem invariant_run {fuel : ℕ} {s₀ : State} {events : List Event} (h₀ : Invariant base s₀)
    (hregular : ∀ es e s, es ++ [e] <+: events → run (step base fuel) s₀ es = some s →
      Regular base s e)
    (hrun : run (step base fuel) s₀ events = some s) : Invariant base s :=
  run_inv_of_steps h₀ (fun _ _ _ hinv hs hR => step_invariant hinv hR hs) hregular events s
    (List.prefix_refl events) hrun

/-! ## What the allocator promises -/

namespace State

/-- A block, free or not. -/
def IsBlock (base : ℕ) (s : State) (a : ℕ) : Prop := (s.OnList base a ∧ a ≠ base) ∨ s.IsLive a

/-- The byte belongs to the block with the header at `a`. -/
def InBlock (s : State) (a x : ℕ) : Prop := a ≤ x ∧ x < s.heap.blockEnd a

end State

/-- The byte belongs to what a pointer was returned for. -/
def InResult (e : ℕ × ℕ) (x : ℕ) : Prop := e.1 ≤ x ∧ x < e.1 + e.2

structure Sound (base : ℕ) (s : State) : Prop where
  /-- Once `malloc` has been called the list is circular and ordered, and its blocks are
  disjoint and not adjacent. -/
  list : s.heap.freep ≠ 0 → ∃ F : Finset ℕ, Circular F base s.heap.ptr ∧ s.heap.freep ∈ F ∧
    (∀ a, s.OnList base a ↔ a ∈ F) ∧ ∀ a ∈ F, ∀ b ∈ F, a < b → s.heap.blockEnd a < b
  aligned : ∀ e ∈ s.live, e.1 % headerSize = 0
  enough : ∀ e ∈ s.live, headerSize ≤ e.1 ∧ e.1 + e.2 ≤ s.heap.blockEnd (e.1 - headerSize)
  inside : ∀ e ∈ s.live, ∀ x, InResult e x → Given s.obtained x
  apart : s.live.Pairwise (fun e e' => ∀ x,
    s.InBlock (e.1 - headerSize) x → ¬ s.InBlock (e'.1 - headerSize) x)
  headers : ∀ e ∈ s.live, ∀ a, a = base ∨ s.IsBlock base a → ∀ x, InResult e x →
    ¬ (a ≤ x ∧ x < a + headerSize)
  /-- The blocks fill the memory obtained, each byte once. -/
  partition : ∀ x, Given s.obtained x ↔ ∃! a, s.IsBlock base a ∧ s.InBlock a x
  exclusive : ∀ a, s.OnList base a → ¬ s.IsLive a

/-- A call ends. `malloc` does not move the break down, and returns null only when no free
block is large enough and `sbrk` fails. -/
def Answers (base : ℕ) (s : State) : Event → Prop
  | .malloc nbytes grants => ∃ result s' n,
      (∀ fuel ≥ n, s.malloc base fuel nbytes.toNat grants = some (result, s')) ∧ s.brk ≤ s'.brk ∧
      (result = none → grants.headD false = false ∧
        ∀ a, s.OnList base a → s.heap.size a < unitsFor nbytes.toNat)
  | .free ap => ap ∈ s.live.map Prod.fst → ∃ h n, ∀ fuel ≥ n, s.heap.free fuel ap = some h
  | .moveBreak _ => True

theorem Unused.sound (h : Unused base s) : Sound base s := by
  have hlist : ∀ a, ¬ s.OnList base a := fun a ha => ha.1 h.freep
  have hlive : ∀ e, e ∉ s.live := by
    rw [h.live]
    exact fun _ => List.not_mem_nil
  have hblock : ∀ a, ¬ s.IsBlock base a := by
    rintro a (ha | ha)
    · exact hlist a ha.1
    · obtain ⟨e, he, _⟩ := List.mem_map.mp ha
      exact hlive e he
  refine ⟨fun hne => absurd h.freep hne, fun e he => absurd he (hlive e),
    fun e he => absurd he (hlive e), fun e he => absurd he (hlive e), ?_,
    fun e he => absurd he (hlive e), fun x => ?_, fun a ha => absurd ha (hlist a)⟩
  · rw [h.live]
    exact List.Pairwise.nil
  · rw [h.obtained]
    constructor
    · intro ⟨_, hr, _⟩
      exact absurd hr List.not_mem_nil
    · intro ⟨a, ⟨ha, _⟩, _⟩
      exact absurd ha (hblock a)

theorem Inv.isBlock (hbase : 0 < base) (h : Inv base F B s) {a : ℕ} :
    s.IsBlock base a ↔ a ∈ B ∧ a ≠ base := by
  have hmem := h.linked.blocks.circular.first_mem
  rw [State.IsBlock, h.onList hbase, h.isLive]
  constructor
  · rintro (⟨ha, hne⟩ | ha)
    · exact ⟨h.linked.blocks.sub ha, hne⟩
    · exact ⟨ha.1, fun heq => ha.2 (heq ▸ hmem)⟩
  · intro ⟨ha, hne⟩
    by_cases hF : a ∈ F
    · exact .inl ⟨hF, hne⟩
    · exact .inr ⟨ha, hF⟩

/-- A byte is in one block. -/
theorem Inv.inBlock_unique (h : Inv base F B s) {a b x : ℕ} (ha : a ∈ B) (hb : b ∈ B)
    (hax : s.InBlock a x) (hbx : s.InBlock b x) : a = b := by
  obtain ⟨hax₁, hax₂⟩ := hax
  obtain ⟨hbx₁, hbx₂⟩ := hbx
  rw [Heap.blockEnd_eq] at hax₂ hbx₂
  rcases lt_trichotomy a b with hlt | heq | hgt
  · have := h.linked.blocks.layout.apart a ha b hb hlt
    omega
  · exact heq
  · have := h.linked.blocks.layout.apart b hb a ha hgt
    omega

theorem Inv.sound (hbase : 0 < base) (h : Inv base F B s) : Sound base s := by
  have hlayout := h.linked.blocks.layout
  have hc := h.linked.blocks.circular
  have hsub := h.linked.blocks.sub
  have hblock : ∀ e ∈ s.live, ∃ a, a ∈ B ∧ a ≠ base ∧ a + headerSize = e.1 ∧
      a + headerSize + e.2 ≤ s.heap.blockEnd a := by
    intro e he
    obtain ⟨a, ha, heq, hle⟩ := h.live e he
    refine ⟨a, ha.1, fun hab => ha.2 (hab ▸ hc.first_mem), heq.symm, ?_⟩
    rw [Heap.blockEnd]
    omega
  have hin : ∀ e ∈ s.live, ∀ x, InResult e x → s.InBlock (e.1 - headerSize) x := by
    intro e he x hx
    obtain ⟨a, _, _, heq, hle⟩ := hblock e he
    obtain ⟨hx₁, hx₂⟩ := hx
    rw [← heq, Nat.add_sub_cancel]
    exact ⟨by omega, by omega⟩
  refine ⟨fun _ => ⟨F, hc, h.linked.freep, fun a => h.onList hbase, fun a ha b hb hlt => ?_⟩,
    fun e he => ?_, fun e he => ?_, fun e he x hx => ?_, ?_, fun e he b hb x hx hheader => ?_,
    fun x => ?_, fun a ha hlive => (h.isLive.mp hlive).2 ((h.onList hbase).mp ha)⟩
  · by_cases hab : a = base
    · rw [hab, Heap.blockEnd_eq, hlayout.sentinel]
      omega
    · -- The next node begins behind the end, and not at it.
      have hgap := hc.gap a ha b hb hlt
      have hup : a < s.heap.ptr a := (hc.up a ha).resolve_right (fun hlast => by
        have := hlast.2 b hb
        omega)
      have hend := hlayout.apart a (hsub ha) _ (hsub (hc.next_mem a ha)) hup
      have hne := h.linked.separate a ha hab
      rw [Heap.blockEnd_eq] at hne ⊢
      omega
  · obtain ⟨a, ha, hne, heq, _⟩ := hblock e he
    have := (hlayout.good a ha hne).2.2.2.1
    rw [← heq, headerSize]
    omega
  · obtain ⟨a, _, _, heq, hle⟩ := hblock e he
    rw [← heq, Nat.add_sub_cancel]
    exact ⟨Nat.le_add_left _ _, hle⟩
  · obtain ⟨a, ha, _, heq, _⟩ := hblock e he
    have hbyte := hin e he x hx
    rw [← heq, Nat.add_sub_cancel] at hbyte
    exact (hlayout.covers x).mpr ⟨a, ha, hbyte⟩
  · have hne : s.live.Pairwise (fun e e' => e.1 ≠ e'.1) := List.pairwise_map.mp h.nodup
    refine hne.imp_of_mem fun {e e'} he he' hne x hx hy => ?_
    obtain ⟨a, ha, _, heq, _⟩ := hblock e he
    obtain ⟨b, hb, _, heq', _⟩ := hblock e' he'
    rw [← heq, Nat.add_sub_cancel] at hx
    rw [← heq', Nat.add_sub_cancel] at hy
    have hab := h.inBlock_unique ha hb hx hy
    exact hne (by rw [← heq, ← heq', hab])
  · obtain ⟨a, ha, hne, heq, _⟩ := hblock e he
    have hbyte := hin e he x hx
    rw [← heq, Nat.add_sub_cancel] at hbyte
    have hfirst := hx.1
    rw [← heq] at hfirst
    rcases hb with rfl | hb
    · have := (hlayout.good a ha hne).1
      have : headerSize = 16 := rfl
      omega
    · obtain ⟨hb, hbb⟩ := (h.isBlock hbase).mp hb
      have hgood := hlayout.good b hb hbb
      -- A header is part of its block, and in this block it is in front of the result.
      have hinb : s.InBlock b x := by
        refine ⟨hheader.1, ?_⟩
        have := hheader.2
        rw [headerSize] at this
        rw [Heap.blockEnd_eq]
        omega
      have hab := h.inBlock_unique ha hb hbyte hinb
      omega
  · rw [hlayout.covers]
    constructor
    · rintro ⟨a, ha, h₁, h₂⟩
      have hne : a ≠ base := by
        intro heq
        rw [heq, hlayout.sentinel] at h₂
        omega
      refine ⟨a, ⟨(h.isBlock hbase).mpr ⟨ha, hne⟩, h₁, h₂⟩, ?_⟩
      rintro b ⟨hb, hbx⟩
      exact h.inBlock_unique ((h.isBlock hbase).mp hb).1 ha hbx ⟨h₁, h₂⟩
    · rintro ⟨a, ⟨ha, hax⟩, _⟩
      exact ⟨a, ((h.isBlock hbase).mp ha).1, hax⟩

theorem Invariant.sound (h : Invariant base s) : Sound base s := by
  obtain ⟨hbase, hunused | ⟨F, B, hinv⟩⟩ := h
  · exact hunused.sound
  · exact hinv.sound hbase

theorem Invariant.answers (h : Invariant base s) {e : Event} (hregular : Regular base s e) :
    Answers base s e := by
  cases e with
  | malloc nbytes grants =>
    obtain ⟨result, s', n, hmalloc, hmallocs⟩ := h.mallocs hregular
    exact ⟨result, s', n, hmalloc, hmallocs.brk, hmallocs.null⟩
  | free ap =>
    intro hap
    obtain ⟨h', n, hfree, _⟩ := h.frees hap hregular
    exact ⟨h', n, hfree⟩
  | moveBreak n => trivial

/-- The program has not called `malloc` yet, and its break is above the sentinel. -/
structure Initial (base : ℕ) (s : State) : Prop where
  base_pos : 0 < base
  unused : Unused base s

theorem heap_partitioned {fuel : ℕ} {s₀ : State} {events : List Event} (h₀ : Initial base s₀)
    (hregular : ∀ es e s, es ++ [e] <+: events → run (step base fuel) s₀ es = some s →
      Regular base s e)
    (hrun : run (step base fuel) s₀ events = some s) :
    Sound base s ∧ ∀ e, Regular base s e → Answers base s e := by
  have hinv := invariant_run ⟨h₀.base_pos, .inl h₀.unused⟩ hregular hrun
  exact ⟨hinv.sound, fun e he => hinv.answers he⟩

/-! ## A heap below 64 GiB -/

/-- Where the break is below 2^36, joined units always make a `uint`. -/
theorem Invariant.joinable (h : Invariant base s) (hbrk : s.brk ≤ 2 ^ 36) {ap : ℕ}
    (hap : ap ∈ s.live.map Prod.fst) : Regular base s (.free ap) := by
  obtain ⟨hbase, hunused | ⟨F, B, hinv⟩⟩ := h
  · rw [hunused.live] at hap
    exact absurd hap List.not_mem_nil
  obtain ⟨e, he, rfl⟩ := List.mem_map.mp hap
  obtain ⟨bp, hbp, heq, _⟩ := hinv.live e he
  have hlayout := hinv.linked.blocks.layout
  have hbpb : bp ≠ base := fun hb => hbp.2 (hb ▸ hinv.linked.blocks.circular.first_mem)
  have hgood := hlayout.good bp hbp.1 hbpb
  have hF : ∀ a, s.OnList base a → a ∈ B := fun a ha =>
    hinv.linked.blocks.sub ((hinv.onList hbase).mp ha)
  have hend : ∀ a, s.OnList base a → a + s.heap.size a * 16 ≤ s.brk := by
    intro a ha
    by_cases hab : a = base
    · have := hlayout.above
      rw [hab, hlayout.sentinel]
      omega
    · exact (hlayout.good a (hF a ha) hab).2.2.2.2
  rw [Regular, heq, Nat.add_sub_cancel]
  refine ⟨fun q hq hadj => ?_, fun p hp hadj => ?_, fun p q hp hq hadj hadj' => ?_⟩
  · have := hend q hq
    rw [Heap.blockEnd_eq] at hadj
    omega
  · have := hlayout.base_le (hF p hp)
    rw [Heap.blockEnd_eq] at hadj
    omega
  · have := hend q hq
    have := hlayout.base_le (hF p hp)
    rw [Heap.blockEnd_eq] at hadj hadj'
    omega

/-! ## Runs -/

/-- A program of two pages with its sentinel in the second. -/
def twoPages : State := ⟨⟨fun _ => 0, fun _ => 0, 0⟩, 8192, [], []⟩

theorem twoPages_initial : Initial 4096 twoPages :=
  ⟨by decide, rfl, rfl, rfl, by decide⟩

/-- A block of 100 bytes is the last of what `morecore` asks for. -/
def returned : ℕ := 8192 + 65536 - 7 * 16

theorem twoPages_regular : Regular 4096 twoPages (.malloc 100 [true]) := fun _ _ =>
  ⟨by decide, by decide, fun _ hp => absurd rfl hp.1⟩

theorem heap_partitioned_freed : ∃ s, run (step 4096 8) twoPages
      [.malloc 100 [true], .free returned] = some s ∧
    Sound 4096 s ∧ ∀ e, Regular 4096 s e → Answers 4096 s e := by
  have hone : (run (step 4096 8) twoPages [.malloc 100 [true]]).any (fun s =>
      decide (s.brk ≤ 2 ^ 36 ∧ returned ∈ s.live.map Prod.fst)) = true := by decide +kernel
  obtain ⟨s₁, hs₁, hcond⟩ := (Option.any_eq_true _ _).mp hone
  obtain ⟨hbrk, hlive⟩ := of_decide_eq_true hcond
  have htwo : (run (step 4096 8) twoPages [.malloc 100 [true], .free returned]).isSome = true := by
    decide +kernel
  obtain ⟨s, hs⟩ := Option.isSome_iff_exists.mp htwo
  have h₀ : Invariant 4096 twoPages := ⟨by decide, .inl twoPages_initial.unused⟩
  have hinv : Invariant 4096 s₁ := by
    have hstep : step 4096 8 twoPages (.malloc 100 [true]) = some s₁ := by
      rw [run_cons] at hs₁
      simpa using hs₁
    exact step_invariant h₀ twoPages_regular hstep
  refine ⟨s, hs, heap_partitioned twoPages_initial (fun es e s' hp hrun => ?_) hs⟩
  obtain ⟨rest, hrest⟩ := hp
  cases es with
  | nil =>
    obtain rfl := Option.some.inj hrun
    obtain rfl := (List.cons.inj hrest).1
    exact twoPages_regular
  | cons e₁ es =>
    obtain ⟨rfl, htail⟩ := List.cons.inj hrest
    cases es with
    | nil =>
      obtain rfl := Option.some.inj (hs₁.symm.trans hrun)
      obtain rfl := (List.cons.inj htail).1
      exact hinv.joinable hbrk hlive
    | cons e₂ es =>
      have := congrArg List.length htail
      simp at this

/-- For almost 2^32 bytes `sbrk` is asked for 16: the block is a header only. -/
theorem malloc_short : Initial 4096 twoPages ∧
    ∃ s, run (step 4096 8) twoPages [.malloc 4294967295 [true]] = some s ∧
      s.live = [(8208, 4294967295)] ∧ s.obtained = [(8192, 16)] ∧ ¬ Sound 4096 s := by
  have hrun : (run (step 4096 8) twoPages [.malloc 4294967295 [true]]).any (fun s =>
      decide (s.live = [(8208, 4294967295)] ∧ s.obtained = [(8192, 16)])) = true := by
    decide +kernel
  obtain ⟨s, hs, hcond⟩ := (Option.any_eq_true _ _).mp hrun
  obtain ⟨hlive, hobtained⟩ := of_decide_eq_true hcond
  refine ⟨twoPages_initial, s, hs, hlive, hobtained, fun hsound => ?_⟩
  have he : (8208, 4294967295) ∈ s.live := by
    rw [hlive]
    exact List.mem_singleton_self _
  obtain ⟨r, hr, _, hlt⟩ := hsound.inside _ he 8208 ⟨le_rfl, by decide⟩
  rw [hobtained] at hr
  obtain rfl := List.mem_singleton.mp hr
  exact absurd hlt (by decide)

end Zigmaos.UserMalloc
