import Mathlib.Data.Finset.Max
import Mathlib.Logic.Function.Iterate
import Mathlib.Order.WellFounded

/-!
# Circular ordered lists

A finite set of nodes whose links lead from every node to the next larger one,
and from the largest to the smallest. A walk along the links reaches every node,
nodes can be put in and taken out by changing one link, and a search that stops
at some node stops.
-/

namespace Zigmaos.CircularList
variable {α : Type*}

/-! ## Walks -/

/-- Follow the links until `stop`, for at most as many steps as there is fuel. -/
def walk (next : α → α) (stop : α → Bool) : ℕ → α → Option α
  | 0, _ => none
  | fuel + 1, x => if stop x then some x else walk next stop fuel (next x)

theorem walk_iterate {next : α → α} {stop : α → Bool} {i : ℕ} :
    ∀ {x : α}, (∀ k < i, stop (next^[k] x) = false) → stop (next^[i] x) = true →
      ∀ fuel, i < fuel → walk next stop fuel x = some (next^[i] x) := by
  induction i with
  | zero =>
    intro x _ hstop fuel hfuel
    cases fuel with
    | zero => exact absurd hfuel (lt_irrefl 0)
    | succ fuel => exact if_pos hstop
  | succ i ih =>
    intro x hpass hstop fuel hfuel
    cases fuel with
    | zero => exact absurd hfuel (Nat.not_lt_zero _)
    | succ fuel =>
      have hfirst : stop x = false := hpass 0 (Nat.succ_pos i)
      rw [walk, hfirst, if_neg Bool.false_ne_true]
      exact ih (fun k hk => hpass (k + 1) (Nat.succ_lt_succ hk)) hstop fuel
        (Nat.lt_of_succ_lt_succ hfuel)

theorem walk_mono {next : α → α} {stop : α → Bool} {n m : ℕ} {x r : α}
    (hn : walk next stop n x = some r) (hm : n ≤ m) : walk next stop m x = some r := by
  induction n generalizing x m with
  | zero => exact absurd hn nofun
  | succ n ih =>
    cases m with
    | zero => exact absurd hm (Nat.not_succ_le_zero n)
    | succ m =>
      rw [walk] at hn ⊢
      split at hn
      next hstop => rwa [if_pos hstop]
      next hgo =>
        rw [if_neg hgo]
        exact ih hn (Nat.le_of_succ_le_succ hm)

/-- A walk that meets a node to stop at stops at the first one. -/
theorem walk_stops {next : α → α} {stop : α → Bool} {x : α} {j : ℕ}
    (hj : stop (next^[j] x) = true) :
    ∃ i ≤ j, stop (next^[i] x) = true ∧ (∀ k < i, stop (next^[k] x) = false) ∧
      ∀ fuel, i < fuel → walk next stop fuel x = some (next^[i] x) := by
  have hex : ∃ i, stop (next^[i] x) = true := ⟨j, hj⟩
  have hpass : ∀ k < Nat.find hex, stop (next^[k] x) = false := fun k hk =>
    Bool.eq_false_iff.mpr (Nat.find_min hex hk)
  exact ⟨Nat.find hex, Nat.find_min' hex hj, Nat.find_spec hex, hpass,
    walk_iterate hpass (Nat.find_spec hex)⟩

/-! ## Circular lists -/

section Order
variable [LinearOrder α]

/-- The links of the nodes in `F`, of which `first` is the smallest. -/
structure Circular (F : Finset α) (first : α) (next : α → α) : Prop where
  first_mem : first ∈ F
  least : ∀ x ∈ F, first ≤ x
  next_mem : ∀ x ∈ F, next x ∈ F
  /-- Only the largest node does not lead up, but back to the first. -/
  up : ∀ x ∈ F, x < next x ∨ (next x = first ∧ ∀ z ∈ F, z ≤ x)
  /-- No node is left out. -/
  gap : ∀ x ∈ F, ∀ z ∈ F, x < z → next x ≤ z

variable {F : Finset α} {first : α} {next : α → α} {x y z b p : α}

theorem Circular.singleton (first : α) (next : α → α) (h : next first = first) :
    Circular {first} first next where
  first_mem := Finset.mem_singleton_self first
  least x hx := (Finset.mem_singleton.mp hx).ge
  next_mem x hx := by
    rw [Finset.mem_singleton] at hx ⊢
    rw [hx, h]
  up x hx := by
    obtain rfl := Finset.mem_singleton.mp hx
    exact .inr ⟨h, fun z hz => (Finset.mem_singleton.mp hz).le⟩
  gap x hx z hz hlt := by
    rw [Finset.mem_singleton] at hx hz
    exact absurd hlt (by rw [hx, hz]; exact lt_irrefl first)

theorem Circular.congr {next' : α → α} (h : Circular F first next)
    (heq : ∀ x ∈ F, next' x = next x) : Circular F first next' where
  first_mem := h.first_mem
  least := h.least
  next_mem x hx := by
    rw [heq x hx]
    exact h.next_mem x hx
  up x hx := by
    rw [heq x hx]
    exact h.up x hx
  gap x hx := by
    rw [heq x hx]
    exact h.gap x hx

theorem Circular.lt_next (h : Circular F first next) (hx : x ∈ F) (hne : next x ≠ first) :
    x < next x :=
  (h.up x hx).resolve_right (fun hlast => hne hlast.1)

/-! ## Reaching every node -/

/-- The node before a place in the list. -/
structure Before (F : Finset α) (b p : α) : Prop where
  mem : p ∈ F
  lt : p < b
  rest : ∀ z ∈ F, z ≤ p ∨ b ≤ z

theorem Circular.exists_before (h : Circular F first next) (hb : first < b) :
    ∃ p, Before F b p := by
  have hne : (F.filter (· < b)).Nonempty :=
    ⟨first, Finset.mem_filter.mpr ⟨h.first_mem, hb⟩⟩
  have hmem := Finset.mem_filter.mp (Finset.max'_mem _ hne)
  refine ⟨(F.filter (· < b)).max' hne, hmem.1, hmem.2, fun z hz => ?_⟩
  by_cases hzb : z < b
  · exact .inl (Finset.le_max' _ z (Finset.mem_filter.mpr ⟨hz, hzb⟩))
  · exact .inr (not_lt.mp hzb)

theorem Circular.next_before (h : Circular F first next) (hx : x ∈ F) (hp : Before F x p) :
    next p = x := by
  have hle := h.gap p hp.mem x hx hp.lt
  have hlt := (h.up p hp.mem).resolve_right (fun hlast => not_le.mpr hp.lt (hlast.2 x hx))
  exact le_antisymm hle
    ((hp.rest _ (h.next_mem p hp.mem)).resolve_left (not_le.mpr hlt))

theorem Circular.iterate_mem (h : Circular F first next) (hx : x ∈ F) (k : ℕ) :
    next^[k] x ∈ F := by
  induction k with
  | zero => exact hx
  | succ k ih =>
    rw [Function.iterate_succ_apply']
    exact h.next_mem _ ih

theorem Circular.from_first [WellFoundedLT α] (h : Circular F first next) (x : α) (hx : x ∈ F) :
    ∃ k, next^[k] first = x := by
  induction x using WellFoundedLT.induction with
  | ind x ih =>
    by_cases hfirst : x = first
    · exact ⟨0, hfirst.symm⟩
    · obtain ⟨p, hp⟩ := h.exists_before (lt_of_le_of_ne (h.least x hx) (Ne.symm hfirst))
      obtain ⟨k, hk⟩ := ih p hp.lt hp.mem
      exact ⟨k + 1, by rw [Function.iterate_succ_apply', hk, h.next_before hx hp]⟩

theorem Circular.mem_iff [WellFoundedLT α] (h : Circular F first next) :
    x ∈ F ↔ ∃ k, next^[k] first = x :=
  ⟨h.from_first x, fun ⟨k, hk⟩ => hk ▸ h.iterate_mem h.first_mem k⟩

/-- Every node leads back to the first. -/
theorem Circular.to_first [WellFoundedLT α] (h : Circular F first next) (hx : x ∈ F) :
    ∃ k, next^[k] x = first := by
  have hlast := F.max'_mem ⟨first, h.first_mem⟩
  have hnext : next (F.max' ⟨first, h.first_mem⟩) = first :=
    ((h.up _ hlast).resolve_left (not_lt.mpr (F.le_max' _ (h.next_mem _ hlast)))).1
  obtain ⟨k, hk⟩ := h.from_first _ hlast
  have hex : ∃ i, next^[i] first = x := h.from_first x hx
  have hround : next^[k + 1] first = first := by rw [Function.iterate_succ_apply', hk, hnext]
  -- The first visit of a node comes before the round is over.
  have hle : Nat.find hex ≤ k := by
    by_contra hgt
    refine Nat.find_min hex (show Nat.find hex - (k + 1) < Nat.find hex by omega) ?_
    have hspec := Nat.find_spec hex
    rw [show Nat.find hex = (Nat.find hex - (k + 1)) + (k + 1) by omega,
      Function.iterate_add_apply, hround] at hspec
    exact hspec
  refine ⟨k + 1 - Nat.find hex, ?_⟩
  have hspec := Nat.find_spec hex
  calc next^[k + 1 - Nat.find hex] x = next^[k + 1 - Nat.find hex] (next^[Nat.find hex] first) := by
        rw [hspec]
    _ = next^[k + 1] first := by
        rw [← Function.iterate_add_apply, Nat.sub_add_cancel (by omega)]
    _ = first := hround

theorem Circular.reach [WellFoundedLT α] (h : Circular F first next) (hx : x ∈ F) (hy : y ∈ F) :
    ∃ k, next^[k] x = y := by
  obtain ⟨i, hi⟩ := h.to_first hx
  obtain ⟨j, hj⟩ := h.from_first y hy
  exact ⟨j + i, by rw [Function.iterate_add_apply, hi, hj]⟩

/-- A search from any node stops if there is a node to stop at. -/
theorem Circular.walk_stops [WellFoundedLT α] (h : Circular F first next) {stop : α → Bool}
    (hx : x ∈ F) (hy : y ∈ F) (hstop : stop y = true) :
    ∃ r ∈ F, stop r = true ∧ ∃ n, ∀ fuel ≥ n, walk next stop fuel x = some r := by
  obtain ⟨j, rfl⟩ := h.reach hx hy
  obtain ⟨i, _, hi, _, hwalk⟩ := CircularList.walk_stops hstop
  exact ⟨next^[i] x, h.iterate_mem hx i, hi, i + 1, fun fuel hfuel => hwalk fuel hfuel⟩

/-- A search that ends after one round has looked at every node. -/
theorem Circular.round [WellFoundedLT α] (h : Circular F first next) (good : α → Bool) {i : ℕ}
    (hx : x ∈ F) (hi : next^[i + 1] x = x) (hpass : ∀ k ≤ i, good (next^[k + 1] x) = false) :
    ∀ y ∈ F, good y = false := by
  intro y hy
  obtain ⟨j, hj⟩ := h.reach (h.next_mem x hx) hy
  have hperiod : ∀ m k, next^[k + m * (i + 1)] (next x) = next^[k] (next x) := by
    intro m
    induction m with
    | zero => exact fun k => by rw [Nat.zero_mul, Nat.add_zero]
    | succ m ih =>
      intro k
      rw [Nat.succ_mul, ← Nat.add_assoc, Function.iterate_add_apply, ← Function.iterate_succ_apply,
        Function.iterate_succ_apply' next (i + 1), hi, ih]
  have hmod : next^[j % (i + 1) + 1] x = y := by
    rw [Function.iterate_succ_apply, ← hperiod (j / (i + 1)), Nat.mul_comm, Nat.mod_add_div, hj]
  rw [← hmod]
  exact hpass _ (Nat.le_of_lt_succ (Nat.mod_lt _ (Nat.succ_pos i)))

/-! ## Putting in and taking out -/

/-- A node is put in behind the node before its place. -/
theorem Circular.insert (h : Circular F first next) (hp : Before F b p) (hb : b ∉ F) :
    Circular (insert b F) first (Function.update (Function.update next b (next p)) p b) := by
  have hpb : p ≠ b := hp.lt.ne
  have hnp : Function.update (Function.update next b (next p)) p b p = b :=
    Function.update_self ..
  have hnb : Function.update (Function.update next b (next p)) p b b = next p := by
    rw [Function.update_of_ne hpb.symm, Function.update_self]
  have hn : ∀ x ∈ F, x ≠ p → Function.update (Function.update next b (next p)) p b x = next x := by
    intro x hx hxp
    have hxb : x ≠ b := fun heq => hb (heq ▸ hx)
    rw [Function.update_of_ne hxp, Function.update_of_ne hxb]
  have hrest : ∀ z ∈ F, z ≤ p ∨ b < z := fun z hz =>
    (hp.rest z hz).imp_right (fun hle => lt_of_le_of_ne hle (fun heq => hb (heq ▸ hz)))
  refine ⟨Finset.mem_insert_of_mem h.first_mem, ?_, ?_, ?_, ?_⟩
  · rw [Finset.forall_mem_insert]
    exact ⟨(h.least p hp.mem).trans hp.lt.le, h.least⟩
  · rw [Finset.forall_mem_insert, hnb]
    refine ⟨Finset.mem_insert_of_mem (h.next_mem p hp.mem), fun x hx => ?_⟩
    by_cases hxp : x = p
    · rw [hxp, hnp]
      exact Finset.mem_insert_self b F
    · rw [hn x hx hxp]
      exact Finset.mem_insert_of_mem (h.next_mem x hx)
  · rw [Finset.forall_mem_insert, hnb]
    refine ⟨?_, fun x hx => ?_⟩
    · refine (h.up p hp.mem).imp (fun hlt => ?_) (fun hlast => ⟨hlast.1, ?_⟩)
      · exact (hrest _ (h.next_mem p hp.mem)).resolve_left (not_le.mpr hlt)
      · rw [Finset.forall_mem_insert]
        exact ⟨le_rfl, fun z hz => (hlast.2 z hz).trans hp.lt.le⟩
    · by_cases hxp : x = p
      · rw [hxp, hnp]
        exact .inl hp.lt
      · rw [hn x hx hxp]
        refine (h.up x hx).imp_right (fun hlast => ⟨hlast.1, ?_⟩)
        rw [Finset.forall_mem_insert]
        have hpx : p < x := lt_of_le_of_ne (hlast.2 p hp.mem) (Ne.symm hxp)
        exact ⟨((hp.rest x hx).resolve_left (not_le.mpr hpx)), hlast.2⟩
  · rw [Finset.forall_mem_insert, hnb]
    refine ⟨?_, fun x hx => ?_⟩
    · rw [Finset.forall_mem_insert]
      exact ⟨fun hlt => absurd hlt (lt_irrefl b),
        fun z hz hlt => h.gap p hp.mem z hz (hp.lt.trans hlt)⟩
    · by_cases hxp : x = p
      · rw [hxp, hnp, Finset.forall_mem_insert]
        exact ⟨fun _ => le_rfl, fun z hz hlt =>
          ((hp.rest z hz).resolve_left (not_le.mpr hlt))⟩
      · rw [hn x hx hxp, Finset.forall_mem_insert]
        refine ⟨fun hlt => ?_, h.gap x hx⟩
        have hxlt : x < p := lt_of_le_of_ne
          ((hp.rest x hx).resolve_right (not_le.mpr hlt)) hxp
        exact (h.gap x hx p hp.mem hxlt).trans hp.lt.le

/-- The node behind `x` is taken out. -/
theorem Circular.erase (h : Circular F first next) (hx : x ∈ F) (hne : next x ≠ first) :
    Circular (F.erase (next x)) first (Function.update next x (next (next x))) := by
  have hlt : x < next x := h.lt_next hx hne
  have hself : Function.update next x (next (next x)) x = next (next x) := Function.update_self ..
  have hother : ∀ {z}, z ≠ x → Function.update next x (next (next x)) z = next z := fun hz =>
    Function.update_of_ne hz ..
  have hy := h.next_mem x hx
  -- No other node leads to the one taken out.
  have honly : ∀ z ∈ F, z ≠ x → next z ≠ next x := by
    intro z hz hzx heq
    have hzlt : z < next x := heq ▸ h.lt_next hz (heq ▸ hne)
    rcases lt_or_gt_of_ne hzx with hzx | hzx
    · exact absurd (h.gap z hz x hx hzx) (not_le.mpr (heq ▸ hlt))
    · exact absurd (h.gap x hx z hz hzx) (not_le.mpr hzlt)
  have hskip : next (next x) ≠ next x := by
    rcases h.up _ hy with hup | hlast
    · exact hup.ne'
    · rw [hlast.1]
      exact hne.symm
  refine ⟨Finset.mem_erase.mpr ⟨hne.symm, h.first_mem⟩,
    fun z hz => h.least z (Finset.mem_of_mem_erase hz), fun z hz => ?_, fun z hz => ?_,
    fun z hz w hw hzw => ?_⟩
  · by_cases hzx : z = x
    · rw [hzx, hself]
      exact Finset.mem_erase.mpr ⟨hskip, h.next_mem _ hy⟩
    · rw [hother hzx]
      have hz := Finset.mem_of_mem_erase hz
      exact Finset.mem_erase.mpr ⟨honly z hz hzx, h.next_mem z hz⟩
  · by_cases hzx : z = x
    · rw [hzx, hself]
      refine (h.up _ hy).imp (fun hup => hlt.trans hup) (fun hlast => ⟨hlast.1, fun w hw => ?_⟩)
      obtain ⟨hwne, hw⟩ := Finset.mem_erase.mp hw
      by_contra hgt
      exact hwne (le_antisymm (hlast.2 w hw) (h.gap x hx w hw (not_le.mp hgt)))
    · rw [hother hzx]
      exact (h.up z (Finset.mem_of_mem_erase hz)).imp_right
        (fun hlast => ⟨hlast.1, fun w hw => hlast.2 w (Finset.mem_of_mem_erase hw)⟩)
  · obtain ⟨hwne, hw⟩ := Finset.mem_erase.mp hw
    have hz := Finset.mem_of_mem_erase hz
    by_cases hzx : z = x
    · rw [hzx, hself]
      rw [hzx] at hzw
      exact h.gap _ hy w hw (lt_of_le_of_ne (h.gap x hx w hw hzw) (Ne.symm hwne))
    · rw [hother hzx]
      exact h.gap z hz w hw hzw

end Order

end Zigmaos.CircularList
