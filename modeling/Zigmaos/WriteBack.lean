import Mathlib.Logic.Function.Basic
import Mathlib.Tactic.Common
import Zigmaos.FinNumerals

/-!
# Write-back caches

Slots hold copies of blocks. A slot that is dirty may be ahead of the disk, every
other valid slot has what the disk has; and the contents of a block are what was
stored into it last. Here are the operations that keep it so.
-/
namespace Zigmaos.WriteBack

variable {I B β : Type*}

structure Coherent (valid : I → Prop) (block : I → B) (data : I → β) (disk contents : B → β)
    (dirty : I → Prop) : Prop where
  unique : ∀ i j, valid i → valid j → block i = block j → i = j
  cached : ∀ i, valid i → data i = contents (block i)
  home : ∀ b, disk b = contents b ∨ ∃ i, valid i ∧ block i = b ∧ dirty i

namespace Coherent
variable {valid valid' : I → Prop} {block block' : I → B} {data data' : I → β}
  {disk contents : B → β} {dirty dirty' : I → Prop}

theorem disk_eq (h : Coherent valid block data disk contents dirty) {i : I} (hi : valid i)
    (hd : ¬ dirty i) : disk (block i) = contents (block i) := by
  obtain heq | ⟨j, hj, hb, hdj⟩ := h.home (block i)
  · exact heq
  · exact absurd (h.unique j i hj hi hb ▸ hdj) hd

/-- More slots may be taken for dirty. -/
theorem mono (h : Coherent valid block data disk contents dirty)
    (hd : ∀ i, valid i → dirty i → dirty' i) :
    Coherent valid block data disk contents dirty' where
  unique := h.unique
  cached := h.cached
  home b := (h.home b).imp_right fun ⟨i, hi, hb, hdi⟩ => ⟨i, hi, hb, hd i hi hdi⟩

/-- Slots may be given up, but not the dirty ones. -/
theorem recycle (h : Coherent valid block data disk contents dirty)
    (hvalid : ∀ i, valid' i → valid i ∧ block' i = block i)
    (hkept : ∀ i, valid i → dirty i → valid' i) :
    Coherent valid' block' data disk contents dirty where
  unique i j hi hj hb := by
    obtain ⟨hvi, hbi⟩ := hvalid i hi
    obtain ⟨hvj, hbj⟩ := hvalid j hj
    exact h.unique i j hvi hvj (by rw [← hbi, ← hbj, hb])
  cached i hi := by
    obtain ⟨hv, hb⟩ := hvalid i hi
    rw [hb]
    exact h.cached i hv
  home b := by
    obtain heq | ⟨i, hi, rfl, hd⟩ := h.home b
    · exact .inl heq
    · have hk := hkept i hi hd
      exact .inr ⟨i, hk, (hvalid i hk).2, hd⟩

variable [DecidableEq I]

/-- Read the block of a slot from the disk. -/
theorem fill (h : Coherent valid block data disk contents dirty) {i : I}
    (hnone : ∀ j, valid j → block j ≠ block i) :
    Coherent (fun j => valid j ∨ j = i) block (Function.update data i (disk (block i))) disk contents
      dirty where
  unique j k hj hk hb := by
    obtain hj | rfl := hj
    · obtain hk | rfl := hk
      · exact h.unique j k hj hk hb
      · exact absurd hb (hnone j hj)
    · obtain hk | rfl := hk
      · exact absurd hb.symm (hnone k hk)
      · rfl
  cached j hj := by
    by_cases hji : j = i
    · subst hji
      rw [Function.update_self]
      obtain heq | ⟨k, hk, hb, -⟩ := h.home (block j)
      · exact heq
      · exact absurd hb (hnone k hk)
    · rw [Function.update_of_ne hji]
      exact h.cached j (hj.resolve_right hji)
  home b := (h.home b).imp_right fun ⟨j, hj, hb, hd⟩ => ⟨j, .inl hj, hb, hd⟩

variable [DecidableEq B]

/-- Store into a slot. -/
theorem store (h : Coherent valid block data disk contents dirty) {i : I} (hi : valid i) (d : β)
    (hd : ∀ j, valid j → dirty j → dirty' j) (hdi : dirty' i) :
    Coherent valid block (Function.update data i d) disk (Function.update contents (block i) d)
      dirty' where
  unique := h.unique
  cached j hj := by
    by_cases hji : j = i
    · subst hji
      simp
    · have hb : block j ≠ block i := fun hb => hji (h.unique j i hj hi hb)
      rw [Function.update_of_ne hji, Function.update_of_ne hb]
      exact h.cached j hj
  home b := by
    by_cases hb : b = block i
    · exact .inr ⟨i, hi, hb.symm, hdi⟩
    · rw [Function.update_of_ne hb]
      exact (h.home b).imp_right fun ⟨j, hj, hbj, hdj⟩ => ⟨j, hj, hbj, hd j hj hdj⟩

omit [DecidableEq I] in
/-- Write a slot to the disk. -/
theorem write (h : Coherent valid block data disk contents dirty) {i : I} (hi : valid i)
    (hd : ∀ j, valid j → j ≠ i → dirty j → dirty' j) :
    Coherent valid block data (Function.update disk (block i) (data i)) contents dirty' where
  unique := h.unique
  cached := h.cached
  home b := by
    by_cases hb : b = block i
    · subst hb
      rw [Function.update_self]
      exact .inl (h.cached i hi)
    · rw [Function.update_of_ne hb]
      refine (h.home b).imp_right fun ⟨j, hj, hbj, hdj⟩ => ⟨j, hj, hbj, hd j hj ?_ hdj⟩
      rintro rfl
      exact hb hbj.symm

end Coherent
end Zigmaos.WriteBack
