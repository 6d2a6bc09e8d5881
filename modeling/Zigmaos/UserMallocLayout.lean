import Mathlib.Data.Finset.Basic
import Mathlib.Tactic.Common
import Zigmaos.UserMalloc

/-!
# Blocks and the memory they fill

How the blocks of the heap, free or not, lie in the memory that `sbrk` has
given, and what joining, splitting and adding a block does to it.
-/
namespace Zigmaos.UserMalloc

/-- Some call of `sbrk` has given the byte. -/
def Given (obtained : List (ℕ × ℕ)) (x : ℕ) : Prop := ∃ r ∈ obtained, r.1 ≤ x ∧ x < r.1 + r.2

/-- The blocks in `B` and the sentinel, of which `size` tells the units. -/
structure Layout (base : ℕ) (B : Finset ℕ) (size : ℕ → ℕ) (brk : ℕ) (obtained : List (ℕ × ℕ)) :
    Prop where
  mem : base ∈ B
  sentinel : size base = 0
  above : base + 16 ≤ brk
  good : ∀ a ∈ B, a ≠ base →
    base + 16 ≤ a ∧ 0 < size a ∧ size a < 2 ^ 32 ∧ a % 16 = 0 ∧ a + size a * 16 ≤ brk
  apart : ∀ a ∈ B, ∀ b ∈ B, a < b → a + size a * 16 ≤ b
  covers : ∀ x, Given obtained x ↔ ∃ a ∈ B, a ≤ x ∧ x < a + size a * 16

variable {base brk x y n : ℕ} {B : Finset ℕ} {size : ℕ → ℕ} {obtained : List (ℕ × ℕ)}

theorem given_cons {r : ℕ × ℕ} :
    Given (r :: obtained) x ↔ (r.1 ≤ x ∧ x < r.1 + r.2) ∨ Given obtained x := by
  simp [Given]

theorem Layout.start (h : base + 16 ≤ brk) (hzero : size base = 0) :
    Layout base {base} size brk [] where
  mem := Finset.mem_singleton_self base
  sentinel := hzero
  above := h
  good a ha hne := absurd (Finset.mem_singleton.mp ha) hne
  apart a ha b hb hlt := by
    rw [Finset.mem_singleton] at ha hb
    omega
  covers x := by
    constructor
    · intro ⟨_, hr, _⟩
      exact absurd hr List.not_mem_nil
    · intro ⟨a, ha, h₁, h₂⟩
      rw [Finset.mem_singleton.mp ha] at h₁ h₂
      omega

theorem Layout.congr (h : Layout base B size brk obtained) {size' : ℕ → ℕ}
    (heq : ∀ a ∈ B, size' a = size a) : Layout base B size' brk obtained where
  mem := h.mem
  sentinel := (heq base h.mem).trans h.sentinel
  above := h.above
  good a ha := by
    rw [heq a ha]
    exact h.good a ha
  apart a ha := by
    rw [heq a ha]
    exact h.apart a ha
  covers x := by
    rw [h.covers]
    refine exists_congr fun a => and_congr_right fun ha => ?_
    rw [heq a ha]

theorem Layout.moveBreak (h : Layout base B size brk obtained) (n : ℕ) :
    Layout base B size (brk + n) obtained where
  mem := h.mem
  sentinel := h.sentinel
  above := h.above.trans (Nat.le_add_right brk n)
  good a ha hne := by
    have := h.good a ha hne
    omega
  apart := h.apart
  covers := h.covers

theorem Layout.base_le (h : Layout base B size brk obtained) (hx : x ∈ B) : base ≤ x := by
  by_cases hb : x = base
  · exact hb.ge
  · have := (h.good x hx hb).1
    omega

theorem Layout.lt_brk (h : Layout base B size brk obtained) (hx : x ∈ B) : x < brk := by
  have habove := h.above
  by_cases hb : x = base
  · omega
  · have := h.good x hx hb
    omega

/-- A block takes in the one behind it. -/
theorem Layout.join (h : Layout base B size brk obtained) (hx : x ∈ B) (hy : y ∈ B)
    (hxb : x ≠ base) (hyb : y ≠ base) (hadj : x + size x * 16 = y)
    (hfit : size x + size y < 2 ^ 32) :
    Layout base (B.erase y) (Function.update size x (size x + size y)) brk obtained := by
  have hgx := h.good x hx hxb
  have hgy := h.good y hy hyb
  have hxy : x ≠ y := by omega
  have hself : Function.update size x (size x + size y) x = size x + size y :=
    Function.update_self ..
  have hother : ∀ {a}, a ≠ x → Function.update size x (size x + size y) a = size a := fun ha =>
    Function.update_of_ne ha ..
  refine ⟨Finset.mem_erase.mpr ⟨hyb.symm, h.mem⟩, ?_, h.above, fun a ha hne => ?_,
    fun a ha b hb hlt => ?_, fun z => ?_⟩
  · rw [hother hxb.symm]
    exact h.sentinel
  · by_cases hax : a = x
    · rw [hax, hself]
      omega
    · rw [hother hax]
      exact h.good a (Finset.mem_of_mem_erase ha) hne
  · obtain ⟨hay, ha⟩ := Finset.mem_erase.mp ha
    obtain ⟨hby, hb⟩ := Finset.mem_erase.mp hb
    by_cases hax : a = x
    · rw [hax, hself]
      rw [hax] at hlt
      have h₁ := h.apart x hx b hb hlt
      have h₂ := h.apart y hy b hb (by omega)
      omega
    · rw [hother hax]
      exact h.apart a ha b hb hlt
  · rw [h.covers]
    constructor
    · intro ⟨a, ha, h₁, h₂⟩
      by_cases hay : a = y
      · refine ⟨x, Finset.mem_erase.mpr ⟨hxy, hx⟩, by omega, ?_⟩
        rw [hself]
        rw [hay] at h₁ h₂
        omega
      · refine ⟨a, Finset.mem_erase.mpr ⟨hay, ha⟩, h₁, ?_⟩
        by_cases hax : a = x
        · rw [hax, hself]
          rw [hax] at h₂
          omega
        · rwa [hother hax]
    · intro ⟨a, ha, h₁, h₂⟩
      have ha := Finset.mem_of_mem_erase ha
      by_cases hax : a = x
      · rw [hax, hself] at h₂
        rw [hax] at h₁
        by_cases hz : z < y
        · exact ⟨x, hx, h₁, by omega⟩
        · exact ⟨y, hy, by omega, by omega⟩
      · rw [hother hax] at h₂
        exact ⟨a, ha, h₁, h₂⟩

/-- The last `n` units of a block become one of their own. -/
theorem Layout.split (h : Layout base B size brk obtained) (hx : x ∈ B) (hxb : x ≠ base)
    (hn : 0 < n) (hlt : n < size x) (hy : y = x + (size x - n) * 16) :
    y ∉ B ∧ Layout base (insert y B)
      (Function.update (Function.update size x (size x - n)) y n) brk obtained := by
  have hgx := h.good x hx hxb
  have hyB : y ∉ B := by
    intro hmem
    have := h.apart x hx y hmem (by omega)
    omega
  have hyx : x ≠ y := by omega
  have hself : Function.update (Function.update size x (size x - n)) y n y = n :=
    Function.update_self ..
  have hfirst : Function.update (Function.update size x (size x - n)) y n x = size x - n := by
    rw [Function.update_of_ne hyx, Function.update_self]
  have hother : ∀ a ∈ B, a ≠ x →
      Function.update (Function.update size x (size x - n)) y n a = size a := by
    intro a ha hax
    have hay : a ≠ y := fun heq => hyB (heq ▸ ha)
    rw [Function.update_of_ne hay, Function.update_of_ne hax]
  refine ⟨hyB, Finset.mem_insert_of_mem h.mem, ?_, h.above, ?_, ?_, fun z => ?_⟩
  · rw [hother base h.mem hxb.symm]
    exact h.sentinel
  · rw [Finset.forall_mem_insert, hself]
    refine ⟨fun _ => by omega, fun a ha hne => ?_⟩
    by_cases hax : a = x
    · rw [hax, hfirst]
      omega
    · rw [hother a ha hax]
      exact h.good a ha hne
  · rw [Finset.forall_mem_insert, hself, Finset.forall_mem_insert]
    refine ⟨⟨fun hyy => absurd hyy (lt_irrefl y), fun b hb hyb => ?_⟩, fun a ha => ?_⟩
    · have := h.apart x hx b hb (by omega)
      omega
    · rw [Finset.forall_mem_insert]
      by_cases hax : a = x
      · rw [hax, hfirst]
        refine ⟨fun _ => by omega, fun b hb hxlt => ?_⟩
        have := h.apart x hx b hb hxlt
        omega
      · rw [hother a ha hax]
        refine ⟨fun hay => ?_, h.apart a ha⟩
        -- The other blocks below the new one are below the whole block.
        rcases lt_or_gt_of_ne hax with hlt' | hgt
        · have := h.apart a ha x hx hlt'
          omega
        · have := h.apart x hx a ha hgt
          omega
  · rw [h.covers, Finset.exists_mem_insert, hself]
    constructor
    · intro ⟨a, ha, h₁, h₂⟩
      by_cases hax : a = x
      · rw [hax] at h₁ h₂
        by_cases hz : z < y
        · exact .inr ⟨x, hx, h₁, by rw [hfirst]; omega⟩
        · exact .inl (by omega)
      · exact .inr ⟨a, ha, h₁, by rwa [hother a ha hax]⟩
    · rintro (hz | ⟨a, ha, h₁, h₂⟩)
      · exact ⟨x, hx, by omega, by omega⟩
      · by_cases hax : a = x
        · rw [hax, hfirst] at h₂
          rw [hax] at h₁
          exact ⟨x, hx, h₁, by omega⟩
        · rw [hother a ha hax] at h₂
          exact ⟨a, ha, h₁, h₂⟩

/-- The memory that a call of `sbrk` gives becomes a block. -/
theorem Layout.extend (h : Layout base B size brk obtained) (hbrk : brk % 16 = 0) (hn : 0 < n)
    (hfit : n < 2 ^ 32) : brk ∉ B ∧
      Layout base (insert brk B) (Function.update size brk n) (brk + n * 16)
        ((brk, n * 16) :: obtained) := by
  have habove := h.above
  have hnew : brk ∉ B := fun hmem => lt_irrefl brk (h.lt_brk hmem)
  have hself : Function.update size brk n brk = n := Function.update_self ..
  have hother : ∀ a ∈ B, Function.update size brk n a = size a := fun a ha =>
    Function.update_of_ne (h.lt_brk ha).ne ..
  have hend : ∀ a ∈ B, a + size a * 16 ≤ brk := by
    intro a ha
    by_cases hne : a = base
    · rw [hne, h.sentinel]
      omega
    · have := h.good a ha hne
      omega
  refine ⟨hnew, Finset.mem_insert_of_mem h.mem, ?_, by omega, ?_, ?_, fun z => ?_⟩
  · rw [hother base h.mem]
    exact h.sentinel
  · rw [Finset.forall_mem_insert, hself]
    refine ⟨fun _ => by omega, fun a ha hne => ?_⟩
    rw [hother a ha]
    have := h.good a ha hne
    omega
  · rw [Finset.forall_mem_insert, hself, Finset.forall_mem_insert]
    refine ⟨⟨fun hlt => absurd hlt (lt_irrefl brk), fun b hb hlt => ?_⟩, fun a ha => ?_⟩
    · exact absurd hlt (h.lt_brk hb).not_gt
    · rw [Finset.forall_mem_insert, hother a ha]
      exact ⟨fun _ => hend a ha, h.apart a ha⟩
  · rw [given_cons, h.covers, Finset.exists_mem_insert, hself]
    refine or_congr_right (exists_congr fun a => and_congr_right fun ha => ?_)
    rw [hother a ha]

end Zigmaos.UserMalloc
