import Mathlib.Data.List.Basic
import Mathlib.Data.Int.ModEq
import Mathlib.Logic.Function.Basic
import Mathlib.Tactic.Common

/-!
# Rings between two wrapping counters

A ring of `n` slots and two counters modulo `m`, a multiple of `n`. What has been
written and not yet read is a list that starts at the slot of the first counter;
writing appends to the list, and reading takes its head.
-/
namespace Zigmaos.RingWindow

variable {α : Type*}

structure Window (n m : ℕ) (ring : ℕ → α) (first last : ℕ) (l : List α) : Prop where
  first_lt : first < m
  last_eq : last = (first + l.length) % m
  slot : ∀ k (h : k < l.length), ring ((first + k) % n) = l[k]

variable {n m : ℕ} {ring : ℕ → α} {first last : ℕ} {l : List α} {x : α}

theorem Window.nil (h : first < m) : Window n m ring first first [] :=
  ⟨h, by simp [Nat.mod_eq_of_lt h], fun k hk => absurd hk (Nat.not_lt_zero k)⟩

theorem Window.eq_iff (h : Window n m ring first last l) (hl : l.length < m) :
    first = last ↔ l = [] := by
  have hf := h.first_lt
  constructor
  · intro he
    rw [h.last_eq] at he
    by_contra hne
    have hpos : 0 < l.length := List.length_pos_iff.mpr hne
    by_cases hw : first + l.length < m
    · rw [Nat.mod_eq_of_lt hw] at he
      omega
    · have hmod : (first + l.length) % m = first + l.length - m := by
        rw [Nat.mod_eq_sub_mod (by omega), Nat.mod_eq_of_lt (by omega)]
      omega
  · intro he
    rw [h.last_eq, he]
    simp [Nat.mod_eq_of_lt hf]

/-- The slot that is written next holds nothing that has still to be read. -/
theorem Window.slot_ne (h : Window n m ring first last l) (hnm : n ∣ m) (hl : l.length < n) {k : ℕ}
    (hk : k < l.length) : (first + k) % n ≠ last % n := by
  rw [h.last_eq, Nat.mod_mod_of_dvd _ hnm]
  intro he
  have hd : n ∣ (first + l.length) - (first + k) :=
    (Nat.modEq_iff_dvd' (by omega)).mp he
  have := Nat.le_of_dvd (by omega) hd
  omega

theorem Window.push (h : Window n m ring first last l) (hnm : n ∣ m) (hl : l.length < n) (x : α) :
    Window n m (Function.update ring (last % n) x) first ((last + 1) % m) (l ++ [x]) where
  first_lt := h.first_lt
  last_eq := by
    rw [h.last_eq, Nat.mod_add_mod, List.length_append, List.length_singleton, ← Nat.add_assoc]
  slot k hk := by
    by_cases hkl : k < l.length
    · rw [Function.update_of_ne (h.slot_ne hnm hl hkl), List.getElem_append_left hkl]
      exact h.slot k hkl
    · have hke : k = l.length := by
        rw [List.length_append, List.length_singleton] at hk
        omega
      subst hke
      rw [h.last_eq, Nat.mod_mod_of_dvd _ hnm]
      simp

theorem Window.head (h : Window n m ring first last (x :: l)) : ring (first % n) = x :=
  h.slot 0 (Nat.zero_lt_succ _)

theorem Window.pop (h : Window n m ring first last (x :: l)) (hnm : n ∣ m) :
    Window n m ring ((first + 1) % m) last l where
  first_lt := Nat.mod_lt _ (Nat.zero_lt_of_lt h.first_lt)
  last_eq := by
    rw [h.last_eq, Nat.mod_add_mod, List.length_cons]
    congr 1
    omega
  slot k hk := by
    have hs := h.slot (k + 1) (by simpa using hk)
    rw [List.getElem_cons_succ] at hs
    rw [← hs]
    congr 1
    rw [Nat.add_mod, Nat.mod_mod_of_dvd _ hnm, ← Nat.add_mod]
    congr 1
    omega

/-- How many entries are still to be read, as the counters tell it. -/
theorem Window.count (h : Window n m ring first last l) (hl : l.length < m) :
    (last + m - first) % m = l.length := by
  have hf := h.first_lt
  rw [h.last_eq]
  by_cases hw : first + l.length < m
  · rw [Nat.mod_eq_of_lt hw, show first + l.length + m - first = l.length + m by omega,
      Nat.add_mod_right, Nat.mod_eq_of_lt hl]
  · have hmod : (first + l.length) % m = first + l.length - m := by
      rw [Nat.mod_eq_sub_mod (by omega), Nat.mod_eq_of_lt (by omega)]
    rw [hmod, show first + l.length - m + m - first = l.length by omega, Nat.mod_eq_of_lt hl]

end Zigmaos.RingWindow
