import Mathlib.Data.List.Basic
import Mathlib.Tactic.Common

/-!
# Stores written one cell at a time

A store maps cells to values. A program reaches it only through a list of cell
writes, each atomic and all in program order, so a machine that stops leaves a
prefix of the list applied. Nothing here depends on what cells or values are.
-/
namespace Zigmaos.AtomicWrites

/-- One write: a cell and the value it receives. -/
abbrev Write (ι β : Type*) := ι × β

section Apply
variable {ι β : Type*} [DecidableEq ι]

/-- The store after a list of writes, the first of the list first. -/
def apply (d : ι → β) (ws : List (Write ι β)) : ι → β :=
  ws.foldl (fun e w => Function.update e w.1 w.2) d

@[simp] theorem apply_nil (d : ι → β) : apply d [] = d := rfl

@[simp] theorem apply_cons (d : ι → β) (w : Write ι β) (ws : List (Write ι β)) :
    apply d (w :: ws) = apply (Function.update d w.1 w.2) ws := rfl

theorem apply_append (d : ι → β) (ws vs : List (Write ι β)) :
    apply d (ws ++ vs) = apply (apply d ws) vs := by
  simp [apply, List.foldl_append]

theorem apply_concat (d : ι → β) (ws : List (Write ι β)) (w : Write ι β) :
    apply d (ws ++ [w]) = Function.update (apply d ws) w.1 w.2 := by
  simp [apply_append]

/-- A cell that no write names keeps its value. -/
theorem apply_of_forall_ne (d : ι → β) (ws : List (Write ι β)) (i : ι)
    (h : ∀ w ∈ ws, w.1 ≠ i) : apply d ws i = d i := by
  induction ws generalizing d with
  | nil => rfl
  | cons w ws ih =>
    rw [apply_cons, ih _ (fun v hv => h v (List.mem_cons_of_mem _ hv))]
    exact Function.update_of_ne (Ne.symm (h w List.mem_cons_self)) _ _

/-- A property of the store that each single write keeps holds after every prefix. -/
theorem apply_take_induction {P : (ι → β) → Prop} (d : ι → β) (ws : List (Write ι β))
    (h0 : P d) (hstep : ∀ e, P e → ∀ w ∈ ws, P (Function.update e w.1 w.2)) (k : ℕ) :
    P (apply d (ws.take k)) := by
  induction ws generalizing d k with
  | nil => simpa using h0
  | cons w ws ih =>
    cases k with
    | zero => simpa using h0
    | succ k =>
      rw [List.take_succ_cons, apply_cons]
      exact ih _ (hstep d h0 w List.mem_cons_self)
        (fun e he v hv => hstep e he v (List.mem_cons_of_mem _ hv)) k

end Apply

section Indexed
variable {ι β : Type*}

/-- The writes `(cell i, value i)` for `i < n`, in order. -/
def indexed (cell : ℕ → ι) (value : ℕ → β) (n : ℕ) : List (Write ι β) :=
  (List.range n).map (fun i => (cell i, value i))

@[simp] theorem length_indexed (cell : ℕ → ι) (value : ℕ → β) (n : ℕ) :
    (indexed cell value n).length = n := by simp [indexed]

theorem indexed_succ (cell : ℕ → ι) (value : ℕ → β) (n : ℕ) :
    indexed cell value (n + 1) = indexed cell value n ++ [(cell n, value n)] := by
  simp [indexed, List.range_succ]

theorem mem_indexed {cell : ℕ → ι} {value : ℕ → β} {n : ℕ} {w : Write ι β} :
    w ∈ indexed cell value n ↔ ∃ i, i < n ∧ (cell i, value i) = w := by
  simp [indexed]

theorem apply_indexed_of_ne [DecidableEq ι] (d : ι → β) (cell : ℕ → ι) (value : ℕ → β) (n : ℕ) (c : ι)
    (h : ∀ i, i < n → cell i ≠ c) : apply d (indexed cell value n) c = d c := by
  apply apply_of_forall_ne
  intro w hw
  obtain ⟨i, hi, rfl⟩ := mem_indexed.mp hw
  exact h i hi

/-- With distinct cells every cell ends with the value of its own write. -/
theorem apply_indexed [DecidableEq ι] (d : ι → β) (cell : ℕ → ι) (value : ℕ → β) (n : ℕ)
    (hinj : ∀ i j, i < n → j < n → cell i = cell j → i = j) (i : ℕ) (hi : i < n) :
    apply d (indexed cell value n) (cell i) = value i := by
  induction n with
  | zero => omega
  | succ n ih =>
    rw [indexed_succ, apply_concat]
    by_cases hin : i = n
    · subst hin; simp
    · have hne : cell i ≠ cell n := fun h => hin (hinj i n hi (by omega) h)
      rw [Function.update_of_ne hne]
      exact ih (fun a b ha hb => hinj a b (by omega) (by omega)) (by omega)

end Indexed

end Zigmaos.AtomicWrites
