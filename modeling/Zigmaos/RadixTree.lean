import Mathlib.Data.List.Induction
import Mathlib.Logic.Function.Basic
import Mathlib.Tactic.Common

/-!
# Trees of nodes in a heap

A node is a place in a heap and has an entry for every index; `child` says which
node an entry points to. A path from the root is the list of the indices taken.
Where different paths lead to different nodes, an assignment to one node shows
at one path only, and a fresh node is at the end of one new path.
-/
namespace Zigmaos.RadixTree

variable {P ι ε : Type*}

/-- The node at the end of a path. -/
def follow (child : ε → Option P) (heap : P → ι → ε) : P → List ι → Option P
  | p, [] => some p
  | p, i :: is => (child (heap p i)).bind (fun q => follow child heap q is)

/-- Different paths, of `depth` indices at most, lead to different nodes. -/
def Separated (child : ε → Option P) (depth : ℕ) (heap : P → ι → ε) (root : P) : Prop :=
  ∀ is js p, is.length ≤ depth → js.length ≤ depth →
    follow child heap root is = some p → follow child heap root js = some p → is = js

/-- No path of at most `depth` indices leads to the node. -/
def Fresh (child : ε → Option P) (depth : ℕ) (heap : P → ι → ε) (root : P) (p : P) : Prop :=
  ∀ is, is.length ≤ depth → follow child heap root is ≠ some p

section Follow

variable {child : ε → Option P} {heap heap' : P → ι → ε} {root p : P}

@[simp] theorem follow_nil : follow child heap p [] = some p := rfl

theorem follow_append (p : P) (is js : List ι) : follow child heap p (is ++ js) =
    (follow child heap p is).bind (fun q => follow child heap q js) := by
  induction is generalizing p with
  | nil => rfl
  | cons i is ih =>
    simp only [List.cons_append, follow]
    cases child (heap p i) with
    | none => rfl
    | some q => exact ih q

theorem follow_concat (p : P) (is : List ι) (i : ι) : follow child heap p (is ++ [i]) =
    (follow child heap p is).bind (fun q => child (heap q i)) := by
  rw [follow_append]
  congr 1
  funext q
  simp only [follow]
  cases child (heap q i) <;> rfl

/-- A path is read only before its end. -/
theorem follow_congr {is : List ι}
    (h : ∀ js i q, js ++ [i] <+: is → follow child heap root js = some q →
      child (heap' q i) = child (heap q i)) :
    follow child heap' root is = follow child heap root is := by
  induction is using List.reverseRecOn with
  | nil => rfl
  | append_singleton is i ih =>
    have hpre := ih fun js j q hjs => h js j q (hjs.trans (List.prefix_append is [i]))
    rw [follow_concat, follow_concat, hpre]
    cases hq : follow child heap root is with
    | none => rfl
    | some q => exact h is i q (List.prefix_refl _) hq

end Follow

variable [DecidableEq P] [DecidableEq ι]

/-- Assign to one entry of one node. -/
def write (heap : P → ι → ε) (p : P) (i : ι) (e : ε) : P → ι → ε :=
  Function.update heap p (Function.update (heap p) i e)

variable {child : ε → Option P} {depth : ℕ} {heap : P → ι → ε} {root p q r : P} {is js : List ι}
  {i j : ι} {e : ε}

theorem write_apply : write heap p i e q j = if q = p ∧ j = i then e else heap q j := by
  by_cases hq : q = p
  · subst hq
    simp [write, Function.update_apply]
  · simp [write, hq]

theorem write_of_ne (h : q ≠ p) : write heap p i e q = heap q := by
  simp [write, h]

/-- Entries of the nodes at full depth are not followed. -/
theorem Separated.follow_write (h : Separated child depth heap root)
    (hp : follow child heap root is = some p) (hlen : is.length = depth) (hjs : js.length ≤ depth) :
    follow child (write heap p i e) root js = follow child heap root js := by
  refine follow_congr fun ks j q hks hq => ?_
  have hkslen := hks.length_le
  rw [List.length_append, List.length_singleton] at hkslen
  have hne : q ≠ p := by
    intro heq
    have := h ks is p (by omega) (by omega) (heq ▸ hq) hp
    rw [this] at hkslen
    omega
  rw [write_of_ne hne]

theorem Separated.write (h : Separated child depth heap root)
    (hp : follow child heap root is = some p) (hlen : is.length = depth) :
    Separated child depth (write heap p i e) root := by
  intro js ks q hjs hks hq hq'
  rw [h.follow_write hp hlen hjs] at hq
  rw [h.follow_write hp hlen hks] at hq'
  exact h js ks q hjs hks hq hq'

/-- A fresh node is put where the path ended. -/
structure Grows (child : ε → Option P) (depth : ℕ) (heap : P → ι → ε) (root p : P) (is : List ι)
    (i : ι) (q : P) (zero : ι → ε) (e : ε) : Prop where
  separated : Separated child depth heap root
  path : follow child heap root is = some p
  inside : is.length < depth
  missing : child (heap p i) = none
  fresh : Fresh child depth heap root q
  zero : ∀ j, child (zero j) = none
  child_eq : child e = some q

/-- The heap with the fresh node. -/
def grow (heap : P → ι → ε) (p : P) (i : ι) (q : P) (zero : ι → ε) (e : ε) : P → ι → ε :=
  RadixTree.write (Function.update heap q zero) p i e

namespace Grows
variable {zero : ι → ε}

omit [DecidableEq P] [DecidableEq ι] in
theorem ne (h : Grows child depth heap root p is i q zero e) : q ≠ p := by
  rintro rfl
  exact h.fresh is (by have := h.inside; omega) h.path

theorem grow_new (h : Grows child depth heap root p is i q zero e) :
    grow heap p i q zero e q = zero := by
  simp [grow, write_of_ne h.ne]

theorem grow_of_ne (hp : r ≠ p) (hq : r ≠ q) : grow heap p i q zero e r = heap r := by
  simp [grow, write_of_ne hp, hq]

theorem child_grow (h : Grows child depth heap root p is i q zero e) (hr : r ≠ q) :
    child (grow heap p i q zero e r j) = if r = p ∧ j = i then some q else child (heap r j) := by
  rw [grow, write_apply]
  by_cases hrj : r = p ∧ j = i
  · rw [if_pos hrj, if_pos hrj, h.child_eq]
  · rw [if_neg hrj, if_neg hrj, Function.update_of_ne hr]

/-- Only one path is new. -/
theorem follow_grow (h : Grows child depth heap root p is i q zero e) (hjs : js.length ≤ depth) :
    follow child (grow heap p i q zero e) root js =
      if js = is ++ [i] then some q else follow child heap root js := by
  induction js using List.reverseRecOn with
  | nil => simp
  | append_singleton ks j ih =>
    rw [List.length_append, List.length_singleton] at hjs
    rw [follow_concat, follow_concat, ih (by omega)]
    by_cases hks : ks = is ++ [i]
    · -- below the new node there is nothing yet
      have hne : ks ++ [j] ≠ is ++ [i] := by
        intro heq
        have hlen := congrArg List.length heq
        simp [hks] at hlen
      rw [if_pos hks, if_neg hne, hks, follow_concat, h.path]
      simp [h.grow_new, h.zero, h.missing]
    · rw [if_neg hks]
      have hlast : ks ++ [j] = is ++ [i] ↔ ks = is ∧ j = i := by simp
      cases hr : follow child heap root ks with
      | none =>
        have hne : ¬ (ks = is ∧ j = i) := by
          rintro ⟨rfl, -⟩
          rw [h.path] at hr
          cases hr
        simp [hlast, hne]
      | some r =>
        have hrq : r ≠ q := fun heq => h.fresh ks (by omega) (heq ▸ hr)
        have hrp : r = p ↔ ks = is := by
          constructor
          · rintro rfl
            exact h.separated ks is r (by omega) (by have := h.inside; omega) hr h.path
          · rintro rfl
            rw [h.path] at hr
            exact (Option.some.inj hr).symm
        simp only [Option.bind_some, h.child_grow hrq, hlast, hrp]

theorem separated_grow (h : Grows child depth heap root p is i q zero e) :
    Separated child depth (grow heap p i q zero e) root := by
  intro js ks r hjs hks hr hr'
  rw [h.follow_grow hjs] at hr
  rw [h.follow_grow hks] at hr'
  by_cases hj : js = is ++ [i]
  · by_cases hk : ks = is ++ [i]
    · rw [hj, hk]
    · rw [if_pos hj] at hr
      rw [if_neg hk] at hr'
      exact absurd (hr'.trans hr.symm) (h.fresh ks hks)
  · rw [if_neg hj] at hr
    by_cases hk : ks = is ++ [i]
    · rw [if_pos hk] at hr'
      exact absurd (hr.trans hr'.symm) (h.fresh js hjs)
    · rw [if_neg hk] at hr'
      exact h.separated js ks r hjs hks hr hr'

end Grows
end Zigmaos.RadixTree
