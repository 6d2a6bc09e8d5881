import Mathlib.Data.List.Basic
import Mathlib.Tactic.Common

/-!
# Circular doubly linked lists

The elements are the nodes `some x`, and `none` is the head that closes the
ring. Unlinking an element and linking it in after the head are the usual
assignments; on the list that a ring spells they are `erase` and `cons`.
-/
namespace Zigmaos.RingList

variable {α : Type*}

structure Links (α : Type*) where
  next : Option α → Option α
  previous : Option α → Option α

/-- The nodes from `a` to `c`, both excluded, spell the list. -/
def Segment (s : Links α) : Option α → List α → Option α → Prop
  | a, [], c => s.next a = c ∧ s.previous c = a
  | a, x :: l, c => s.next a = some x ∧ s.previous (some x) = a ∧ Segment s (some x) l c

/-- The ring through the head spells the list, without repetition. -/
structure IsRing (s : Links α) (l : List α) : Prop where
  segment : Segment s none l none
  nodup : l.Nodup

/-- The last node of a segment that starts after `a`. -/
def lastNode (a : Option α) (l : List α) : Option α := l.foldl (fun _ x => some x) a

@[simp] theorem lastNode_nil (a : Option α) : lastNode a [] = a := rfl

@[simp] theorem lastNode_cons (a : Option α) (x : α) (l : List α) :
    lastNode a (x :: l) = lastNode (some x) l := rfl

theorem lastNode_mem {a : Option α} {l : List α} :
    lastNode a l = a ∨ ∃ x ∈ l, lastNode a l = some x := by
  induction l generalizing a with
  | nil => exact .inl rfl
  | cons x l ih =>
    obtain h | ⟨y, hy, h⟩ := ih (a := some x)
    · exact .inr ⟨x, List.mem_cons_self, h⟩
    · exact .inr ⟨y, List.mem_cons_of_mem x hy, h⟩

theorem segment_append {s : Links α} {a c : Option α} {l₁ l₂ : List α} {x : α} :
    Segment s a (l₁ ++ x :: l₂) c ↔ Segment s a l₁ (some x) ∧ Segment s (some x) l₂ c := by
  induction l₁ generalizing a with
  | nil => simp [Segment, and_assoc]
  | cons y l₁ ih => simp [Segment, ih, and_assoc]

theorem Segment.previous_end {s : Links α} {a c : Option α} {l : List α} (h : Segment s a l c) :
    s.previous c = lastNode a l := by
  induction l generalizing a with
  | nil => exact h.2
  | cons x l ih => exact ih h.2.2

theorem Segment.next_start {s : Links α} {a c : Option α} {l : List α} (h : Segment s a l c) :
    s.next a = l.head?.or c := by
  cases l with
  | nil => simpa using h.1
  | cons x l => exact h.1

/-- A segment depends on what its own nodes link to. -/
theorem Segment.congr {s t : Links α} {a c : Option α} {l : List α} (h : Segment s a l c)
    (hstart : t.next a = s.next a) (hnext : ∀ x ∈ l, t.next (some x) = s.next (some x))
    (hprev : ∀ x ∈ l, t.previous (some x) = s.previous (some x))
    (hend : t.previous c = s.previous c) : Segment t a l c := by
  induction l generalizing a with
  | nil => exact ⟨hstart.trans h.1, hend.trans h.2⟩
  | cons x l ih =>
    refine ⟨hstart.trans h.1, (hprev x List.mem_cons_self).trans h.2.1, ih h.2.2 ?_ ?_ ?_⟩
    · exact hnext x List.mem_cons_self
    · exact fun y hy => hnext y (List.mem_cons_of_mem x hy)
    · exact fun y hy => hprev y (List.mem_cons_of_mem x hy)

/-- Follow the links from a node until the head or an element that matches. -/
def search (move : Option α → Option α) (p : α → Bool) : ℕ → Option α → Option α
  | 0, _ => none
  | _ + 1, none => none
  | fuel + 1, some x => if p x then some x else search move p fuel (move (some x))

theorem Segment.search_next {s : Links α} {a : Option α} {l : List α} (h : Segment s a l none)
    {p : α → Bool} {fuel : ℕ} (hfuel : l.length < fuel) :
    search s.next p fuel (s.next a) = l.find? p := by
  induction l generalizing a fuel with
  | nil =>
    obtain ⟨fuel, rfl⟩ := Nat.exists_eq_add_one_of_ne_zero (by omega : fuel ≠ 0)
    rw [h.1]
    rfl
  | cons x l ih =>
    obtain ⟨fuel, rfl⟩ := Nat.exists_eq_add_one_of_ne_zero (by omega : fuel ≠ 0)
    rw [h.1, search, List.find?_cons]
    rw [List.length_cons] at hfuel
    cases p x
    · exact ih h.2.2 (by omega)
    · rfl

/-- The search along the ring ends, with the first element that matches. -/
theorem IsRing.search_next {s : Links α} {l : List α} (h : IsRing s l) {p : α → Bool} {fuel : ℕ}
    (hfuel : l.length < fuel) : search s.next p fuel (s.next none) = l.find? p :=
  h.segment.search_next hfuel

/-- The ring read backwards. -/
def Links.flip (s : Links α) : Links α := ⟨s.previous, s.next⟩

theorem Segment.flip {s : Links α} {a c : Option α} {l : List α} (h : Segment s a l c) :
    Segment s.flip c l.reverse a := by
  induction l generalizing a with
  | nil => exact ⟨h.2, h.1⟩
  | cons x l ih =>
    rw [List.reverse_cons]
    exact segment_append.mpr ⟨ih h.2.2, h.2.1, h.1⟩

theorem IsRing.flip {s : Links α} {l : List α} (h : IsRing s l) : IsRing s.flip l.reverse :=
  ⟨h.segment.flip, List.pairwise_reverse.mpr (h.nodup.imp Ne.symm)⟩

theorem IsRing.search_previous {s : Links α} {l : List α} (h : IsRing s l) {p : α → Bool}
    {fuel : ℕ} (hfuel : l.length < fuel) :
    search s.previous p fuel (s.previous none) = l.reverse.find? p :=
  h.flip.search_next (by simpa using hfuel)

variable [DecidableEq α]

def Links.setNext (s : Links α) (a b : Option α) : Links α :=
  { s with next := Function.update s.next a b }

def Links.setPrevious (s : Links α) (a b : Option α) : Links α :=
  { s with previous := Function.update s.previous a b }

@[simp, grind =] theorem setNext_next (s : Links α) (a b c : Option α) :
    (s.setNext a b).next c = if c = a then b else s.next c := by
  simp [Links.setNext, Function.update_apply]

@[simp, grind =] theorem setNext_previous (s : Links α) (a b c : Option α) :
    (s.setNext a b).previous c = s.previous c := rfl

@[simp, grind =] theorem setPrevious_previous (s : Links α) (a b c : Option α) :
    (s.setPrevious a b).previous c = if c = a then b else s.previous c := by
  simp [Links.setPrevious, Function.update_apply]

@[simp, grind =] theorem setPrevious_next (s : Links α) (a b c : Option α) :
    (s.setPrevious a b).next c = s.next c := rfl

/-- A segment whose end is linked to another node instead. -/
theorem Segment.retarget {s : Links α} {a c : Option α} {l : List α} (h : Segment s a l c)
    (hnodup : l.Nodup) (ha : ∀ x ∈ l, a ≠ some x) (d : Option α) (hd : ∀ x ∈ l, d ≠ some x) :
    Segment ((s.setPrevious d (lastNode a l)).setNext (lastNode a l) d) a l d := by
  induction l generalizing a with
  | nil => simp [Segment]
  | cons x l ih =>
    obtain ⟨hx, hnodup⟩ := List.nodup_cons.mp hnodup
    have hlast : lastNode (some x) l ≠ a := by
      intro hc
      obtain h | ⟨y, hy, h⟩ := lastNode_mem (a := some x) (l := l)
      · exact ha x List.mem_cons_self (hc.symm.trans h)
      · exact ha y (List.mem_cons_of_mem x hy) (hc.symm.trans h)
    have hdx : d ≠ some x := hd x List.mem_cons_self
    refine ⟨?_, ?_, ih h.2.2 hnodup ?_ (fun y hy => hd y (List.mem_cons_of_mem x hy))⟩
    · simp [Ne.symm hlast, h.1]
    · simp [Ne.symm hdx, h.2.1]
    · rintro y hy hxy
      exact hx (Option.some.inj hxy ▸ hy)

/-- Take an element out of the ring. -/
def Links.unlink (s : Links α) (x : α) : Links α :=
  let s := s.setPrevious (s.next (some x)) (s.previous (some x))
  s.setNext (s.previous (some x)) (s.next (some x))

/-- Link an element in after the head. -/
def Links.pushFront (s : Links α) (x : α) : Links α :=
  let s := s.setNext (some x) (s.next none)
  let s := s.setPrevious (some x) none
  let s := s.setPrevious (s.next none) (some x)
  s.setNext none (some x)

theorem IsRing.unlink {s : Links α} {l : List α} (h : IsRing s l) {x : α} (hx : x ∈ l) :
    IsRing (s.unlink x) (l.erase x) := by
  obtain ⟨l₁, l₂, rfl⟩ := List.append_of_mem hx
  obtain ⟨hseg, hnodup⟩ := h
  refine ⟨?_, hnodup.erase x⟩
  have hx₁ : x ∉ l₁ := fun hm => by
    have := List.nodup_append.mp hnodup
    exact this.2.2 x hm x List.mem_cons_self rfl
  rw [List.erase_append_right _ hx₁, List.erase_cons_head]
  obtain ⟨h₁, h₂⟩ := segment_append.mp hseg
  obtain ⟨hnodup₁, hnodup₂, hdisj⟩ := List.nodup_append.mp hnodup
  obtain ⟨hx₂, hnodup₂⟩ := List.nodup_cons.mp hnodup₂
  have hprev := h₁.previous_end
  cases l₂ with
  | nil =>
    obtain ⟨hnext, -⟩ := h₂
    have hr := h₁.retarget hnodup₁ (by simp) none (by simp)
    simpa [Links.unlink, hnext, hprev] using hr
  | cons y l₂ =>
    obtain ⟨hnext, hy, h₃⟩ := h₂
    obtain ⟨hy₂, hnodup₃⟩ := List.nodup_cons.mp hnodup₂
    have hxy : x ≠ y := fun hxy => hx₂ (hxy ▸ List.mem_cons_self)
    have hy₁ : ∀ z ∈ l₁, z ≠ y := fun z hz => by
      have := hdisj z hz y (by simp)
      exact this
    have heq : s.unlink x = (s.setPrevious (some y) (lastNode none l₁)).setNext
        (lastNode none l₁) (some y) := by
      simp [Links.unlink, hnext, hprev, hxy]
    rw [heq, segment_append]
    refine ⟨h₁.retarget hnodup₁ (by simp) (some y) ?_, h₃.congr ?_ ?_ ?_ ?_⟩
    · rintro z hz hzy
      exact hy₁ z hz (Option.some.inj hzy).symm
    all_goals
      have hlast := lastNode_mem (a := none) (l := l₁)
      grind

theorem IsRing.pushFront {s : Links α} {l : List α} (h : IsRing s l) {x : α} (hx : x ∉ l) :
    IsRing (s.pushFront x) (x :: l) := by
  obtain ⟨hseg, hnodup⟩ := h
  refine ⟨?_, List.nodup_cons.mpr ⟨hx, hnodup⟩⟩
  have hnext := hseg.next_start
  cases l with
  | nil =>
    simp only [List.head?_nil, Option.none_or] at hnext
    simp [Segment, Links.pushFront, hnext]
  | cons y l =>
    obtain ⟨-, hy, h₂⟩ := hseg
    have hxy : x ≠ y := fun hxy => hx (hxy ▸ List.mem_cons_self)
    have hyl := (List.nodup_cons.mp hnodup).1
    have hxl : x ∉ l := fun hm => hx (List.mem_cons_of_mem y hm)
    refine ⟨by simp [Links.pushFront], ?_, ?_, ?_, h₂.congr ?_ ?_ ?_ ?_⟩
    all_goals
      simp only [Links.pushFront]
      grind

end Zigmaos.RingList
