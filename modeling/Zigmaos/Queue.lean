import Mathlib
import Zigmaos.Transition

/-!
# The intrusive queue

`queue.zig`: a first in, first out list whose links are the `next` fields of its
elements. Where the source asserts, or reaches code it calls unreachable, or a
count leaves 64 bits, an operation has a fault instead of a result. The loop of
`remove` has fuel for every element that there is: if it is still running then,
the links go round in a circle.
-/
namespace Zigmaos.Queue
open Transition

/-- The fields of the queue, and those of the elements. -/
structure State (α : Type) where
  next : α → Option α
  «in» : Option α
  out : Option α
  count : ℕ

inductive Fault
  | assertion | unreachable | overflow | endless
  deriving DecidableEq, Repr

inductive Event (α : Type)
  | push (elem : α)
  | pop
  | remove (elem : α)
  | peek
  | empty
  | reset
  deriving DecidableEq, Repr

inductive Response (α : Type)
  | done
  | elem (elem : Option α)
  | isEmpty (b : Bool)
  deriving DecidableEq, Repr

namespace State
variable {α : Type}

def initial : State α := ⟨fun _ => none, none, none, 0⟩

def peek (s : State α) : Option α := s.out

def empty (s : State α) : Bool := s.peek.isNone

def reset (s : State α) : State α := { s with «in» := none, out := none, count := 0 }

variable [DecidableEq α]

def push (s : State α) (elem : α) : Except Fault (State α) :=
  match s.in with
  | some last =>
    if s.count + 1 < 2 ^ 64 then
      .ok { s with
        next := Function.update s.next last (some elem)
        «in» := some elem
        count := s.count + 1 }
    else .error .overflow
  | none =>
    if s.out ≠ none then .error .assertion
    else if s.count + 1 < 2 ^ 64 then
      .ok { s with «in» := some elem, out := some elem, count := s.count + 1 }
    else .error .overflow

def pop (s : State α) : Except Fault (Option α × State α) :=
  match s.out with
  | none => .ok (none, s)
  | some ret =>
    if s.count = 0 then .error .overflow
    else
      .ok (some ret, {
        next := Function.update s.next ret none
        «in» := if s.in = some ret then none else s.in
        out := s.next ret
        count := s.count - 1 })

/-- The loop of `remove`, from `it` on. -/
def removeLoop (s : State α) (toRemove : α) : (fuel : ℕ) → Option α → Except Fault (State α)
  | 0, _ => .error .endless
  | _ + 1, none => .error .unreachable
  | fuel + 1, some elem =>
    if s.next elem = some toRemove then
      if s.count = 0 then .error .overflow
      else
        .ok { s with
          next := Function.update (Function.update s.next elem (s.next toRemove)) toRemove none
          «in» := if s.in = some toRemove then some elem else s.in
          count := s.count - 1 }
    else s.removeLoop toRemove fuel (s.next elem)

def remove [Fintype α] (s : State α) (toRemove : α) : Except Fault (State α) :=
  if s.out = some toRemove then s.pop.map Prod.snd
  else s.removeLoop toRemove (Fintype.card α + 1) s.out

def apply [Fintype α] (s : State α) : Event α → Except Fault (Response α × State α)
  | .push elem => (s.push elem).map fun s' => (.done, s')
  | .pop => s.pop.map fun r => (.elem r.1, r.2)
  | .remove elem => (s.remove elem).map fun s' => (.done, s')
  | .peek => .ok (.elem s.peek, s)
  | .empty => .ok (.isEmpty s.empty, s)
  | .reset => .ok (.done, s.reset)

/-- A fault ends a run. -/
def step [Fintype α] (s : State α) (e : Event α) : Option (State α) :=
  (s.apply e).toOption.map Prod.snd

end State

/-! ### The list -/

section List
variable {α : Type} [DecidableEq α]

/-- What an event answers and makes of the list. -/
def applyList (l : List α) : Event α → Response α × List α
  | .push elem => (.done, l ++ [elem])
  | .pop => (.elem l.head?, l.tail)
  | .remove elem => (.done, l.erase elem)
  | .peek => (.elem l.head?, l)
  | .empty => (.isEmpty l.isEmpty, l)
  | .reset => (.done, [])

/-- The elements pushed and not yet popped, removed or dropped by `reset`. -/
def elements (es : List (Event α)) : List α := es.foldl (fun l e => (applyList l e).2) []

/-- What the caller of an operation has to see to. -/
def Legal (l : List α) : Event α → Prop
  | .push elem => elem ∉ l
  | .remove elem => elem ∈ l
  | _ => True

omit [DecidableEq α] in
/-- The elements from `o` on along the links are those of the list. -/
def Chain (next : α → Option α) : Option α → List α → Prop
  | o, [] => o = none
  | o, x :: xs => o = some x ∧ Chain next (next x) xs

/-- The queue stands for a list. -/
structure Represents (s : State α) (l : List α) : Prop where
  chain : Chain s.next s.out l
  last : s.in = l.getLast?
  count : s.count = l.length
  nodup : l.Nodup

omit [DecidableEq α] in
theorem Chain.congr {next next' : α → Option α} {o : Option α} {l : List α} (h : Chain next o l)
    (hn : ∀ x ∈ l, next' x = next x) : Chain next' o l := by
  induction l generalizing o with
  | nil => exact h
  | cons x xs ih =>
    obtain ⟨ho, hx⟩ := h
    refine ⟨ho, ?_⟩
    rw [hn x List.mem_cons_self]
    exact ih hx fun y hy => hn y (List.mem_cons_of_mem x hy)

omit [DecidableEq α] in
theorem Chain.head {next : α → Option α} {o : Option α} {l : List α} (h : Chain next o l) :
    o = l.head? := by
  cases l with
  | nil => exact h
  | cons x xs => exact h.1

omit [DecidableEq α] in
/-- Behind the last element there is nothing. -/
theorem Chain.next_getLast {next : α → Option α} {o : Option α} {l : List α} {x : α}
    (h : Chain next o (l ++ [x])) : next x = none := by
  induction l generalizing o with
  | nil => exact h.2
  | cons y ys ih => exact ih h.2

/-- A new element is linked to the last one. -/
theorem Chain.concat {next : α → Option α} {o : Option α} {l : List α} {x e : α}
    (h : Chain next o (l ++ [x])) (hnodup : (l ++ [x]).Nodup) (he : e ∉ l ++ [x])
    (hnext : next e = none) :
    Chain (Function.update next x (some e)) o ((l ++ [x]) ++ [e]) := by
  induction l generalizing o with
  | nil =>
    have hne : e ≠ x := by simpa using he
    exact ⟨h.1, by simp [Chain, hne, hnext]⟩
  | cons y ys ih =>
    have hyx : y ≠ x := by
      rintro rfl
      simp at hnodup
    refine ⟨h.1, ?_⟩
    rw [Function.update_of_ne hyx]
    refine ih h.2 hnodup.of_cons fun hin => he (List.mem_cons_of_mem y hin)

/-- The links around an element that is taken out. -/
theorem Chain.splice {next : α → Option α} {o : Option α} {pre post : List α} {p x : α}
    (h : Chain next o (pre ++ p :: x :: post)) (hnodup : (pre ++ p :: x :: post).Nodup) :
    Chain (Function.update (Function.update next p (next x)) x none) o (pre ++ p :: post) := by
  induction pre generalizing o with
  | nil =>
    simp only [List.nil_append, List.nodup_cons, List.mem_cons, not_or] at hnodup
    obtain ⟨⟨hpx, hp⟩, hx, -⟩ := hnodup
    refine ⟨h.1, ?_⟩
    rw [Function.update_of_ne hpx, Function.update_self]
    refine h.2.2.congr fun y hy => ?_
    have hyx : y ≠ x := fun h => hx (h ▸ hy)
    have hyp : y ≠ p := fun h => hp (h ▸ hy)
    rw [Function.update_of_ne hyx, Function.update_of_ne hyp]
  | cons y ys ih =>
    simp only [List.cons_append, List.nodup_cons, List.mem_append, List.mem_cons, not_or] at hnodup
    obtain ⟨⟨-, hyp, hyx, -⟩, hnodup⟩ := hnodup
    refine ⟨h.1, ?_⟩
    rw [Function.update_of_ne hyx, Function.update_of_ne hyp]
    exact ih h.2 hnodup

/-! ### The operations -/

variable {s : State α} {l : List α}

theorem Represents.push [Fintype α] (h : Represents s l) {elem : α} (helem : elem ∉ l)
    (hnext : s.next elem = none) (hα : Fintype.card α < 2 ^ 64) :
    ∃ s', s.push elem = .ok s' ∧ Represents s' (l ++ [elem]) := by
  have hnodup : (l ++ [elem]).Nodup := List.nodup_append.mpr
    ⟨h.nodup, List.nodup_singleton elem, fun x hx y hy hxy => helem (by
      rw [List.mem_singleton] at hy
      exact hy ▸ hxy ▸ hx)⟩
  have hcount : s.count + 1 < 2 ^ 64 := by
    have := hnodup.length_le_card
    rw [List.length_append, List.length_singleton] at this
    rw [h.count]
    omega
  have hlen : s.count + 1 = (l ++ [elem]).length := by
    rw [h.count, List.length_append, List.length_singleton]
  have hlast := h.last
  unfold State.push
  cases l using List.reverseRecOn with
  | nil =>
    have hout : s.out = none := h.chain
    rw [List.getLast?_nil] at hlast
    rw [hlast]
    refine ⟨_, by rw [if_neg (not_not.mpr hout), if_pos hcount], ?_⟩
    exact ⟨⟨rfl, hnext⟩, rfl, hlen, hnodup⟩
  | append_singleton l x =>
    rw [List.getLast?_concat] at hlast
    rw [hlast]
    refine ⟨_, if_pos hcount, ?_⟩
    exact ⟨h.chain.concat h.nodup helem hnext, by simp, hlen, hnodup⟩

/-- A stale link of the new element would become a part of the chain. -/
theorem Represents.next_of_push (h : Represents s l) {elem : α} {s' : State α} (helem : elem ∉ l)
    (hs' : s.push elem = .ok s') (h' : Represents s' (l ++ [elem])) : s.next elem = none := by
  have hnone := h'.chain.next_getLast
  have hlast := h.last
  unfold State.push at hs'
  split at hs'
  next x hx =>
    split at hs'
    · obtain rfl := Except.ok.inj hs'
      rw [hx] at hlast
      have hxl : x ∈ l := List.mem_of_getLast? hlast.symm
      have hne : elem ≠ x := fun he => helem (he ▸ hxl)
      change Function.update s.next x (some elem) elem = none at hnone
      rwa [Function.update_of_ne hne] at hnone
    · cases hs'
  next hx =>
    split at hs'
    · cases hs'
    split at hs'
    · obtain rfl := Except.ok.inj hs'
      exact hnone
    · cases hs'

theorem Represents.pop (h : Represents s l) :
    ∃ s', s.pop = .ok (l.head?, s') ∧ Represents s' l.tail := by
  unfold State.pop
  cases l with
  | nil =>
    have hout : s.out = none := h.chain
    rw [hout]
    exact ⟨s, rfl, h⟩
  | cons x xs =>
    obtain ⟨hout, hchain⟩ := h.chain
    obtain ⟨hx, hxs⟩ := List.nodup_cons.mp h.nodup
    have hcount := h.count
    rw [List.length_cons] at hcount
    rw [hout]
    refine ⟨_, if_neg (by omega), ?_, ?_, ?_, hxs⟩
    · refine hchain.congr fun y hy => Function.update_of_ne ?_ _ _
      rintro rfl
      exact hx hy
    · have hlast := h.last
      cases xs with
      | nil =>
        rw [hlast]
        simp
      | cons y ys =>
        rw [List.getLast?_cons_cons] at hlast
        have hin : s.in ≠ some x := by
          rw [hlast]
          intro hx'
          exact hx (List.mem_of_getLast? hx')
        simp only [if_neg hin]
        exact hlast
    · simp only [List.tail_cons]
      omega

/-- The loop of `remove` finds the element before the one to remove. -/
theorem removeLoop_spec {toRemove e : α} {rest : List α} (hcount : s.count ≠ 0)
    (hchain : Chain s.next (some e) (e :: rest)) (hin : toRemove ∈ rest) :
    ∀ fuel, rest.length < fuel → ∃ pre p post, e :: rest = pre ++ p :: toRemove :: post ∧
      s.removeLoop toRemove fuel (some e) = .ok { s with
        next := Function.update (Function.update s.next p (s.next toRemove)) toRemove none
        «in» := if s.in = some toRemove then some p else s.in
        count := s.count - 1 } := by
  induction rest generalizing e with
  | nil => cases hin
  | cons y ys ih =>
    intro fuel hfuel
    obtain ⟨fuel, rfl⟩ : ∃ n, fuel = n + 1 := ⟨fuel - 1, by omega⟩
    have hnext : s.next e = some y := hchain.2.1
    rw [State.removeLoop]
    by_cases hy : y = toRemove
    · subst hy
      rw [if_pos hnext, if_neg hcount]
      exact ⟨[], e, ys, rfl, rfl⟩
    · rw [hnext, if_neg fun he => hy (Option.some.inj he)]
      have hys : toRemove ∈ ys := (List.mem_cons.mp hin).resolve_left (Ne.symm hy)
      have hchain' := hchain.2
      rw [hnext] at hchain'
      obtain ⟨pre, p, post, heq, hr⟩ := ih hchain' hys fuel (by simpa using hfuel)
      exact ⟨e :: pre, p, post, by rw [heq, List.cons_append], hr⟩

theorem Represents.remove [Fintype α] (h : Represents s l) {toRemove : α} (hin : toRemove ∈ l) :
    ∃ s', s.remove toRemove = .ok s' ∧ Represents s' (l.erase toRemove) := by
  unfold State.remove
  cases l with
  | nil => cases hin
  | cons x xs =>
    obtain ⟨hout, -⟩ := h.chain
    by_cases hx : x = toRemove
    · subst hx
      obtain ⟨s', hpop, h'⟩ := h.pop
      rw [if_pos hout, hpop, List.erase_cons_head]
      exact ⟨s', rfl, h'⟩
    have hcount := h.count
    have hxs : toRemove ∈ xs := (List.mem_cons.mp hin).resolve_left (Ne.symm hx)
    have hcard := h.nodup.length_le_card
    rw [if_neg fun he => hx (Option.some.inj (hout.symm.trans he)), hout]
    have hchain := h.chain
    rw [hout] at hchain
    rw [List.length_cons] at hcount hcard
    obtain ⟨pre, p, post, heq, hr⟩ := removeLoop_spec (by omega) hchain hxs
      (Fintype.card α + 1) (by omega)
    have hnodup := h.nodup
    rw [heq] at hnodup
    have herase : (x :: xs).erase toRemove = pre ++ p :: post := by
      rw [heq]
      have hnot : toRemove ∉ pre ++ [p] := by
        rw [← List.singleton_append, ← List.append_assoc] at hnodup
        exact fun hmem => (List.nodup_append.mp hnodup).2.2 _ hmem _ List.mem_cons_self rfl
      have hsplit : pre ++ p :: toRemove :: post = (pre ++ [p]) ++ toRemove :: post := by simp
      rw [hsplit, List.erase_append_right _ hnot, List.erase_cons_head, List.append_assoc]
      rfl
    rw [herase]
    refine ⟨_, hr, ?_, ?_, ?_, ?_⟩
    · have hchain := h.chain
      rw [heq] at hchain
      exact hchain.splice hnodup
    · have hlast := h.last
      rw [heq] at hlast
      cases post with
      | nil =>
        have hsome : s.in = some toRemove := by simpa using hlast
        simp [hsome]
      | cons z zs =>
        have hz : s.in = (z :: zs).getLast? := by
          have hsplit : pre ++ p :: toRemove :: z :: zs = (pre ++ [p, toRemove]) ++ z :: zs := by
            simp
          rw [hlast, hsplit, List.getLast?_append_cons]
        have hne : s.in ≠ some toRemove := by
          rw [hz]
          intro he
          have hmem := List.mem_of_getLast? he
          rw [← List.singleton_append, ← List.append_assoc] at hnodup
          have := (List.nodup_append.mp hnodup).2.1
          exact (List.nodup_cons.mp this).1 hmem
        have hsplit : pre ++ p :: z :: zs = (pre ++ [p]) ++ z :: zs := by simp
        simp only [if_neg hne]
        rw [hz, hsplit, List.getLast?_append_cons]
    · have hlen := congrArg List.length heq
      simp only [List.length_cons, List.length_append] at hlen ⊢
      omega
    · refine hnodup.sublist ?_
      exact List.Sublist.append_left ((List.sublist_cons_self toRemove post).cons_cons p) pre

omit [DecidableEq α] in
theorem represents_reset (s : State α) : Represents s.reset ([] : List α) :=
  ⟨rfl, rfl, rfl, List.nodup_nil⟩

/-- One event, where a new element has no link. -/
theorem Represents.apply [Fintype α] (h : Represents s l) (hα : Fintype.card α < 2 ^ 64)
    {e : Event α} (hlegal : Legal l e) (hnext : ∀ elem, e = .push elem → s.next elem = none) :
    ∃ s', s.apply e = .ok ((applyList l e).1, s') ∧ Represents s' (applyList l e).2 := by
  cases e with
  | push elem =>
    obtain ⟨s', hs', h'⟩ := h.push hlegal (hnext elem rfl) hα
    exact ⟨s', by rw [State.apply, hs']; rfl, h'⟩
  | pop =>
    obtain ⟨s', hs', h'⟩ := h.pop
    exact ⟨s', by rw [State.apply, hs']; rfl, h'⟩
  | remove elem =>
    obtain ⟨s', hs', h'⟩ := h.remove hlegal
    exact ⟨s', by rw [State.apply, hs']; rfl, h'⟩
  | peek => exact ⟨s, by rw [State.apply, State.peek, h.chain.head]; rfl, h⟩
  | empty =>
    refine ⟨s, ?_, h⟩
    rw [State.apply, State.empty, State.peek, h.chain.head]
    cases l <;> rfl
  | reset => exact ⟨s.reset, rfl, represents_reset s⟩

/-- All along the events the queue stands for the list and answers as the list does. -/
def Refines [Fintype α] (es : List (Event α)) : Prop :=
  ∀ fs, fs <+: es → ∃ s, run State.step State.initial fs = some s ∧ Represents s (elements fs) ∧
    ∀ e, fs ++ [e] <+: es → ∃ s', s.apply e = .ok ((applyList (elements fs) e).1, s')

theorem elements_concat (es : List (Event α)) (e : Event α) :
    elements (es ++ [e]) = (applyList (elements es) e).2 := by
  simp [elements]

theorem State.step_of_apply [Fintype α] {s s' : State α} {e : Event α} {r : Response α}
    (h : s.apply e = .ok (r, s')) : s.step e = some s' := by
  rw [State.step, h]
  rfl

/-- The queue is its list exactly as long as no element is pushed whose link is
left from an earlier stay: `push` does not clear it. -/
theorem refines_list_iff [Fintype α] (hα : Fintype.card α < 2 ^ 64) {es : List (Event α)}
    (hlegal : ∀ fs e, fs ++ [e] <+: es → Legal (elements fs) e) :
    Refines es ↔ ∀ fs elem s, fs ++ [.push elem] <+: es →
      run State.step State.initial fs = some s → s.next elem = none := by
  constructor
  · intro h fs elem s hp hs
    obtain ⟨s₁, hs₁, hrep, hnext⟩ := h fs ((List.prefix_append _ _).trans hp)
    obtain rfl := Option.some.inj (hs.symm.trans hs₁)
    obtain ⟨s₂, hs₂⟩ := hnext _ hp
    obtain ⟨s₃, hs₃, hrep₃, -⟩ := h _ hp
    rw [run_concat, hs] at hs₃
    obtain rfl := Option.some.inj ((State.step_of_apply hs₂).symm.trans hs₃)
    rw [elements_concat] at hrep₃
    have hpush : s.push elem = .ok s₂ := by
      rw [State.apply] at hs₂
      cases hr : s.push elem with
      | error e => rw [hr] at hs₂; cases hs₂
      | ok t => rw [hr] at hs₂; cases hs₂; rfl
    exact hrep.next_of_push (hlegal fs _ hp) hpush hrep₃
  · intro h
    have hinv : ∀ fs, fs <+: es → ∃ s, run State.step State.initial fs = some s ∧
        Represents s (elements fs) := by
      intro fs
      induction fs using List.reverseRecOn with
      | nil => exact fun _ => ⟨State.initial, rfl, rfl, rfl, rfl, List.nodup_nil⟩
      | append_singleton fs e ih =>
        intro hp
        obtain ⟨s, hs, hrep⟩ := ih ((List.prefix_append _ _).trans hp)
        obtain ⟨s', hs', hrep'⟩ := hrep.apply hα (hlegal fs e hp) fun elem he =>
          h fs elem s (he ▸ hp) hs
        refine ⟨s', ?_, by rw [elements_concat]; exact hrep'⟩
        rw [run_concat, hs]
        exact State.step_of_apply hs'
    intro fs hp
    obtain ⟨s, hs, hrep⟩ := hinv fs hp
    refine ⟨s, hs, hrep, fun e he => ?_⟩
    obtain ⟨s', hs', -⟩ := hrep.apply hα (hlegal fs e he) fun elem heq => h fs elem s (heq ▸ he) hs
    exact ⟨s', hs'⟩

omit [DecidableEq α] in
theorem forall_prefix_nil {β : Type} {P : List β → β → Prop} :
    ∀ fs e, fs ++ [e] <+: [] → P fs e := by
  intro fs e h
  simp at h

omit [DecidableEq α] in
/-- The events of a run, one by one. -/
theorem forall_prefix_cons {β : Type} {P : List β → β → Prop} {x : β} {xs : List β}
    (hx : P [] x) (hxs : ∀ fs e, fs ++ [e] <+: xs → P (x :: fs) e) :
    ∀ fs e, fs ++ [e] <+: x :: xs → P fs e := by
  intro fs e h
  cases fs with
  | nil =>
    rw [List.nil_append, List.cons_prefix_cons] at h
    exact h.1 ▸ hx
  | cons y ys =>
    rw [List.cons_append, List.cons_prefix_cons] at h
    exact h.1 ▸ hxs ys e h.2

instance (l : List α) (e : Event α) : Decidable (Legal l e) := by
  cases e <;> unfold Legal <;> infer_instance

/-- An element is removed from the middle, and comes again. -/
def threeElements : List (Event (Fin 3)) :=
  [.push 0, .push 1, .push 2, .remove 1, .pop, .push 1, .reset, .push 0]

theorem refines_list_three : Refines threeElements := by
  refine (refines_list_iff (by decide) ?_).mpr fun fs elem s hp hs => ?_
  · iterate 8 refine forall_prefix_cons (by decide) ?_
    exact forall_prefix_nil
  · have hall : ∀ fs e, fs ++ [e] <+: threeElements → ∀ elem s, e = .push elem →
        run State.step State.initial fs = some s → s.next elem = none := by
      iterate 8
        refine forall_prefix_cons (fun elem s he hs => ?_) ?_
        · cases he <;> cases hs <;> rfl
      exact forall_prefix_nil
    exact hall fs _ hp elem s rfl hs

/-- Used again after a reset, an element brings the one behind it along. -/
def usedAgain : List (Event (Fin 2)) := [.push 0, .push 1, .reset, .push 0]

theorem reset_keeps_links :
    (∀ fs e, fs ++ [e] <+: usedAgain → Legal (elements fs) e) ∧ ¬Refines usedAgain := by
  constructor
  · iterate 4 refine forall_prefix_cons (by decide) ?_
    exact forall_prefix_nil
  · intro h
    obtain ⟨s, hs, hrep, -⟩ := h _ List.prefix_rfl
    obtain rfl := Option.some.inj hs
    exact Option.some_ne_none _ hrep.chain.2

end List

end Zigmaos.Queue
