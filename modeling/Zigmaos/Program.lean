import Mathlib.Tactic.Common
import Mathlib.Logic.Function.Basic
import Zigmaos.FinNumerals

/-!
# Programs over an interface of operations

A program is a tree: it ends with a value, or calls an operation and continues
with its response. A handler says what one operation does to a state: it
answers, it stops the machine for a reason, or it blocks and has to be tried
again. The same program can be run alone, from start to end, or operation by
operation among others. Nothing here depends on what the operations are.
-/
namespace Zigmaos

/-- Operations and the type of the response to each. -/
structure Interface where
  Op : Type
  Result : Op → Type

inductive Program (F : Interface) (α : Type) : Type
  | done (a : α)
  | call (o : F.Op) (k : F.Result o → Program F α)

inductive Outcome (σ ρ α : Type) : Type
  | done (a : α) (s : σ)
  | stop (reason : ρ) (s : σ)
  | block

namespace Program
variable {F : Interface} {α β : Type}

def bind : Program F α → (α → Program F β) → Program F β
  | .done a, f => f a
  | .call o k, f => .call o (fun r => (k r).bind f)

instance : Monad (Program F) where
  pure := .done
  bind := bind

/-- The program that calls one operation and returns its response. -/
def op (o : F.Op) : Program F (F.Result o) := .call o .done

/-- Run a program where a condition holds. -/
def when (c : Prop) [Decidable c] (p : Program F Unit) : Program F Unit :=
  if c then p else pure ()

@[simp] theorem pure_eq (a : α) : (pure a : Program F α) = .done a := rfl

@[simp] theorem done_bind (a : α) (f : α → Program F β) : (Program.done a >>= f) = f a := rfl

@[simp] theorem call_bind (o : F.Op) (k : F.Result o → Program F α) (f : α → Program F β) :
    (Program.call o k >>= f) = .call o (fun r => k r >>= f) := rfl

@[simp] theorem op_bind (o : F.Op) (f : F.Result o → Program F β) :
    (op o >>= f) = .call o f := rfl

theorem bind_assoc {γ : Type} (p : Program F α) (f : α → Program F β) (g : β → Program F γ) :
    (p >>= f) >>= g = p >>= fun a => f a >>= g := by
  induction p with
  | done a => rfl
  | call o k ih =>
    simp only [call_bind]
    congr 1
    funext r
    exact ih r

section Run
variable {σ ρ : Type}

/-- What an operation does to a state. -/
abbrev Handler (F : Interface) (σ ρ : Type) := (o : F.Op) → σ → Outcome σ ρ (F.Result o)

/-- Run a program alone. -/
def run (h : Handler F σ ρ) : Program F α → σ → Outcome σ ρ α
  | .done a, s => .done a s
  | .call o k, s =>
    match h o s with
    | .done r s' => (k r).run h s'
    | .stop reason s' => .stop reason s'
    | .block => .block

variable {h : Handler F σ ρ}

@[simp] theorem run_done (a : α) (s : σ) : (Program.done a : Program F α).run h s = .done a s := rfl

theorem run_call (o : F.Op) (k : F.Result o → Program F α) (s : σ) :
    (Program.call o k).run h s =
      match h o s with
      | .done r s' => (k r).run h s'
      | .stop reason s' => .stop reason s'
      | .block => .block := by
  rw [run]

theorem run_call_of_done {o : F.Op} {k : F.Result o → Program F α} {s s' : σ} {r : F.Result o}
    (hr : h o s = .done r s') : (Program.call o k).run h s = (k r).run h s' := by
  rw [run_call, hr]

theorem run_bind (p : Program F α) (f : α → Program F β) (s : σ) :
    (p >>= f).run h s =
      match p.run h s with
      | .done a s' => (f a).run h s'
      | .stop reason s' => .stop reason s'
      | .block => .block := by
  induction p generalizing s with
  | done a => rfl
  | call o k ih =>
    simp only [call_bind, run_call]
    cases h o s with
    | done r s' => exact ih r s'
    | stop reason s' => rfl
    | block => rfl

theorem run_bind_of_done {p : Program F α} {f : α → Program F β} {s s' : σ} {a : α}
    (hp : p.run h s = .done a s') : (p >>= f).run h s = (f a).run h s' := by
  rw [run_bind, hp]

theorem run_bind_eq_done {p : Program F α} {f : α → Program F β} {s t : σ} {b : β} :
    (p >>= f).run h s = .done b t ↔
      ∃ a r, p.run h s = .done a r ∧ (f a).run h r = .done b t := by
  rw [run_bind]
  cases p.run h s with
  | done a r => simp
  | stop reason r => simp
  | block => simp

theorem run_op (o : F.Op) (s : σ) : (op o).run h s = h o s := by
  rw [op, run_call]
  cases h o s <;> rfl

end Run

section Calls
variable {σ ρ : Type}

/-- Every operation that the run of a program calls satisfies `C` where it is called. -/
def Calls (h : Handler F σ ρ) (C : F.Op → σ → Prop) : Program F α → σ → Prop
  | .done _, _ => True
  | .call o k, s => C o s ∧ ∀ r s', h o s = .done r s' → (k r).Calls h C s'

/-- Whatever the responses, the value that a program ends with satisfies `Q`. -/
def Returns (Q : α → Prop) : Program F α → Prop
  | .done a => Q a
  | .call _ k => ∀ r, (k r).Returns Q

theorem Returns.bind {Q : β → Prop} {p : Program F α} {f : α → Program F β}
    (hf : ∀ a, (f a).Returns Q) : (p >>= f).Returns Q := by
  induction p with
  | done a => exact hf a
  | call o k ih => exact ih

theorem Returns.run {Q : α → Prop} {h : Handler F σ ρ} {p : Program F α} {s s' : σ} {a : α}
    (hp : p.Returns Q) (hr : p.run h s = .done a s') : Q a := by
  induction p generalizing s with
  | done b =>
    obtain ⟨rfl, -⟩ := Outcome.done.inj hr
    exact hp
  | call o k ih =>
    rw [run_call] at hr
    cases ho : h o s with
    | done r s₁ =>
      rw [ho] at hr
      exact ih r (hp r) hr
    | stop reason s₁ =>
      rw [ho] at hr
      exact absurd hr nofun
    | block =>
      rw [ho] at hr
      exact absurd hr nofun

end Calls

section Post
variable {σ ρ : Type}

/-- The run of `p` from `s` ends with `Q`, or stops with `E`, or blocks with `B`. -/
def Post (h : Handler F σ ρ) (p : Program F α) (s : σ) (Q : α → σ → Prop) (E : ρ → Prop)
    (B : Prop) : Prop :=
  match p.run h s with
  | .done a s' => Q a s'
  | .stop reason _ => E reason
  | .block => B

variable {h : Handler F σ ρ} {s : σ} {E : ρ → Prop} {B : Prop}

@[simp] theorem post_done (a : α) (Q : α → σ → Prop) :
    Post h (.done a : Program F α) s Q E B ↔ Q a s := Iff.rfl

theorem post_bind (p : Program F α) (f : α → Program F β) (Q : β → σ → Prop) :
    Post h (p >>= f) s Q E B ↔ Post h p s (fun a s' => Post h (f a) s' Q E B) E B := by
  simp only [Post, run_bind]
  cases p.run h s <;> rfl

theorem post_call (o : F.Op) (k : F.Result o → Program F α) (Q : α → σ → Prop) :
    Post h (.call o k) s Q E B ↔ Post h (op o) s (fun r s' => Post h (k r) s' Q E B) E B := by
  rw [← post_bind, op_bind]

theorem Post.mono {p : Program F α} {Q Q' : α → σ → Prop} (hp : Post h p s Q E B)
    (hq : ∀ a s', Q a s' → Q' a s') : Post h p s Q' E B := by
  unfold Post at *
  cases hr : p.run h s with
  | done a s' => rw [hr] at hp; exact hq a s' hp
  | stop reason s' => rw [hr] at hp; exact hp
  | block => rw [hr] at hp; exact hp

/-- Sequencing: what the first program ensures is what the second one needs. -/
theorem Post.bind {p : Program F α} {f : α → Program F β} {Q : α → σ → Prop}
    {Q' : β → σ → Prop} (hp : Post h p s Q E B)
    (hf : ∀ a s', Q a s' → Post h (f a) s' Q' E B) : Post h (p >>= f) s Q' E B :=
  (post_bind p f Q').mpr (hp.mono hf)

end Post

end Program

end Zigmaos
