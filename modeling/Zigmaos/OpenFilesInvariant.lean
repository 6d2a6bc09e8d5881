import Zigmaos.OpenFiles
import Mathlib.Algebra.Order.BigOperators.Group.Finset
import Mathlib.Data.Fintype.BigOperators
import Mathlib.Tactic.Abel

/-!
# References to open files

Every process that is in a call may have references beyond those of its
descriptors, or fewer; and an end of a pipe belongs to a file, or to the process
that has just taken it from one. The counts are the sums over all processes, and
an end is open as long as somebody has it.
-/
namespace Zigmaos.OpenFiles
open Program
open FileSystem (FileIndex FileDescriptor nFile noFile)

/-! ## What a process knows and owns -/

/-- The typestate of a process in a call. -/
structure Local (π : Type) where
  /-- It is known to be there. -/
  active : Bool
  /-- What is known of its descriptors. -/
  slots : FileDescriptor → Option (Option FileIndex)
  /-- The references it has to a file beyond those of its descriptors. -/
  extra : FileIndex → ℤ
  /-- A file that it has just allocated. -/
  fresh : FileIndex → Bool
  /-- A file that is known to be of a pipe. -/
  inUse : Option (FileIndex × ℕ)
  /-- The ends of pipes that no file holds any more, or not yet. -/
  ends : ℕ → Bool → ℕ
  /-- The pages it has to free. -/
  freeing : ℕ → ℕ
  child : Option π
  /-- The descriptors of the child that are not set yet. -/
  childFree : FileDescriptor → Bool

namespace Local
variable {π : Type}

def knows (L : Local π) (f : FileIndex) : ℕ :=
  ∑ fd, if L.slots fd = some (some f) then 1 else 0

/-- The process has a reference to the file. -/
def Has (L : Local π) (f : FileIndex) : Prop := 1 ≤ L.extra f + L.knows f

def addRef (L : Local π) (f : FileIndex) (n : ℤ) : Local π :=
  { L with extra := Function.update L.extra f (L.extra f + n) }

def setFresh (L : Local π) (f : FileIndex) (b : Bool) : Local π :=
  { L with fresh := Function.update L.fresh f b, inUse := none }

def know (L : Local π) (fd : FileDescriptor) (r : Option FileIndex) : Local π :=
  { L with slots := Function.update L.slots fd (some r) }

/-- Take over the end that a file held. -/
def addEnd (L : Local π) (data : FileData) (w : Bool) : Local π :=
  { L with ends := fun x v => L.ends x v + if data = .pipe x ∧ w = v then 1 else 0 }

def dropEnd (L : Local π) (data : FileData) (w : Bool) : Local π :=
  { L with ends := fun x v => L.ends x v - if data = .pipe x ∧ w = v then 1 else 0 }

/-- Nothing in flight. -/
structure Idle (L : Local π) : Prop where
  extra : ∀ f, L.extra f = 0
  fresh : ∀ f, L.fresh f = false
  ends : ∀ x w, L.ends x w = 0
  freeing : ∀ x, L.freeing x = 0
  child : L.child = none

end Local

section Typestate
variable {π : Type}

def pre : Op π → Local π → Prop
  | .fileSet f data w, L => L.fresh f = true ∧ ∀ x, data = .pipe x → 1 ≤ L.ends x w
  | .fileData f, L => L.active = true ∧ L.Has f
  | .fileDuplicate f, L | .fileDrop f, L => L.Has f
  | .openFile _, L | .fileDescriptorAllocate _, L => L.active = true
  | .clearDescriptor fd, L => L.active = true ∧ ∃ f, L.slots fd = some (some f)
  | .pipeUse page, L => ∃ f, L.inUse = some (f, page) ∧ L.Has f
  | .pipeClose page w, L => 1 ≤ L.ends page w
  | .freePage page, L => 1 ≤ L.freeing page
  | .duplicateTo child fd f, L => L.child = some child ∧ L.childFree fd = true ∧ L.Has f
  | .processFree child, L => L.child = some child ∧ ∀ fd, L.childFree fd = true
  | .setRunnable child, L => L.child = some child
  | .becomeZombie, L => L.active = true ∧ ∀ fd, L.slots fd = some none
  | _, _ => True

def post : (o : Op π) → Local π → o.Result → Local π → Prop
  | .fileAlloc, L, r, L' =>
    match r with
    | none => L' = L
    | some f => ¬ L.Has f ∧ L' = (L.addRef f 1).setFresh f true
  | .fileSet f data w, L, _, L' => L' = (L.dropEnd data w).setFresh f false
  | .fileData f, L, r, L' =>
    match r with
    | .pipe page => L' = { L with inUse := some (f, page) }
    | _ => L' = L
  | .fileDuplicate f, L, _, L' => L' = (L.addRef f 1).setFresh f false
  | .fileDrop f, L, r, L' =>
    L' = r.elim ((L.addRef f (-1)).setFresh f false)
      (fun e => ((L.addRef f (-1)).setFresh f false).addEnd e.1 e.2)
  | .openFile fd, L, r, L' => L' = L.know fd r
  | .fileDescriptorAllocate f, L, r, L' =>
    match r with
    | none => L' = L
    | some fd => (∀ g, L.slots fd ≠ some (some g)) ∧ L' = (L.addRef f (-1)).know fd (some f)
  | .clearDescriptor fd, L, _, L' =>
    ∃ f, L.slots fd = some (some f) ∧ L' = (L.addRef f 1).know fd none
  | .pipeAlloc, L, r, L' =>
    L' = r.elim L (fun page => (L.addEnd (.pipe page) false).addEnd (.pipe page) true)
  | .pipeClose page w, L, r, L' => L' = { L.dropEnd (.pipe page) w with
      freeing := fun x => L.freeing x + if page = x ∧ r = true then 1 else 0 }
  | .freePage page, L, _, L' =>
    L' = { L with freeing := fun x => L.freeing x - if page = x then 1 else 0 }
  | .processAlloc, L, r, L' =>
    L' = r.elim L (fun child => { L with child := some child, childFree := fun _ => true })
  | .duplicateTo _ fd f, L, _, L' =>
    L' = { L.setFresh f false with childFree := Function.update L.childFree fd false }
  | .processFree _, L, _, L' | .setRunnable _, L, _, L' => L' = { L with child := none }
  | .becomeZombie, L, _, L' =>
    L' = { L with active := false, slots := fun _ => none, inUse := none }
  | _, L, _, L' => L' = L

def typestate : Typestate (interface π) (Local π) := ⟨fun _ => True, pre, post⟩

end Typestate

/-! ## The invariant -/

section Invariant
variable {π : Type}

/-- The descriptors of `p` that point to the file. -/
def slotCount (s : State π) (p : π) (f : FileIndex) : ℕ :=
  ∑ fd, if s.openFiles p fd = some f then 1 else 0

def owned (s : State π) (Λs : π → Local π) (p : π) (f : FileIndex) : ℤ :=
  slotCount s p f + (Λs p).extra f

/-- Whether the file holds an end of the pipe. -/
def File.holds (e : File) (page : ℕ) (w : Bool) : ℕ :=
  if e.referenceCount ≠ 0 ∧ e.data = .pipe page ∧ e.isWriteable = w then 1 else 0

def endOpen (pipe : Option Pipe) (w : Bool) : ℕ :=
  match pipe with
  | some pipe => if pipe.isOpen w then 1 else 0
  | none => 0

variable [Fintype π]

structure Counted (s : State π) (Λs : π → Local π) : Prop where
  own : ∀ p f, 0 ≤ owned s Λs p f
  count : ∀ f, ((s.files f).referenceCount : ℤ) = ∑ p, owned s Λs p f
  empty : ∀ f, (s.files f).referenceCount = 0 → (s.files f).data = .none
  fresh : ∀ p f, (Λs p).fresh f = true →
    (s.files f).referenceCount = 1 ∧ 1 ≤ owned s Λs p f ∧ (s.files f).data = .none
  inUse : ∀ p f x, (Λs p).inUse = some (f, x) → 1 ≤ owned s Λs p f → (s.files f).data = .pipe x

structure Piped (s : State π) (Λs : π → Local π) : Prop where
  ends : ∀ x w, (∑ f, (s.files f).holds x w) + ∑ p, (Λs p).ends x w = endOpen (s.pipes x) w
  freeing : ∀ x, ∑ p, (Λs p).freeing x = if s.pipes x = some ⟨false, false⟩ then 1 else 0

omit [Fintype π] in
structure Known (s : State π) (Λs : π → Local π) : Prop where
  slots : ∀ p fd r, (Λs p).slots fd = some r → s.openFiles p fd = r
  live : ∀ p, (Λs p).active = true → s.status p = .live
  blank : ∀ p, (Λs p).active = false → (∀ fd, (Λs p).slots fd = none) ∧ (Λs p).inUse = none
  vacant : ∀ p, s.status p = .unused ∨ s.status p = .zombie → ∀ fd, s.openFiles p fd = none
  child : ∀ p c, (Λs p).child = some c → s.status c = .used
  child_inj : ∀ p q c, (Λs p).child = some c → (Λs q).child = some c → p = q
  childFree : ∀ p c fd, (Λs p).child = some c → (Λs p).childFree fd = true →
    s.openFiles c fd = none

structure Good (s : State π) (Λs : π → Local π) : Prop where
  counted : Counted s Λs
  piped : Piped s Λs
  known : Known s Λs

/-! ### Sums -/

/-- A sum of which one term changes. -/
theorem sum_change {ι M : Type} [Fintype ι] [DecidableEq ι] [AddCommMonoid M] {a b : ι → M}
    (i : ι) (h : ∀ j ≠ i, b j = a j) : (∑ j, b j) + a i = (∑ j, a j) + b i := by
  rw [← Finset.add_sum_erase _ a (Finset.mem_univ i),
    ← Finset.add_sum_erase _ b (Finset.mem_univ i),
    Finset.sum_congr rfl fun j hj => h j (Finset.ne_of_mem_erase hj)]
  abel

variable {s s' : State π} {Λs Λs' : π → Local π} {p : π}

theorem Counted.owned_le (h : Counted s Λs) (p : π) (f : FileIndex) :
    owned s Λs p f ≤ (s.files f).referenceCount := by
  rw [h.count f]
  exact Finset.single_le_sum (f := fun q => owned s Λs q f) (fun q _ => h.own q f)
    (Finset.mem_univ p)

theorem Counted.owned_add_le [DecidableEq π] (h : Counted s Λs) {p q : π} (hne : p ≠ q)
    (f : FileIndex) : owned s Λs p f + owned s Λs q f ≤ (s.files f).referenceCount := by
  rw [h.count f, ← Finset.sum_pair hne (f := fun q => owned s Λs q f)]
  exact Finset.sum_le_sum_of_subset_of_nonneg (Finset.subset_univ _) fun r _ _ => h.own r f

omit [Fintype π] in
/-- What is known of the descriptors is there. -/
theorem Known.knows_le (h : Known s Λs) (p : π) (f : FileIndex) :
    (Λs p).knows f ≤ slotCount s p f := by
  refine Finset.sum_le_sum fun fd _ => ?_
  by_cases hf : (Λs p).slots fd = some (some f)
  · rw [if_pos hf, if_pos (h.slots p fd _ hf)]
  · rw [if_neg hf]
    exact Nat.zero_le _

omit [Fintype π] in
theorem Known.owned_of_has (h : Known s Λs) {f : FileIndex} (hf : (Λs p).Has f) :
    1 ≤ owned s Λs p f := by
  have hle := h.knows_le p f
  unfold Local.Has at hf
  unfold owned
  omega

/-! ### Counts -/

theorem Counted.change [DecidableEq π] (h : Counted s Λs) {q₀ : π} {f₀ : FileIndex} {n : ℤ}
    {e : File} (hfiles : s'.files = Function.update s.files f₀ e)
    (hown : ∀ q f, owned s' Λs' q f = owned s Λs q f + if q = q₀ ∧ f = f₀ then n else 0)
    (hnonneg : 0 ≤ owned s Λs q₀ f₀ + n)
    (hcount : (e.referenceCount : ℤ) = (s.files f₀).referenceCount + n)
    (hempty : e.referenceCount = 0 → e.data = .none)
    (hfresh : ∀ q f, (Λs' q).fresh f = true → f ≠ f₀ ∧ (Λs q).fresh f = true ∨
      f = f₀ ∧ e.referenceCount = 1 ∧ 1 ≤ owned s' Λs' q f₀ ∧ e.data = .none)
    (hinUse : ∀ q f x, (Λs' q).inUse = some (f, x) → (Λs q).inUse = some (f, x) ∧
      (f = f₀ → 1 ≤ owned s' Λs' q f₀ → 1 ≤ owned s Λs q f₀ ∧ e.data = (s.files f₀).data)) :
    Counted s' Λs' where
  own q f := by
    rw [hown]
    split
    next heq => rw [heq.1, heq.2]; exact hnonneg
    · rw [add_zero]; exact h.own q f
  count f := by
    have hsum : ∑ q, owned s' Λs' q f = (∑ q, owned s Λs q f) + if f = f₀ then n else 0 := by
      rw [Finset.sum_congr rfl fun q _ => hown q f, Finset.sum_add_distrib]
      congr 1
      by_cases hf : f = f₀
      · simp only [hf, and_true, if_true, Finset.sum_ite_eq', Finset.mem_univ]
      · simp only [hf, and_false, if_false, Finset.sum_const_zero]
    rw [hsum, ← h.count f, hfiles]
    by_cases hf : f = f₀
    · rw [hf, Function.update_self, if_pos rfl, hcount]
    · rw [Function.update_of_ne hf, if_neg hf, add_zero]
  empty f := by
    rw [hfiles]
    by_cases hf : f = f₀
    · rw [hf, Function.update_self]; exact hempty
    · rw [Function.update_of_ne hf]; exact h.empty f
  fresh q f hq := by
    rw [hfiles]
    obtain ⟨hf, hq⟩ | ⟨rfl, hq⟩ := hfresh q f hq
    · rw [Function.update_of_ne hf, hown, if_neg fun heq => hf heq.2, add_zero]
      exact h.fresh q f hq
    · rw [Function.update_self]
      exact hq
  inUse q f x hq ho := by
    obtain ⟨hq, hf₀⟩ := hinUse q f x hq
    rw [hfiles]
    by_cases hf : f = f₀
    · subst hf
      obtain ⟨ho, hdata⟩ := hf₀ rfl ho
      rw [Function.update_self, hdata]
      exact h.inUse q f x hq ho
    · rw [hown, if_neg fun heq => hf heq.2, add_zero] at ho
      rw [Function.update_of_ne hf]
      exact h.inUse q f x hq ho

theorem Counted.congr (h : Counted s Λs) (hfiles : s'.files = s.files)
    (hown : ∀ q f, owned s' Λs' q f = owned s Λs q f)
    (hfresh : ∀ q, (Λs' q).fresh = (Λs q).fresh)
    (hinUse : ∀ q f x, (Λs' q).inUse = some (f, x) → 1 ≤ owned s Λs q f →
      (Λs q).inUse = some (f, x) ∨ (s.files f).data = .pipe x) : Counted s' Λs' where
  own q f := by rw [hown]; exact h.own q f
  count f := by rw [hfiles, Finset.sum_congr rfl fun q _ => hown q f]; exact h.count f
  empty f := by rw [hfiles]; exact h.empty f
  fresh q f hq := by
    rw [hfresh] at hq
    rw [hfiles, hown]
    exact h.fresh q f hq
  inUse q f x hq ho := by
    rw [hown] at ho
    rw [hfiles]
    obtain hq | hdata := hinUse q f x hq ho
    · exact h.inUse q f x hq ho
    · exact hdata

/-- A file that one process has just allocated is known to no other. -/
theorem Counted.fresh_unique [DecidableEq π] (h : Counted s Λs) {q : π} {f : FileIndex}
    (hq : (Λs q).fresh f = true) (hp : 1 ≤ owned s Λs p f) : p = q := by
  by_contra hne
  obtain ⟨hone, ho, -⟩ := h.fresh q f hq
  have hle := h.owned_add_le hne f
  omega

/-- Who gives a file on, or sets it, no longer has it as new, and no other did. -/
theorem Counted.fresh_shared [DecidableEq π] (h : Counted s Λs) {q : π} {f f₀ : FileIndex}
    (hp : 1 ≤ owned s Λs p f₀) (hother : ∀ q ≠ p, Λs' q = Λs q)
    (hfresh : (Λs' p).fresh = ((Λs p).setFresh f₀ false).fresh)
    (hq : (Λs' q).fresh f = true) : f ≠ f₀ ∧ (Λs q).fresh f = true := by
  by_cases hqp : q = p
  · subst hqp
    rw [hfresh] at hq
    by_cases hf : f = f₀
    · rw [hf] at hq
      simp [Local.setFresh] at hq
    · refine ⟨hf, ?_⟩
      simpa only [Local.setFresh, Function.update_of_ne hf] using hq
  · rw [hother q hqp] at hq
    refine ⟨?_, hq⟩
    rintro rfl
    exact hqp (h.fresh_unique hq hp).symm

omit [Fintype π] in
/-- Where `p` uses no pipe, only another process does. -/
theorem inUse_other {q : π} {use : FileIndex × ℕ} (hother : ∀ q ≠ p, Λs' q = Λs q)
    (hself : (Λs' p).inUse = none) (hq : (Λs' q).inUse = some use) :
    q ≠ p ∧ (Λs q).inUse = some use := by
  have hqp : q ≠ p := by
    rintro rfl
    rw [hself] at hq
    exact absurd hq nofun
  exact ⟨hqp, by rwa [hother q hqp] at hq⟩

omit [Fintype π] in
theorem addRef_extra (L : Local π) (f g : FileIndex) (n : ℤ) :
    (L.addRef f n).extra g = L.extra g + if g = f then n else 0 := by
  unfold Local.addRef
  by_cases hg : g = f
  · simp only [hg, Function.update_self, if_true]
  · simp only [Function.update_of_ne hg, if_neg hg, add_zero]

omit [Fintype π] in
/-- What `p` owns where only its references to `f₀` change. -/
theorem owned_addRef [DecidableEq π] (f₀ : FileIndex) (n : ℤ)
    (hslots : s'.openFiles = s.openFiles) (hother : ∀ q ≠ p, Λs' q = Λs q)
    (hself : (Λs' p).extra = ((Λs p).addRef f₀ n).extra) (q : π) (f : FileIndex) :
    owned s' Λs' q f = owned s Λs q f + if q = p ∧ f = f₀ then n else 0 := by
  unfold owned slotCount
  rw [hslots]
  by_cases hq : q = p
  · subst hq
    simp only [hself, addRef_extra, true_and, add_assoc]
  · rw [hother q hq, if_neg fun heq => hq heq.1, add_zero]

theorem Counted.fileAlloc [DecidableEq π] (h : Counted s Λs) {f₀ : FileIndex}
    (hzero : (s.files f₀).referenceCount = 0) (hother : ∀ q ≠ p, Λs' q = Λs q)
    (hself : Λs' p = ((Λs p).addRef f₀ 1).setFresh f₀ true) :
    Counted (s.setFile f₀ { s.files f₀ with referenceCount := 1 }) Λs' := by
  have hnone : ∀ q, owned s Λs q f₀ ≤ 0 := fun q => by
    have := h.owned_le q f₀
    omega
  have hslots : (s.setFile f₀ { s.files f₀ with referenceCount := 1 }).openFiles = s.openFiles :=
    rfl
  have hown := owned_addRef f₀ 1 hslots hother (by rw [hself]; rfl)
  refine h.change rfl hown (add_nonneg (h.own p f₀) zero_le_one) (by simp [hzero]) (by simp)
    (fun q f hq => ?_) (fun q f x hq => ?_)
  · by_cases hqp : q = p
    · subst hqp
      rw [hself] at hq
      by_cases hf : f = f₀
      · refine .inr ⟨hf, rfl, ?_, h.empty f₀ hzero⟩
        rw [hown, if_pos ⟨rfl, rfl⟩]
        have := h.own q f₀
        omega
      · refine .inl ⟨hf, ?_⟩
        simpa only [Local.setFresh, Local.addRef, Function.update_of_ne hf] using hq
    · rw [hother q hqp] at hq
      refine .inl ⟨?_, hq⟩
      rintro rfl
      have := (h.fresh q f hq).1
      omega
  · obtain ⟨hqp, hq⟩ := inUse_other hother (by rw [hself]; rfl) hq
    refine ⟨hq, fun _ ho => ?_⟩
    rw [hown, if_neg fun heq => hqp heq.1] at ho
    have := hnone q
    omega

/-- `q₀` gets one more reference to a file of which `p` has one. -/
theorem Counted.duplicate [DecidableEq π] (h : Counted s Λs) {q₀ : π} {f₀ : FileIndex}
    (hp : 1 ≤ owned s Λs p f₀) (hfiles : s'.files = (s.duplicate f₀).files)
    (hown : ∀ q f, owned s' Λs' q f = owned s Λs q f + if q = q₀ ∧ f = f₀ then 1 else 0)
    (hother : ∀ q ≠ p, Λs' q = Λs q) (hfresh : (Λs' p).fresh = ((Λs p).setFresh f₀ false).fresh)
    (hself : (Λs' p).inUse = none) (hinUse : q₀ ≠ p → (Λs q₀).inUse = none) : Counted s' Λs' := by
  refine h.change hfiles hown (add_nonneg (h.own q₀ f₀) zero_le_one) (by simp) (by simp)
    (fun q f hq => ?_) (fun q f x hq => ?_)
  · exact .inl (h.fresh_shared hp hother hfresh hq)
  · obtain ⟨hqp, hq⟩ := inUse_other hother hself hq
    refine ⟨hq, fun hf ho => ⟨?_, rfl⟩⟩
    have hq₀ : q ≠ q₀ := by
      rintro rfl
      rw [hinUse hqp] at hq
      exact absurd hq nofun
    rwa [hown, if_neg fun heq => hq₀ heq.1, add_zero] at ho

/-- `p` gives a reference up; the last one takes the data along. -/
theorem Counted.fileDrop [DecidableEq π] (h : Counted s Λs) {f₀ : FileIndex} {e : File}
    (hp : 1 ≤ owned s Λs p f₀) (hfiles : s'.files = Function.update s.files f₀ e)
    (hslots : s'.openFiles = s.openFiles)
    (hcount : e.referenceCount = (s.files f₀).referenceCount - 1)
    (hdata : e.data = if e.referenceCount = 0 then .none else (s.files f₀).data)
    (hother : ∀ q ≠ p, Λs' q = Λs q)
    (hextra : (Λs' p).extra = ((Λs p).addRef f₀ (-1)).extra)
    (hfresh : (Λs' p).fresh = ((Λs p).setFresh f₀ false).fresh) (hself : (Λs' p).inUse = none) :
    Counted s' Λs' := by
  have hle := h.owned_le p f₀
  have hown := owned_addRef f₀ (-1) hslots hother hextra
  refine h.change hfiles hown (by omega) (by omega) (fun hzero => by rw [hdata, if_pos hzero])
    (fun q f hq => ?_) (fun q f x hq => ?_)
  · exact .inl (h.fresh_shared hp hother hfresh hq)
  · obtain ⟨hqp, hq⟩ := inUse_other hother hself hq
    refine ⟨hq, fun hf ho => ?_⟩
    rw [hown, if_neg fun heq => hqp heq.1, add_zero] at ho
    have htwo := h.owned_add_le (Ne.symm hqp) f₀
    exact ⟨ho, by rw [hdata, if_neg (by omega)]⟩

theorem Counted.fileSet [DecidableEq π] (h : Counted s Λs) {f₀ : FileIndex} {data : FileData}
    {w : Bool} (hp : (Λs p).fresh f₀ = true) (hother : ∀ q ≠ p, Λs' q = Λs q)
    (hself : Λs' p = ((Λs p).dropEnd data w).setFresh f₀ false) :
    Counted (s.setFile f₀ { s.files f₀ with data := data, isWriteable := w }) Λs' := by
  obtain ⟨hone, hpos, -⟩ := h.fresh p f₀ hp
  have hown : ∀ q f, owned (s.setFile f₀ { s.files f₀ with data := data, isWriteable := w }) Λs' q
      f = owned s Λs q f + if q = p ∧ f = f₀ then 0 else 0 := by
    intro q f
    rw [ite_self, add_zero]
    by_cases hqp : q = p
    · subst hqp
      unfold owned
      rw [hself]
      rfl
    · unfold owned
      rw [hother q hqp]
      rfl
  refine h.change rfl hown (by rw [add_zero]; exact h.own p f₀) (by simp)
    (fun hzero => absurd hzero (by simp [hone])) (fun q f hq => ?_) (fun q f x hq => ?_)
  · exact .inl (h.fresh_shared hpos hother (by rw [hself]; rfl) hq)
  · obtain ⟨hqp, hq⟩ := inUse_other hother (by rw [hself]; rfl) hq
    refine ⟨hq, fun hf ho => ?_⟩
    rw [hown, ite_self, add_zero] at ho
    exact absurd (h.fresh_unique hp ho) hqp

omit [Fintype π] in
/-- The count of a process of which one descriptor changes. -/
theorem slotCount_setOpenFile [DecidableEq π] (s : State π) (p : π) (fd : FileDescriptor)
    (r : Option FileIndex) (f : FileIndex) :
    slotCount (s.setOpenFile p fd r) p f + (if s.openFiles p fd = some f then 1 else 0) =
      slotCount s p f + if r = some f then 1 else 0 := by
  unfold slotCount State.setOpenFile
  have hsum := sum_change (a := fun d => if s.openFiles p d = some f then 1 else 0)
    (b := fun d => if Function.update (s.openFiles p) fd r d = some f then 1 else 0) fd
    (fun d hd => by rw [Function.update_of_ne hd])
  simpa only [Function.update_self] using hsum

omit [Fintype π] in
theorem slotCount_setOpenFile_of_ne [DecidableEq π] {q : π} (hq : q ≠ p) (fd : FileDescriptor)
    (r : Option FileIndex) (f : FileIndex) :
    slotCount (s.setOpenFile p fd r) q f = slotCount s q f := by
  simp only [slotCount, State.setOpenFile, Function.update_of_ne hq]

omit [Fintype π] in
/-- A reference moves between a descriptor and what its process has beyond them. -/
theorem owned_setOpenFile [DecidableEq π] {fd : FileDescriptor} {r : Option FileIndex}
    {f₀ : FileIndex} {n : ℤ} (hother : ∀ q ≠ p, Λs' q = Λs q)
    (hself : (Λs' p).extra = ((Λs p).addRef f₀ n).extra)
    (hmove : ∀ f, ((if s.openFiles p fd = some f then 1 else 0 : ℕ) : ℤ) =
      ((if r = some f then 1 else 0 : ℕ) : ℤ) + if f = f₀ then n else 0) (q : π) (f : FileIndex) :
    owned (s.setOpenFile p fd r) Λs' q f = owned s Λs q f := by
  unfold owned
  by_cases hq : q = p
  · subst hq
    have hcount := slotCount_setOpenFile s q fd r f
    have hf := hmove f
    rw [hself, addRef_extra]
    omega
  · rw [hother q hq, slotCount_setOpenFile_of_ne hq]

/-! ### Pipes -/

/-- A file and what its process holds change in step. -/
theorem Piped.file [DecidableEq π] (h : Piped s Λs) {f₀ : FileIndex} {e : File}
    (hfiles : s'.files = Function.update s.files f₀ e) (hpipes : s'.pipes = s.pipes)
    (hother : ∀ q ≠ p, Λs' q = Λs q) (hfreeing : (Λs' p).freeing = (Λs p).freeing)
    (hends : ∀ x w, e.holds x w + (Λs' p).ends x w =
      (s.files f₀).holds x w + (Λs p).ends x w) : Piped s' Λs' where
  ends x w := by
    have hsum := sum_change (a := fun f => (s.files f).holds x w)
      (b := fun f => (s'.files f).holds x w) f₀
      (fun f hf => by rw [hfiles, Function.update_of_ne hf])
    have hlocal := sum_change (a := fun q => (Λs q).ends x w) (b := fun q => (Λs' q).ends x w) p
      (fun q hq => by rw [hother q hq])
    have hself := hends x w
    have hold := h.ends x w
    rw [hpipes]
    simp only [hfiles, Function.update_self] at hsum hlocal ⊢
    omega
  freeing x := by
    rw [hpipes, ← h.freeing x]
    refine Finset.sum_congr rfl fun q _ => ?_
    by_cases hq : q = p
    · rw [hq, hfreeing]
    · rw [hother q hq]

theorem Piped.congr (h : Piped s Λs) (hfiles : s'.files = s.files) (hpipes : s'.pipes = s.pipes)
    (hends : ∀ q, (Λs' q).ends = (Λs q).ends) (hfreeing : ∀ q, (Λs' q).freeing = (Λs q).freeing) :
    Piped s' Λs' where
  ends x w := by
    rw [hfiles, hpipes, ← h.ends x w]
    congr 1
    exact Finset.sum_congr rfl fun q _ => by rw [hends]
  freeing x := by
    rw [hpipes, ← h.freeing x]
    exact Finset.sum_congr rfl fun q _ => by rw [hfreeing]

/-- One page changes, and what one process holds with it. -/
theorem Piped.page [DecidableEq π] (h : Piped s Λs) {page : ℕ} {pipe : Option Pipe}
    (hfiles : s'.files = s.files) (hpipes : s'.pipes = Function.update s.pipes page pipe)
    (hother : ∀ q ≠ p, Λs' q = Λs q)
    (hends : ∀ x w, (Λs' p).ends x w + (if x = page then endOpen (s.pipes page) w else 0) =
      (Λs p).ends x w + if x = page then endOpen pipe w else 0)
    (hfreeing : ∀ x, (Λs' p).freeing x +
        (if x = page then (if s.pipes page = some ⟨false, false⟩ then 1 else 0) else 0) =
      (Λs p).freeing x +
        if x = page then (if pipe = some ⟨false, false⟩ then 1 else 0) else 0) :
    Piped s' Λs' where
  ends x w := by
    have hlocal := sum_change (a := fun q => (Λs q).ends x w) (b := fun q => (Λs' q).ends x w) p
      (fun q hq => by rw [hother q hq])
    have hself := hends x w
    have hold := h.ends x w
    rw [hfiles, hpipes]
    by_cases hx : x = page
    · subst hx
      simp only [Function.update_self, if_true] at hself hlocal ⊢
      omega
    · simp only [Function.update_of_ne hx, if_neg hx] at hself hlocal ⊢
      omega
  freeing x := by
    have hlocal := sum_change (a := fun q => (Λs q).freeing x) (b := fun q => (Λs' q).freeing x) p
      (fun q hq => by rw [hother q hq])
    have hself := hfreeing x
    have hold := h.freeing x
    rw [hpipes]
    by_cases hx : x = page
    · subst hx
      simp only [Function.update_self, if_true] at hself hlocal ⊢
      omega
    · simp only [Function.update_of_ne hx, if_neg hx] at hself hlocal ⊢
      omega

/-- The end that a process or a file holds is open. -/
theorem Piped.open_of_ends (h : Piped s Λs) {page : ℕ} {w : Bool} (hp : 1 ≤ (Λs p).ends page w) :
    ∃ pipe, s.pipes page = some pipe ∧ pipe.isOpen w = true ∧ (Λs p).ends page w = 1 := by
  have hsum := h.ends page w
  have hle : (Λs p).ends page w ≤ ∑ q, (Λs q).ends page w :=
    Finset.single_le_sum (f := fun q => (Λs q).ends page w) (fun _ _ => Nat.zero_le _)
      (Finset.mem_univ p)
  unfold endOpen at hsum
  cases hpipe : s.pipes page with
  | none =>
    simp only [hpipe] at hsum
    omega
  | some pipe =>
    simp only [hpipe] at hsum
    refine ⟨pipe, rfl, ?_, ?_⟩
    · by_contra hclosed
      rw [if_neg hclosed] at hsum
      omega
    · split at hsum <;> omega

theorem Piped.open_of_holds (h : Piped s Λs) {page : ℕ} {f : FileIndex}
    (hcount : (s.files f).referenceCount ≠ 0) (hdata : (s.files f).data = .pipe page) :
    s.pipes page ≠ none := by
  intro hnone
  have hsum := h.ends page (s.files f).isWriteable
  have hle : (s.files f).holds page (s.files f).isWriteable ≤
      ∑ g, (s.files g).holds page (s.files f).isWriteable :=
    Finset.single_le_sum (f := fun g => (s.files g).holds page (s.files f).isWriteable)
      (fun _ _ => Nat.zero_le _) (Finset.mem_univ f)
  have hone : (s.files f).holds page (s.files f).isWriteable = 1 := if_pos ⟨hcount, hdata, rfl⟩
  rw [hnone] at hsum
  simp only [endOpen] at hsum
  omega

theorem Piped.closed_of_freeing (h : Piped s Λs) {page : ℕ} (hp : 1 ≤ (Λs p).freeing page) :
    s.pipes page = some ⟨false, false⟩ ∧ (Λs p).freeing page = 1 := by
  have hsum := h.freeing page
  have hle : (Λs p).freeing page ≤ ∑ q, (Λs q).freeing page :=
    Finset.single_le_sum (f := fun q => (Λs q).freeing page) (fun _ _ => Nat.zero_le _)
      (Finset.mem_univ p)
  split at hsum
  next hclosed => exact ⟨hclosed, by omega⟩
  · omega

/-! ### Descriptors and processes -/

section Known
omit [Fintype π]

/-- Where neither descriptors nor processes change. -/
theorem Known.congr (h : Known s Λs) (hopen : s'.openFiles = s.openFiles)
    (hstatus : s'.status = s.status) (hslots : ∀ q, (Λs' q).slots = (Λs q).slots)
    (hactive : ∀ q, (Λs' q).active = (Λs q).active) (hchild : ∀ q, (Λs' q).child = (Λs q).child)
    (hfree : ∀ q, (Λs' q).childFree = (Λs q).childFree)
    (hinUse : ∀ q, (Λs q).active = false → (Λs q).inUse = none → (Λs' q).inUse = none) :
    Known s' Λs' where
  slots q fd r := by rw [hslots, hopen]; exact h.slots q fd r
  live q := by rw [hactive, hstatus]; exact h.live q
  blank q hq := by
    rw [hactive] at hq
    rw [hslots]
    exact ⟨(h.blank q hq).1, hinUse q hq (h.blank q hq).2⟩
  vacant q := by rw [hstatus, hopen]; exact h.vacant q
  child q c := by rw [hchild, hstatus]; exact h.child q c
  child_inj q r c := by rw [hchild, hchild]; exact h.child_inj q r c
  childFree q c fd := by rw [hchild, hfree, hopen]; exact h.childFree q c fd

/-- A process that is there is not yet the child of any. -/
theorem Known.not_child (h : Known s Λs) (hp : (Λs p).active = true) (q : π) :
    (Λs q).child ≠ some p := by
  intro hq
  have hused := h.child q p hq
  rw [h.live p hp] at hused
  exact absurd hused nofun

theorem Known.inactive (h : Known s Λs) {c : π} (hc : s.status c ≠ .live) :
    (Λs c).active = false := by
  by_contra hactive
  exact hc (h.live c (by simpa using hactive))

variable [DecidableEq π]

/-- What `p` keeps to itself stays for all where it stays for `p`. -/
theorem field_eq {β : Type} (get : Local π → β) (hother : ∀ q ≠ p, Λs' q = Λs q)
    (hself : get (Λs' p) = get (Λs p)) (q : π) : get (Λs' q) = get (Λs q) := by
  by_cases hq : q = p
  · rw [hq, hself]
  · rw [hother q hq]

theorem Known.know (h : Known s Λs) {fd : FileDescriptor} (hp : (Λs p).active = true)
    (hother : ∀ q ≠ p, Λs' q = Λs q) (hself : Λs' p = (Λs p).know fd (s.openFiles p fd)) :
    Known s Λs' := by
  have hactive := field_eq Local.active hother (by rw [hself]; rfl)
  have hchild := field_eq Local.child hother (by rw [hself]; rfl)
  have hchildFree := field_eq Local.childFree hother (by rw [hself]; rfl)
  refine
    { slots := fun q d r hr => ?_
      live := fun q hq => h.live q (by rwa [hactive q] at hq)
      blank := fun q hq => ?_
      vacant := h.vacant
      child := fun q c hq => h.child q c (by rwa [hchild q] at hq)
      child_inj := fun q r c hq hr => h.child_inj q r c (by rwa [hchild q] at hq)
        (by rwa [hchild r] at hr)
      childFree := fun q c d hq hd => h.childFree q c d (by rwa [hchild q] at hq)
        (by rwa [hchildFree q] at hd) }
  · by_cases hq : q = p
    · subst hq
      rw [hself] at hr
      by_cases hd : d = fd
      · subst hd
        simpa [Local.know] using hr
      · exact h.slots q d r (by simpa [Local.know, hd] using hr)
    · rw [hother q hq] at hr
      exact h.slots q d r hr
  · have hqp : q ≠ p := by
      rintro rfl
      rw [hactive q, hp] at hq
      exact absurd hq nofun
    rw [hother q hqp] at hq ⊢
    exact h.blank q hq

/-- A process sets one of its descriptors. -/
theorem Known.setOpenFile (h : Known s Λs) {fd : FileDescriptor} {r : Option FileIndex}
    {f₀ : FileIndex} {n : ℤ} (hp : (Λs p).active = true) (hother : ∀ q ≠ p, Λs' q = Λs q)
    (hself : Λs' p = ((Λs p).addRef f₀ n).know fd r) : Known (s.setOpenFile p fd r) Λs' := by
  have hactive := field_eq Local.active hother (by rw [hself]; rfl)
  have hchild := field_eq Local.child hother (by rw [hself]; rfl)
  have hchildFree := field_eq Local.childFree hother (by rw [hself]; rfl)
  have hopen : ∀ q ≠ p, (s.setOpenFile p fd r).openFiles q = s.openFiles q :=
    fun q hq => Function.update_of_ne hq _ _
  refine
    { slots := fun q d r' hr => ?_
      live := fun q hq => h.live q (by rwa [hactive q] at hq)
      blank := fun q hq => ?_
      vacant := fun q hq => ?_
      child := fun q c hq => h.child q c (by rwa [hchild q] at hq)
      child_inj := fun q r c hq hr => h.child_inj q r c (by rwa [hchild q] at hq)
        (by rwa [hchild r] at hr)
      childFree := fun q c d hq hd => ?_ }
  · by_cases hq : q = p
    · subst hq
      rw [hself] at hr
      by_cases hd : d = fd
      · subst hd
        simpa [Local.know, State.setOpenFile] using hr
      · have hold := h.slots q d r' (by simpa [Local.know, Local.addRef, hd] using hr)
        simpa [State.setOpenFile, hd] using hold
    · rw [hother q hq] at hr
      rw [hopen q hq]
      exact h.slots q d r' hr
  · have hqp : q ≠ p := by
      rintro rfl
      rw [hactive q, hp] at hq
      exact absurd hq nofun
    rw [hother q hqp] at hq ⊢
    exact h.blank q hq
  · have hqp : q ≠ p := by
      rintro rfl
      have hlive : s.status q = .unused ∨ s.status q = .zombie := hq
      rw [h.live q hp] at hlive
      exact hlive.elim nofun nofun
    rw [hopen q hqp]
    exact h.vacant q hq
  · rw [hchild q] at hq
    rw [hchildFree q] at hd
    have hcp : c ≠ p := by
      rintro rfl
      exact h.not_child hp q hq
    rw [hopen c hcp]
    exact h.childFree q c d hq hd

/-- A process sets a descriptor of its child. -/
theorem Known.duplicateTo (h : Known s Λs) {c : π} {fd : FileDescriptor} {f : FileIndex}
    (hc : (Λs p).child = some c) (hother : ∀ q ≠ p, Λs' q = Λs q)
    (hself : Λs' p = { (Λs p).setFresh f false with
      childFree := Function.update (Λs p).childFree fd false }) :
    Known ((s.duplicate f).setOpenFile c fd (some f)) Λs' := by
  have hactive := field_eq Local.active hother (by rw [hself]; rfl)
  have hchild := field_eq Local.child hother (by rw [hself]; rfl)
  have hslots := field_eq Local.slots hother (by rw [hself]; rfl)
  have hused := h.child p c hc
  have hopen : ∀ q ≠ c, ((s.duplicate f).setOpenFile c fd (some f)).openFiles q = s.openFiles q :=
    fun q hq => Function.update_of_ne hq _ _
  refine
    { slots := fun q d r hr => ?_
      live := fun q hq => h.live q (by rwa [hactive q] at hq)
      blank := fun q hq => ?_
      vacant := fun q hq => ?_
      child := fun q c hq => h.child q c (by rwa [hchild q] at hq)
      child_inj := fun q r c hq hr => h.child_inj q r c (by rwa [hchild q] at hq)
        (by rwa [hchild r] at hr)
      childFree := fun q c' d hq hd => ?_ }
  · rw [hslots q] at hr
    have hqc : q ≠ c := by
      rintro rfl
      rw [(h.blank q (h.inactive (by rw [hused]; nofun))).1 d] at hr
      exact absurd hr nofun
    rw [hopen q hqc]
    exact h.slots q d r hr
  · rw [hactive q] at hq
    rw [hslots q]
    refine ⟨(h.blank q hq).1, ?_⟩
    by_cases hqp : q = p
    · subst hqp
      rw [hself]
      rfl
    · rw [hother q hqp]
      exact (h.blank q hq).2
  · have hqc : q ≠ c := by
      rintro rfl
      have hvacant : s.status q = .unused ∨ s.status q = .zombie := hq
      rw [hused] at hvacant
      exact hvacant.elim nofun nofun
    rw [hopen q hqc]
    exact h.vacant q hq
  · rw [hchild q] at hq
    by_cases hcc : c' = c
    · subst hcc
      obtain rfl := h.child_inj q p c' hq hc
      rw [hself] at hd
      have hdfd : d ≠ fd := by
        rintro rfl
        simp at hd
      have hold := h.childFree q c' d hq (by simpa [hdfd] using hd)
      simpa [State.setOpenFile, State.duplicate, State.setFile, hdfd] using hold
    · have hqp : q ≠ p := by
        rintro rfl
        exact hcc (Option.some.inj (hq.symm.trans hc))
      rw [hother q hqp] at hd
      rw [hopen c' hcc]
      exact h.childFree q c' d hq hd

/-- A slot of the process table is taken for a child of `p`. -/
theorem Known.processAlloc (h : Known s Λs) {c : π} (hc : s.status c = .unused)
    (hother : ∀ q ≠ p, Λs' q = Λs q)
    (hself : Λs' p = { Λs p with child := some c, childFree := fun _ => true }) :
    Known (s.setStatus c .used) Λs' := by
  have hactive := field_eq Local.active hother (by rw [hself])
  have hslots := field_eq Local.slots hother (by rw [hself])
  have hinUse := field_eq Local.inUse hother (by rw [hself])
  have hstatus : ∀ q ≠ c, (s.setStatus c .used).status q = s.status q :=
    fun q hq => Function.update_of_ne hq _ _
  have hself' : (s.setStatus c .used).status c = .used := Function.update_self _ _ _
  have hold : ∀ q c', (Λs q).child = some c' → c' ≠ c := by
    rintro q c' hq rfl
    rw [h.child q c' hq] at hc
    exact absurd hc nofun
  refine
    { slots := fun q d r hr => h.slots q d r (by rwa [hslots q] at hr)
      live := fun q hq => ?_
      blank := fun q hq => ?_
      vacant := fun q hq => ?_
      child := fun q c' hq => ?_
      child_inj := fun q r c' hq hr => ?_
      childFree := fun q c' d hq hd => ?_ }
  · have hlive := h.live q (by rwa [hactive q] at hq)
    rw [hstatus q (by rintro rfl; rw [hlive] at hc; exact absurd hc nofun)]
    exact hlive
  · rw [hactive q] at hq
    rw [hslots q, hinUse q]
    exact h.blank q hq
  · have hqc : q ≠ c := by
      rintro rfl
      rw [hself'] at hq
      exact hq.elim nofun nofun
    rw [hstatus q hqc] at hq
    exact h.vacant q hq
  · by_cases hqp : q = p
    · subst hqp
      rw [hself] at hq
      obtain rfl := Option.some.inj hq
      exact hself'
    · rw [hother q hqp] at hq
      rw [hstatus c' (hold q c' hq)]
      exact h.child q c' hq
  · by_cases hqp : q = p
    · by_cases hrp : r = p
      · rw [hqp, hrp]
      · subst hqp
        rw [hself] at hq
        rw [hother r hrp] at hr
        exact absurd (Option.some.inj hq).symm (hold r c' hr)
    · by_cases hrp : r = p
      · subst hrp
        rw [hself] at hr
        rw [hother q hqp] at hq
        exact absurd (Option.some.inj hr).symm (hold q c' hq)
      · rw [hother q hqp] at hq
        rw [hother r hrp] at hr
        exact h.child_inj q r c' hq hr
  · by_cases hqp : q = p
    · subst hqp
      rw [hself] at hq
      obtain rfl := Option.some.inj hq
      exact h.vacant c (.inl hc) d
    · rw [hother q hqp] at hq hd
      exact h.childFree q c' d hq hd

/-- The child of `p` is let go: it can run now, or its slot is unused again. -/
theorem Known.release (h : Known s Λs) {c : π} {status : ProcessState}
    (hc : (Λs p).child = some c)
    (hvacant : status = .unused ∨ status = .zombie → ∀ fd, s.openFiles c fd = none)
    (hother : ∀ q ≠ p, Λs' q = Λs q) (hself : Λs' p = { Λs p with child := none }) :
    Known (s.setStatus c status) Λs' := by
  have hactive := field_eq Local.active hother (by rw [hself])
  have hslots := field_eq Local.slots hother (by rw [hself])
  have hinUse := field_eq Local.inUse hother (by rw [hself])
  have hstatus : ∀ q ≠ c, (s.setStatus c status).status q = s.status q :=
    fun q hq => Function.update_of_ne hq _ _
  have hself' : (s.setStatus c status).status c = status := Function.update_self _ _ _
  have hchild : ∀ q c', (Λs' q).child = some c' → (Λs q).child = some c' ∧ q ≠ p ∧ c' ≠ c := by
    intro q c' hq
    have hqp : q ≠ p := by
      rintro rfl
      rw [hself] at hq
      exact absurd hq nofun
    rw [hother q hqp] at hq
    refine ⟨hq, hqp, ?_⟩
    rintro rfl
    exact hqp (h.child_inj q p c' hq hc)
  refine
    { slots := fun q d r hr => h.slots q d r (by rwa [hslots q] at hr)
      live := fun q hq => ?_
      blank := fun q hq => ?_
      vacant := fun q hq => ?_
      child := fun q c' hq => ?_
      child_inj := fun q r c' hq hr => h.child_inj q r c' (hchild q c' hq).1 (hchild r c' hr).1
      childFree := fun q c' d hq hd => ?_ }
  · rw [hactive q] at hq
    have hqc : q ≠ c := by
      rintro rfl
      exact h.not_child hq p hc
    rw [hstatus q hqc]
    exact h.live q hq
  · rw [hactive q] at hq
    rw [hslots q, hinUse q]
    exact h.blank q hq
  · by_cases hqc : q = c
    · subst hqc
      rw [hself'] at hq
      exact hvacant hq
    · rw [hstatus q hqc] at hq
      exact h.vacant q hq
  · obtain ⟨hq, -, hcc⟩ := hchild q c' hq
    rw [hstatus c' hcc]
    exact h.child q c' hq
  · obtain ⟨hq, hqp, -⟩ := hchild q c' hq
    rw [hother q hqp] at hd
    exact h.childFree q c' d hq hd

/-- A process that makes a call is known to be there. -/
theorem Known.start (h : Known s Λs) (hp : s.status p = .live) :
    Known s (Function.update Λs p { Λs p with active := true }) := by
  have hother : ∀ q ≠ p, Function.update Λs p { Λs p with active := true } q = Λs q :=
    fun q hq => Function.update_of_ne hq _ _
  have hself : Function.update Λs p { Λs p with active := true } p = { Λs p with active := true } :=
    Function.update_self _ _ _
  generalize Function.update Λs p { Λs p with active := true } = Λs' at *
  have hslots := field_eq Local.slots hother (by rw [hself])
  have hchild := field_eq Local.child hother (by rw [hself])
  have hchildFree := field_eq Local.childFree hother (by rw [hself])
  refine
    { slots := fun q d r hr => h.slots q d r (by rwa [hslots q] at hr)
      live := fun q hq => ?_
      blank := fun q hq => ?_
      vacant := h.vacant
      child := fun q c hq => h.child q c (by rwa [hchild q] at hq)
      child_inj := fun q r c hq hr => h.child_inj q r c (by rwa [hchild q] at hq)
        (by rwa [hchild r] at hr)
      childFree := fun q c d hq hd => h.childFree q c d (by rwa [hchild q] at hq)
        (by rwa [hchildFree q] at hd) }
  · by_cases hqp : q = p
    · rw [hqp]
      exact hp
    · rw [hother q hqp] at hq
      exact h.live q hq
  · have hqp : q ≠ p := by
      rintro rfl
      rw [hself] at hq
      exact absurd hq nofun
    rw [hother q hqp] at hq ⊢
    exact h.blank q hq

theorem Known.becomeZombie (h : Known s Λs) (hp : (Λs p).active = true)
    (hnone : ∀ fd, (Λs p).slots fd = some none) (hother : ∀ q ≠ p, Λs' q = Λs q)
    (hself : Λs' p = { Λs p with active := false, slots := fun _ => none, inUse := none }) :
    Known (s.setStatus p .zombie) Λs' := by
  have hstatus : ∀ q ≠ p, (s.setStatus p .zombie).status q = s.status q :=
    fun q hq => Function.update_of_ne hq _ _
  have hchild := field_eq Local.child hother (by rw [hself])
  have hchildFree := field_eq Local.childFree hother (by rw [hself])
  refine
    { slots := fun q d r hr => ?_
      live := fun q hq => ?_
      blank := fun q hq => ?_
      vacant := fun q hq => ?_
      child := fun q c hq => ?_
      child_inj := fun q r c hq hr => h.child_inj q r c (by rwa [hchild q] at hq)
        (by rwa [hchild r] at hr)
      childFree := fun q c d hq hd => h.childFree q c d (by rwa [hchild q] at hq)
        (by rwa [hchildFree q] at hd) }
  · have hqp : q ≠ p := by
      rintro rfl
      rw [hself] at hr
      exact absurd hr nofun
    rw [hother q hqp] at hr
    exact h.slots q d r hr
  · have hqp : q ≠ p := by
      rintro rfl
      rw [hself] at hq
      exact absurd hq nofun
    rw [hother q hqp] at hq
    rw [hstatus q hqp]
    exact h.live q hq
  · by_cases hqp : q = p
    · subst hqp
      rw [hself]
      exact ⟨fun _ => rfl, rfl⟩
    · rw [hother q hqp] at hq ⊢
      exact h.blank q hq
  · by_cases hqp : q = p
    · subst hqp
      exact fun d => h.slots q d none (hnone d)
    · rw [hstatus q hqp] at hq
      exact h.vacant q hq
  · rw [hchild q] at hq
    rw [hstatus c (fun hc => h.not_child hp q (hc ▸ hq))]
    exact h.child q c hq

theorem Known.reap (h : Known s Λs) {c : π} (hc : s.status c = .zombie) :
    Known (s.setStatus c .unused) Λs := by
  have hstatus : ∀ q ≠ c, (s.setStatus c .unused).status q = s.status q :=
    fun q hq => Function.update_of_ne hq _ _
  refine { h with
    live := fun q hq => ?_
    vacant := fun q hq => ?_
    child := fun q c' hq => ?_ }
  · have hlive := h.live q hq
    rw [hstatus q (by rintro rfl; rw [hlive] at hc; exact absurd hc nofun)]
    exact hlive
  · by_cases hqc : q = c
    · subst hqc
      exact h.vacant q (.inr hc)
    · rw [hstatus q hqc] at hq
      exact h.vacant q hq
  · have hused := h.child q c' hq
    rw [hstatus c' (by rintro rfl; rw [hused] at hc; exact absurd hc nofun)]
    exact hused

end Known

/-! ### Operations -/

section Sound
variable [DecidableEq π]

omit [Fintype π] in
theorem update_other (L : Local π) : ∀ q ≠ p, Function.update Λs p L q = Λs q :=
  fun _ hq => Function.update_of_ne hq _ _

omit [Fintype π] in
theorem field_update {β : Type} (get : Local π → β) {L : Local π} (h : get L = get (Λs p)) (q : π) :
    get (Function.update Λs p L q) = get (Λs q) :=
  field_eq get (update_other L) (by rw [Function.update_self, h]) q

omit [Fintype π] in
/-- An operation after which `p` has something else in flight. -/
theorem Known.inFlight (h : Known s Λs) {L : Local π} (hopen : s'.openFiles = s.openFiles)
    (hstatus : s'.status = s.status) (hslots : L.slots = (Λs p).slots)
    (hactive : L.active = (Λs p).active) (hchild : L.child = (Λs p).child)
    (hfree : L.childFree = (Λs p).childFree)
    (hinUse : L.inUse = none ∨ L.inUse = (Λs p).inUse ∨ (Λs p).active = true) :
    Known s' (Function.update Λs p L) := by
  refine h.congr hopen hstatus (field_update Local.slots hslots) (field_update Local.active hactive)
    (field_update Local.child hchild) (field_update Local.childFree hfree) fun q hq hnone => ?_
  by_cases hqp : q = p
  · subst hqp
    rw [Function.update_self]
    obtain hL | hL | hL := hinUse
    · exact hL
    · rw [hL, hnone]
    · rw [hq] at hL
      exact absurd hL nofun
  · rwa [Function.update_of_ne hqp]

/-- An operation after which `p` has something else in flight, and no other references. -/
theorem Counted.inFlight (h : Counted s Λs) {L : Local π} (hfiles : s'.files = s.files)
    (hopen : s'.openFiles = s.openFiles) (hextra : L.extra = (Λs p).extra)
    (hfresh : L.fresh = (Λs p).fresh)
    (hinUse : ∀ f x, L.inUse = some (f, x) →
      (Λs p).inUse = some (f, x) ∨ (s.files f).data = .pipe x) :
    Counted s' (Function.update Λs p L) := by
  refine h.congr hfiles (fun q g => ?_) (field_update Local.fresh hfresh) fun q g y hq _ => ?_
  · unfold owned slotCount
    rw [field_update Local.extra hextra, hopen]
  · by_cases hqp : q = p
    · subst hqp
      rw [Function.update_self] at hq
      exact hinUse g y hq
    · rw [Function.update_of_ne hqp] at hq
      exact .inl hq

omit [DecidableEq π] in
theorem Good.congr (h : Good s Λs) (hfiles : s'.files = s.files)
    (hopen : s'.openFiles = s.openFiles) (hstatus : s'.status = s.status)
    (hpipes : s'.pipes = s.pipes) : Good s' Λs where
  counted := h.counted.congr hfiles
    (fun q f => by unfold owned slotCount; rw [hopen]) (fun _ => rfl) (fun _ _ _ hq _ => .inl hq)
  piped := h.piped.congr hfiles hpipes (fun _ => rfl) (fun _ => rfl)
  known := h.known.congr hopen hstatus (fun _ => rfl) (fun _ => rfl) (fun _ => rfl) (fun _ => rfl)
    (fun _ _ hq => hq)

theorem Good.fileAlloc (h : Good s Λs) {f : FileIndex} (hf : (s.files f).referenceCount = 0) :
    Good (s.setFile f { s.files f with referenceCount := 1 })
      (Function.update Λs p (((Λs p).addRef f 1).setFresh f true)) where
  counted := h.counted.fileAlloc hf (update_other _) (Function.update_self _ _ _)
  piped := by
    refine h.piped.file rfl rfl (update_other _) (by rw [Function.update_self]; rfl) fun x w => ?_
    have hnone := h.counted.empty f hf
    rw [Function.update_self]
    simp [File.holds, hnone, Local.setFresh, Local.addRef]
  known := h.known.inFlight rfl rfl rfl rfl rfl rfl (.inl rfl)

theorem Good.fileSet (h : Good s Λs) {f : FileIndex} {data : FileData} {w : Bool}
    (hf : (Λs p).fresh f = true) (hends : ∀ x, data = .pipe x → 1 ≤ (Λs p).ends x w) :
    Good (s.setFile f { s.files f with data := data, isWriteable := w })
      (Function.update Λs p (((Λs p).dropEnd data w).setFresh f false)) where
  counted := h.counted.fileSet hf (update_other _) (Function.update_self _ _ _)
  piped := by
    obtain ⟨hone, -, hnone⟩ := h.counted.fresh p f hf
    refine h.piped.file rfl rfl (update_other _) (by rw [Function.update_self]; rfl) fun x v => ?_
    rw [Function.update_self]
    by_cases hx : data = .pipe x ∧ w = v
    · obtain ⟨rfl, rfl⟩ := hx
      have hpos := hends x rfl
      simp only [File.holds, hone, hnone, Local.setFresh, Local.dropEnd]
      simp
      omega
    · simp only [File.holds, hone, hnone, Local.setFresh, Local.dropEnd, if_neg hx]
      simp [hx]
  known := h.known.inFlight rfl rfl rfl rfl rfl rfl (.inl rfl)

theorem Good.fileData (h : Good s Λs) {f : FileIndex} {x : ℕ} (hactive : (Λs p).active = true)
    (hdata : (s.files f).data = .pipe x) :
    Good s (Function.update Λs p { Λs p with inUse := some (f, x) }) where
  counted := by
    refine h.counted.inFlight rfl rfl rfl rfl fun g y hq => ?_
    obtain ⟨rfl, rfl⟩ := Prod.mk.inj (Option.some.inj hq)
    exact .inr hdata
  piped := h.piped.congr rfl rfl (field_update Local.ends rfl) (field_update Local.freeing rfl)
  known := h.known.inFlight rfl rfl rfl rfl rfl rfl (.inr (.inr hactive))

theorem holds_duplicate {e : File} (he : e.referenceCount ≠ 0) (x : ℕ) (w : Bool) :
    File.holds { e with referenceCount := e.referenceCount + 1 } x w = e.holds x w := by
  simp [File.holds, he]

theorem Good.fileDuplicate (h : Good s Λs) {f : FileIndex} (hf : (Λs p).Has f) :
    Good (s.duplicate f) (Function.update Λs p (((Λs p).addRef f 1).setFresh f false)) where
  counted := by
    refine h.counted.duplicate (h.known.owned_of_has hf) rfl ?_ (update_other _)
      (by rw [Function.update_self]; rfl) (by rw [Function.update_self]; rfl)
      fun hne => absurd rfl hne
    exact owned_addRef f 1 rfl (update_other _) (by rw [Function.update_self]; rfl)
  piped := by
    have hle := h.counted.owned_le p f
    have hhas := h.known.owned_of_has hf
    refine h.piped.file rfl rfl (update_other _) (by rw [Function.update_self]; rfl) fun x w => ?_
    rw [Function.update_self, holds_duplicate (by omega)]
    rfl
  known := h.known.inFlight rfl rfl rfl rfl rfl rfl (.inl rfl)

/-- A reference is given up and another one, or the data, is left. -/
theorem Good.fileDrop (h : Good s Λs) {f : FileIndex} (hf : (Λs p).Has f)
    {r : Option (FileData × Bool)} (hr : s.fileDrop f = .done r s') :
    Good s' (Function.update Λs p (r.elim (((Λs p).addRef f (-1)).setFresh f false)
      (fun e => (((Λs p).addRef f (-1)).setFresh f false).addEnd e.1 e.2))) := by
  have hle := h.counted.owned_le p f
  have hhas := h.known.owned_of_has hf
  unfold State.fileDrop at hr
  have hlt : ¬ (s.files f).referenceCount < 1 := by omega
  simp only [if_neg hlt] at hr
  by_cases hlast : 0 < (s.files f).referenceCount - 1
  · rw [if_pos hlast] at hr
    obtain ⟨rfl, rfl⟩ := Outcome.done.inj hr
    refine ⟨?_, ?_, h.known.inFlight rfl rfl rfl rfl rfl rfl (.inl rfl)⟩
    · exact h.counted.fileDrop hhas rfl rfl rfl (if_neg (Nat.ne_of_gt hlast)).symm (update_other _)
        (by rw [Function.update_self]; rfl) (by rw [Function.update_self]; rfl)
        (by rw [Function.update_self]; rfl)
    · refine h.piped.file rfl rfl (update_other _) (by rw [Function.update_self]; rfl) fun x w => ?_
      have hpos : (s.files f).referenceCount ≠ 0 := by omega
      rw [Function.update_self]
      simp [File.holds, hpos, Nat.ne_of_gt hlast, Local.setFresh, Local.addRef]
  · rw [if_neg hlast] at hr
    obtain ⟨rfl, rfl⟩ := Outcome.done.inj hr
    refine ⟨?_, ?_, h.known.inFlight rfl rfl rfl rfl rfl rfl (.inl rfl)⟩
    · exact h.counted.fileDrop hhas rfl rfl (by simp only; omega) rfl (update_other _)
        (by rw [Function.update_self]; rfl) (by rw [Function.update_self]; rfl)
        (by rw [Function.update_self]; rfl)
    · refine h.piped.file rfl rfl (update_other _) (by rw [Function.update_self]; rfl) fun x w => ?_
      have hpos : (s.files f).referenceCount ≠ 0 := by omega
      rw [Function.update_self]
      simp [File.holds, hpos, Local.setFresh, Local.addRef, Local.addEnd, Nat.add_comm]

theorem Good.openFile (h : Good s Λs) {fd : FileDescriptor} (hactive : (Λs p).active = true) :
    Good s (Function.update Λs p ((Λs p).know fd (s.openFiles p fd))) where
  counted := h.counted.inFlight rfl rfl rfl rfl fun _ _ hq => .inl hq
  piped := h.piped.congr rfl rfl (field_update Local.ends rfl) (field_update Local.freeing rfl)
  known := h.known.know hactive (update_other _) (Function.update_self _ _ _)

/-- A descriptor is set or cleared, and what it pointed to is in flight. -/
theorem Good.setOpenFile (h : Good s Λs) {fd : FileDescriptor} {r : Option FileIndex}
    {f : FileIndex} {n : ℤ} (hactive : (Λs p).active = true)
    (hmove : ∀ g, ((if s.openFiles p fd = some g then 1 else 0 : ℕ) : ℤ) =
      ((if r = some g then 1 else 0 : ℕ) : ℤ) + if g = f then n else 0) :
    Good (s.setOpenFile p fd r) (Function.update Λs p (((Λs p).addRef f n).know fd r)) where
  counted := by
    have hsame : (((Λs p).addRef f n).know fd r).inUse = (Λs p).inUse := rfl
    have hinUse := field_update Local.inUse hsame
    refine h.counted.congr rfl (owned_setOpenFile (update_other _)
      (by rw [Function.update_self]; rfl) hmove) (field_update Local.fresh rfl) fun q g y hq _ => ?_
    rw [hinUse] at hq
    exact .inl hq
  piped := h.piped.congr rfl rfl (field_update Local.ends rfl) (field_update Local.freeing rfl)
  known := h.known.setOpenFile hactive (update_other _) (Function.update_self _ _ _)

theorem Good.pipeAlloc (h : Good s Λs) {page : ℕ} (hpage : s.pipes page = none)
    (hfiles : s'.files = s.files) (hopen : s'.openFiles = s.openFiles)
    (hstatus : s'.status = s.status)
    (hpipes : s'.pipes = Function.update s.pipes page (some ⟨true, true⟩)) :
    Good s' (Function.update Λs p
      (((Λs p).addEnd (.pipe page) false).addEnd (.pipe page) true)) where
  counted := h.counted.inFlight hfiles hopen rfl rfl fun _ _ hq => .inl hq
  piped := by
    refine h.piped.page hfiles hpipes (update_other _) (fun x w => ?_) (fun x => ?_)
    · rw [Function.update_self, hpage]
      by_cases hx : x = page
      · subst hx
        cases w <;> simp [endOpen, Pipe.isOpen, Local.addEnd]
      · simp [hx, Ne.symm hx, Local.addEnd]
    · rw [Function.update_self, hpage]
      simp [Local.addEnd]
  known := h.known.inFlight hopen hstatus rfl rfl rfl rfl (.inr (.inl rfl))

theorem Good.pipeClose (h : Good s Λs) {page : ℕ} {w r : Bool} (hends : 1 ≤ (Λs p).ends page w)
    (hr : s.pipeClose page w = .done r s') :
    Good s' (Function.update Λs p { (Λs p).dropEnd (.pipe page) w with
      freeing := fun x => (Λs p).freeing x + if page = x ∧ r = true then 1 else 0 }) := by
  obtain ⟨pipe, hpipe, hopen, hone⟩ := h.piped.open_of_ends hends
  simp only [State.pipeClose, hpipe] at hr
  obtain ⟨rfl, rfl⟩ := Outcome.done.inj hr
  have hlive : pipe ≠ ⟨false, false⟩ := by
    rintro rfl
    cases w <;> exact absurd hopen nofun
  refine ⟨?_, ?_, h.known.inFlight rfl rfl rfl rfl rfl rfl (.inr (.inl rfl))⟩
  · exact h.counted.inFlight rfl rfl rfl rfl fun _ _ hq => .inl hq
  · refine h.piped.page rfl rfl (update_other _) (fun x v => ?_) (fun x => ?_)
    · rw [Function.update_self, hpipe]
      by_cases hx : x = page
      · subst hx
        obtain ⟨readIsOpen, writeIsOpen⟩ := pipe
        cases w <;> cases v <;>
          simp_all [endOpen, Pipe.isOpen, Pipe.close, Local.dropEnd]
      · simp [hx, Ne.symm hx, Local.dropEnd]
    · rw [Function.update_self, hpipe]
      by_cases hx : x = page
      · subst hx
        simp only [if_true, true_and, Option.some.injEq, if_neg hlive, Nat.add_zero]
        obtain ⟨readIsOpen, writeIsOpen⟩ := pipe.close w
        cases readIsOpen <;> cases writeIsOpen <;> rfl
      · simp [hx, Ne.symm hx]

theorem Good.freePage (h : Good s Λs) {page : ℕ} (hfreeing : 1 ≤ (Λs p).freeing page) :
    Good (s.setPipe page none) (Function.update Λs p
      { Λs p with freeing := fun x => (Λs p).freeing x - if page = x then 1 else 0 }) := by
  obtain ⟨hclosed, hone⟩ := h.piped.closed_of_freeing hfreeing
  refine ⟨?_, ?_, h.known.inFlight rfl rfl rfl rfl rfl rfl (.inr (.inl rfl))⟩
  · exact h.counted.inFlight rfl rfl rfl rfl fun _ _ hq => .inl hq
  · refine h.piped.page rfl rfl (update_other _) (fun x v => ?_) (fun x => ?_)
    · rw [Function.update_self, hclosed]
      by_cases hx : x = page
      · cases v <;> simp [endOpen, Pipe.isOpen]
      · simp [hx]
    · rw [Function.update_self, hclosed]
      by_cases hx : x = page
      · subst hx
        simp [hone]
      · simp [hx, Ne.symm hx]

theorem Good.duplicateTo (h : Good s Λs) {c : π} {fd : FileDescriptor} {f : FileIndex}
    (hc : (Λs p).child = some c) (hfree : (Λs p).childFree fd = true) (hf : (Λs p).Has f) :
    Good ((s.duplicate f).setOpenFile c fd (some f))
      (Function.update Λs p { (Λs p).setFresh f false with
        childFree := Function.update (Λs p).childFree fd false }) where
  counted := by
    have hnone := h.known.childFree p c fd hc hfree
    have hsame : ({ (Λs p).setFresh f false with
      childFree := Function.update (Λs p).childFree fd false } : Local π).extra =
        (Λs p).extra := rfl
    have hextra := field_update Local.extra hsame
    have hinactive : (Λs c).active = false :=
      h.known.inactive (fun hlive => absurd ((h.known.child p c hc).symm.trans hlive) nofun)
    refine h.counted.duplicate (h.known.owned_of_has hf) rfl (fun q g => ?_)
      (update_other _) (by rw [Function.update_self]) (by rw [Function.update_self]; rfl)
      fun _ => (h.known.blank c hinactive).2
    unfold owned
    rw [hextra]
    by_cases hq : q = c
    · subst hq
      have hcount := slotCount_setOpenFile (s.duplicate f) q fd (some f) g
      have hempty : ¬ (s.duplicate f).openFiles q fd = some g := fun heq =>
        absurd (hnone.symm.trans heq) nofun
      have hold : slotCount (s.duplicate f) q g = slotCount s q g := rfl
      rw [if_neg hempty, hold] at hcount
      by_cases hg : g = f
      · rw [if_pos (congrArg some hg.symm)] at hcount
        rw [if_pos ⟨rfl, hg⟩]
        omega
      · rw [if_neg fun heq => hg (Option.some.inj heq).symm] at hcount
        rw [if_neg fun heq => hg heq.2]
        omega
    · rw [slotCount_setOpenFile_of_ne hq, if_neg fun heq => hq heq.1, add_zero]
      rfl
  piped := by
    have hle := h.counted.owned_le p f
    have hhas := h.known.owned_of_has hf
    refine h.piped.file rfl rfl (update_other _) (by rw [Function.update_self]; rfl)
      fun x w => ?_
    rw [Function.update_self, holds_duplicate (by omega)]
    rfl
  known := h.known.duplicateTo hc (update_other _) (Function.update_self _ _ _)

/-- A step that only changes the process table, and knowledge of it. -/
theorem Good.ofKnown (h : Good s Λs) {L : Local π} (hfiles : s'.files = s.files)
    (hopen : s'.openFiles = s.openFiles) (hpipes : s'.pipes = s.pipes)
    (hextra : L.extra = (Λs p).extra) (hfresh : L.fresh = (Λs p).fresh)
    (hinUse : ∀ f x, L.inUse = some (f, x) → (Λs p).inUse = some (f, x))
    (hends : L.ends = (Λs p).ends)
    (hfreeing : L.freeing = (Λs p).freeing) (hknown : Known s' (Function.update Λs p L)) :
    Good s' (Function.update Λs p L) where
  counted := h.counted.inFlight hfiles hopen hextra hfresh fun f x hq => .inl (hinUse f x hq)
  piped := h.piped.congr hfiles hpipes (field_update Local.ends hends)
    (field_update Local.freeing hfreeing)
  known := hknown

/-- No operation that is allowed fails. -/
theorem Good.ne_stop (h : Good s Λs) {o : Op π} (hpre : pre o (Λs p)) (reason : Fault) :
    State.perform p o s ≠ .stop reason s' := by
  have hcount : ∀ f, (Λs p).Has f → ¬ (s.files f).referenceCount < 1 := fun f hf => by
    have hle := h.counted.owned_le p f
    have hhas := h.known.owned_of_has hf
    omega
  cases o with
  | fileAlloc => simp only [State.perform]; split <;> nofun
  | fileDuplicate f =>
    simp only [State.perform, if_neg (hcount f hpre)]
    nofun
  | fileDrop f =>
    simp only [State.perform, State.fileDrop, if_neg (hcount f hpre)]
    split <;> nofun
  | fileDescriptorAllocate f => simp only [State.perform]; split <;> nofun
  | pipeUse page =>
    obtain ⟨f, hf, hhas⟩ := hpre
    have howned := h.known.owned_of_has hhas
    have hle := h.counted.owned_le p f
    have hpage := h.piped.open_of_holds (f := f) (by omega) (h.counted.inUse p f page hf howned)
    simp only [State.perform, if_neg hpage]
    nofun
  | pipeClose page w =>
    obtain ⟨pipe, hpipe, -⟩ := h.piped.open_of_ends hpre
    simp only [State.perform, State.pipeClose, hpipe]
    nofun
  | freePage page =>
    obtain ⟨hpipe, -⟩ := h.piped.closed_of_freeing hpre
    simp only [State.perform, State.freePage, hpipe]
    nofun
  | processAlloc => simp only [State.perform]; split <;> nofun
  | duplicateTo child fd f =>
    simp only [State.perform, if_neg (hcount f hpre.2.2)]
    nofun
  | _ => nofun

/-- Every operation that is allowed keeps what holds of all processes. -/
theorem sound : Pool.Sound (typestate (π := π)) State.perform Good (fun _ _ _ => True) where
  fact _ _ _ _ := trivial
  step s Λs p o r s' h _ hpre _ hr := by
    have hhas : ∀ f, (Λs p).Has f → ¬ (s.files f).referenceCount < 1 := fun f hf => by
      have hle := h.counted.owned_le p f
      have howned := h.known.owned_of_has hf
      omega
    have hsame : ∀ s₁ : State π, Good s₁ Λs → Good s₁ (Function.update Λs p (Λs p)) :=
      fun s₁ h₁ => by rwa [Function.update_eq_self]
    cases o with
    | succeeds =>
      obtain ⟨rfl, rfl⟩ := Outcome.done.inj hr
      exact ⟨Λs p, rfl, hsame _ (h.congr rfl rfl rfl rfl)⟩
    | fileAlloc =>
      simp only [State.perform] at hr
      split at hr
      next f hf =>
        obtain ⟨rfl, rfl⟩ := Outcome.done.inj hr
        have hzero : (s.files f).referenceCount = 0 := by simpa using List.find?_some hf
        exact ⟨_, ⟨fun hf => hhas f hf (by omega), rfl⟩, h.fileAlloc hzero⟩
      next =>
        obtain ⟨rfl, rfl⟩ := Outcome.done.inj hr
        exact ⟨_, rfl, hsame _ h⟩
    | fileSet f data w =>
      obtain ⟨rfl, rfl⟩ := Outcome.done.inj hr
      exact ⟨_, rfl, h.fileSet hpre.1 hpre.2⟩
    | fileData f =>
      obtain ⟨rfl, rfl⟩ := Outcome.done.inj hr
      simp only [typestate, post]
      cases hdata : (s.files f).data with
      | pipe page => exact ⟨_, rfl, h.fileData hpre.1 hdata⟩
      | _ => exact ⟨_, rfl, hsame _ h⟩
    | fileDuplicate f =>
      simp only [State.perform, if_neg (hhas f hpre)] at hr
      obtain ⟨rfl, rfl⟩ := Outcome.done.inj hr
      exact ⟨_, rfl, h.fileDuplicate hpre⟩
    | fileDrop f => exact ⟨_, rfl, h.fileDrop hpre hr⟩
    | openFile fd =>
      obtain ⟨rfl, rfl⟩ := Outcome.done.inj hr
      exact ⟨_, rfl, h.openFile hpre⟩
    | fileDescriptorAllocate f =>
      simp only [State.perform] at hr
      split at hr
      next fd hfd =>
        obtain ⟨rfl, rfl⟩ := Outcome.done.inj hr
        have hnone : s.openFiles p fd = none := by simpa using List.find?_some hfd
        refine ⟨_, ⟨fun g hg => ?_, rfl⟩, h.setOpenFile hpre fun g => ?_⟩
        · have hslot := h.known.slots p fd _ hg
          rw [hnone] at hslot
          exact absurd hslot nofun
        · by_cases hg : g = f
          · simp [hnone, hg]
          · simp [hnone, hg, Ne.symm hg]
      next =>
        obtain ⟨rfl, rfl⟩ := Outcome.done.inj hr
        exact ⟨_, rfl, hsame _ h⟩
    | clearDescriptor fd =>
      obtain ⟨rfl, rfl⟩ := Outcome.done.inj hr
      obtain ⟨hactive, f, hf⟩ := hpre
      have hslot := h.known.slots p fd _ hf
      refine ⟨_, ⟨f, hf, rfl⟩, h.setOpenFile hactive fun g => ?_⟩
      by_cases hg : g = f
      · simp [hslot, hg]
      · simp [hslot, hg, Ne.symm hg]
    | pipeAlloc =>
      obtain ⟨rfl, rfl⟩ := Outcome.done.inj hr
      refine ⟨_, rfl, ?_⟩
      unfold State.pipeAlloc
      cases s.freeList s.requests with
      | none => exact hsame _ (h.congr rfl rfl rfl rfl)
      | some page =>
        by_cases hpage : s.pipes page = none
        · simp only [if_pos hpage]
          exact h.pipeAlloc hpage rfl rfl rfl rfl
        · simp only [if_neg hpage]
          exact hsame _ (h.congr rfl rfl rfl rfl)
    | pipeUse page =>
      simp only [State.perform] at hr
      split at hr
      · exact absurd hr nofun
      · obtain ⟨rfl, rfl⟩ := Outcome.done.inj hr
        exact ⟨_, rfl, hsame _ h⟩
    | pipeClose page w => exact ⟨_, rfl, h.pipeClose hpre hr⟩
    | freePage page =>
      obtain ⟨hpipe, -⟩ := h.piped.closed_of_freeing hpre
      simp only [State.perform, State.freePage, hpipe] at hr
      obtain ⟨rfl, rfl⟩ := Outcome.done.inj hr
      exact ⟨_, rfl, h.freePage hpre⟩
    | processAlloc =>
      refine ⟨_, rfl, ?_⟩
      simp only [State.perform] at hr
      split at hr
      next c hc =>
        obtain ⟨rfl, rfl⟩ := Outcome.done.inj hr
        have hunused : s.status c = .unused := by simpa using List.find?_some hc
        exact h.ofKnown rfl rfl rfl rfl rfl (fun _ _ hq => hq) rfl rfl
          (h.known.processAlloc hunused (update_other _) (Function.update_self _ _ _))
      next =>
        obtain ⟨rfl, rfl⟩ := Outcome.done.inj hr
        exact hsame _ h
    | duplicateTo c fd f =>
      obtain ⟨hc, hfree, hf⟩ := hpre
      simp only [State.perform, if_neg (hhas f hf)] at hr
      obtain ⟨rfl, rfl⟩ := Outcome.done.inj hr
      exact ⟨_, rfl, h.duplicateTo hc hfree hf⟩
    | processFree c =>
      obtain ⟨rfl, rfl⟩ := Outcome.done.inj hr
      obtain ⟨hc, hfree⟩ := hpre
      exact ⟨_, rfl, h.ofKnown rfl rfl rfl rfl rfl (fun _ _ hq => hq) rfl rfl
        (h.known.release hc (fun _ fd => h.known.childFree p c fd hc (hfree fd)) (update_other _)
          (Function.update_self _ _ _))⟩
    | setRunnable c =>
      obtain ⟨rfl, rfl⟩ := Outcome.done.inj hr
      exact ⟨_, rfl, h.ofKnown rfl rfl rfl rfl rfl (fun _ _ hq => hq) rfl rfl
        (h.known.release hpre (fun hstatus => hstatus.elim nofun nofun) (update_other _)
          (Function.update_self _ _ _))⟩
    | becomeZombie =>
      obtain ⟨rfl, rfl⟩ := Outcome.done.inj hr
      obtain ⟨hactive, hnone⟩ := hpre
      exact ⟨_, rfl, h.ofKnown rfl rfl rfl rfl rfl nofun rfl rfl
        (h.known.becomeZombie hactive hnone (update_other _) (Function.update_self _ _ _))⟩
    | reap c =>
      obtain ⟨rfl, rfl⟩ := Outcome.done.inj hr
      refine ⟨_, rfl, hsame _ ?_⟩
      by_cases hc : s.status c = .zombie
      · rw [if_pos hc]
        exact ⟨h.counted.congr rfl (fun _ _ => rfl) (fun _ => rfl) (fun _ _ _ hq _ => .inl hq),
          h.piped.congr rfl rfl (fun _ => rfl) (fun _ => rfl), h.known.reap hc⟩
      · rw [if_neg hc]
        exact h

end Sound

end Invariant

end Zigmaos.OpenFiles
