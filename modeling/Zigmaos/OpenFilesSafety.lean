import Zigmaos.OpenFilesInvariant

/-!
# The counts of open files are right

Each system call, on its own, only does what its references allow, and leaves
nothing in flight. So between the calls the count of a file is the number of
descriptors that point to it, whatever the order of the operations.
-/
namespace Zigmaos.OpenFiles
open Program
open FileSystem (FileIndex FileDescriptor nFile noFile)

/-! ## The system calls are safe -/

namespace Local
variable {π : Type} {L L' : Local π} {e : FileIndex → ℤ} {child : Option π}

/-- Nothing is in flight but the references `e` and a child. -/
structure Owes (L : Local π) (e : FileIndex → ℤ) (child : Option π) : Prop where
  active : L.active = true
  extra : ∀ f, L.extra f = e f
  fresh : ∀ f, L.fresh f = false
  ends : ∀ x w, L.ends x w = 0
  freeing : ∀ x, L.freeing x = 0
  child : L.child = child

/-- One count changes. -/
def bump (e : FileIndex → ℤ) (f : FileIndex) (n : ℤ) : FileIndex → ℤ :=
  fun g => e g + if g = f then n else 0

/-- `L` after `File.close`. -/
def drop (L : Local π) (f : FileIndex) : Local π := (L.addRef f (-1)).setFresh f false

theorem setFresh_fresh (L : Local π) (f g : FileIndex) (b : Bool) :
    (L.setFresh f b).fresh g = if g = f then b else L.fresh g := by
  unfold setFresh
  by_cases hg : g = f
  · simp only [hg, Function.update_self, if_true]
  · simp only [Function.update_of_ne hg, if_neg hg]

section Fields
variable (L : Local π) (f : FileIndex) (n : ℤ) (b w : Bool) (data : FileData) (x : ℕ) (v : Bool)

@[simp] theorem addRef_fresh : (L.addRef f n).fresh = L.fresh := rfl
@[simp] theorem addRef_ends : (L.addRef f n).ends = L.ends := rfl
@[simp] theorem setFresh_extra : (L.setFresh f b).extra = L.extra := rfl
@[simp] theorem setFresh_ends : (L.setFresh f b).ends = L.ends := rfl
@[simp] theorem setFresh_active : (L.setFresh f b).active = L.active := rfl
@[simp] theorem setFresh_freeing : (L.setFresh f b).freeing = L.freeing := rfl
@[simp] theorem setFresh_child : (L.setFresh f b).child = L.child := rfl
@[simp] theorem addEnd_active : (L.addEnd data w).active = L.active := rfl
@[simp] theorem addEnd_freeing : (L.addEnd data w).freeing = L.freeing := rfl
@[simp] theorem addEnd_child : (L.addEnd data w).child = L.child := rfl
@[simp] theorem dropEnd_active : (L.dropEnd data w).active = L.active := rfl
@[simp] theorem dropEnd_freeing : (L.dropEnd data w).freeing = L.freeing := rfl
@[simp] theorem dropEnd_child : (L.dropEnd data w).child = L.child := rfl
@[simp] theorem addEnd_extra : (L.addEnd data w).extra = L.extra := rfl
@[simp] theorem dropEnd_extra : (L.dropEnd data w).extra = L.extra := rfl
@[simp] theorem addEnd_fresh : (L.addEnd data w).fresh = L.fresh := rfl
@[simp] theorem dropEnd_fresh : (L.dropEnd data w).fresh = L.fresh := rfl

@[simp] theorem addEnd_ends : (L.addEnd data w).ends x v =
    L.ends x v + if data = .pipe x ∧ w = v then 1 else 0 := rfl

@[simp] theorem dropEnd_ends : (L.dropEnd data w).ends x v =
    L.ends x v - if data = .pipe x ∧ w = v then 1 else 0 := rfl

end Fields

theorem Owes.idle (h : L.Owes e none) (he : ∀ f, e f = 0) : L.Idle where
  extra f := by rw [h.extra, he]
  fresh := h.fresh
  ends := h.ends
  freeing := h.freeing
  child := h.child

theorem Owes.know (h : L.Owes e child) (fd : FileDescriptor) (r : Option FileIndex) :
    (L.know fd r).Owes e child := ⟨h.active, h.extra, h.fresh, h.ends, h.freeing, h.child⟩

theorem Owes.addRef (h : L.Owes e child) (f : FileIndex) (n : ℤ) :
    (L.addRef f n).Owes (bump e f n) child :=
  ⟨h.active, fun g => by rw [addRef_extra, h.extra]; rfl, h.fresh, h.ends, h.freeing, h.child⟩

theorem Owes.setFresh (h : L.Owes e child) (f : FileIndex) : (L.setFresh f false).Owes e child :=
  ⟨h.active, h.extra, fun g => by rw [setFresh_fresh, h.fresh, ite_self], h.ends, h.freeing,
    h.child⟩

theorem Owes.drop (h : L.Owes e child) (f : FileIndex) : (L.drop f).Owes (bump e f (-1)) child :=
  (h.addRef f (-1)).setFresh f

theorem Owes.has (h : L.Owes e child) {f : FileIndex} (hf : 1 ≤ e f) : L.Has f := by
  unfold Has
  rw [h.extra]
  omega

theorem knows_pos {fd : FileDescriptor} {f : FileIndex} (h : L.slots fd = some (some f)) :
    1 ≤ L.knows f := by
  have hle := Finset.single_le_sum (f := fun d => if L.slots d = some (some f) then 1 else 0)
    (fun _ _ => Nat.zero_le _) (Finset.mem_univ fd)
  simp only [if_pos h] at hle
  exact hle

theorem two_le_knows {fd d : FileDescriptor} {f : FileIndex} (hne : fd ≠ d)
    (h : L.slots fd = some (some f)) (h' : L.slots d = some (some f)) : 2 ≤ L.knows f := by
  have hle := Finset.sum_le_sum_of_subset (f := fun d => if L.slots d = some (some f) then 1 else 0)
    (Finset.subset_univ {fd, d})
  rw [Finset.sum_pair hne, if_pos h, if_pos h'] at hle
  exact hle

@[simp] theorem know_slots_self (L : Local π) (fd : FileDescriptor) (r : Option FileIndex) :
    (L.know fd r).slots fd = some r := Function.update_self _ _ _

theorem know_slots_of_ne {fd d : FileDescriptor} (hd : d ≠ fd) (r : Option FileIndex) :
    (L.know fd r).slots d = L.slots d := Function.update_of_ne hd _ _

theorem Owes.has_of_slot (h : L.Owes (fun _ => 0) child) {fd : FileDescriptor} {f : FileIndex}
    (hf : L.slots fd = some (some f)) : L.Has f := by
  have hpos := knows_pos hf
  unfold Has
  rw [h.extra]
  omega

theorem dropEnd_addEnd (L : Local π) (data : FileData) (w : Bool) :
    (L.addEnd data w).dropEnd data w = L := by
  unfold addEnd dropEnd
  simp only [Nat.add_sub_cancel]

theorem addEnd_of_ne {data : FileData} (h : ∀ x, data ≠ .pipe x) (w : Bool) :
    L.addEnd data w = L := by
  unfold addEnd
  simp only [h, false_and, if_false, Nat.add_zero]

end Local

section Safe
open Typestate
variable {π : Type} {L : Local π} {e : FileIndex → ℤ} {child : Option π} {f : FileIndex}

theorem safe_closeEnd {page : ℕ} {w : Bool} (h : 1 ≤ L.ends page w) :
    typestate.Safe (Pipe.closeEnd page w) L fun _ L' => L' = L.dropEnd (.pipe page) w := by
  refine safe_op_bind (fun _ => h) fun _ r L₁ h₁ => ?_
  obtain rfl := h₁
  cases r with
  | false =>
    refine safe_when nofun fun _ _ => ?_
    simp only [Bool.false_eq_true, and_false, if_false, Nat.add_zero]
    rfl
  | true =>
    refine safe_when (fun _ => safe_op (fun _ => ?_) fun _ _ L₂ h₂ _ => ?_)
      (fun hne => absurd rfl hne)
    · change 1 ≤ L.freeing page + if page = page ∧ true = true then 1 else 0
      rw [if_pos ⟨rfl, rfl⟩]
      omega
    · obtain rfl := h₂
      simp only [and_true, Nat.add_sub_cancel]
      rfl

theorem safe_close (h : L.Has f) :
    typestate.Safe (File.close f) L fun _ L' => L' = L.drop f := by
  refine safe_op_bind (fun _ => h) fun _ r L₁ h₁ => ?_
  obtain rfl := h₁
  cases r with
  | none => exact safe_pure fun _ => rfl
  | some r =>
    obtain ⟨data, w⟩ := r
    cases data with
    | pipe page =>
      refine (safe_closeEnd ?_).mono fun _ _ _ hL => ?_
      · change 1 ≤ _ + if FileData.pipe page = .pipe page ∧ w = w then 1 else 0
        rw [if_pos ⟨rfl, rfl⟩]
        omega
      · rw [hL]
        exact Local.dropEnd_addEnd _ _ _
    | none => exact safe_pure fun _ => Local.addEnd_of_ne (by simp) w
    | inode => exact safe_pure fun _ => Local.addEnd_of_ne (by simp) w

/-- Close a file and go on. -/
theorem safe_close_bind {α : Type} {k : Prog π α} {Q : α → Local π → Prop} (hL : L.Owes e child)
    (hf : 1 ≤ e f) (hk : ∀ L', L'.Owes (Local.bump e f (-1)) child → L'.slots = L.slots →
      typestate.Safe k L' Q) : typestate.Safe (File.close f >>= fun _ => k) L Q :=
  (safe_close (hL.has hf)).bind fun _ _ hL' => hL' ▸ hk _ (hL.drop f) rfl

theorem safe_openInode (hL : L.Owes (fun _ => 0) none) (w : Bool) :
    typestate.Safe (openInode w) L fun _ L' => L'.Idle := by
  refine safe_op_bind (fun _ => trivial) fun _ r L₁ h₁ => ?_
  obtain rfl : L = L₁ := h₁.symm
  cases r with
  | false => exact safe_pure fun _ => hL.idle fun _ => rfl
  | true =>
    refine safe_op_bind (fun _ => trivial) fun _ r L₁ h₁ => ?_
    cases r with
    | none =>
      obtain rfl := h₁
      exact safe_pure fun _ => hL.idle fun _ => rfl
    | some f =>
      obtain ⟨-, rfl⟩ := h₁
      refine safe_op_bind (fun _ => ⟨by rw [Local.setFresh_fresh, if_pos rfl], fun _ => nofun⟩)
        fun _ _ L₂ h₂ => ?_
      have hL₂ : L₂.Owes (Local.bump (fun _ => 0) f 1) none := by
        obtain rfl := h₂
        have hadd := hL.addRef f 1
        refine ⟨hadd.active, hadd.extra, fun g => ?_, fun x v => ?_, hadd.freeing, hadd.child⟩
        · simp only [Local.setFresh_fresh, Local.dropEnd_fresh, Local.addRef_fresh, hL.fresh]
          split <;> rfl
        · simp [hL.ends]
      refine safe_op_bind (fun _ => hL₂.active) fun _ r L₃ h₃ => ?_
      cases r with
      | none =>
        obtain rfl := h₃
        refine safe_close_bind hL₂ (by simp [Local.bump]) fun L' hL' _ => safe_pure fun _ =>
          hL'.idle fun g => ?_
        simp only [Local.bump]
        split <;> rfl
      | some fd =>
        obtain ⟨-, rfl⟩ := h₃
        refine safe_pure fun _ => ((hL₂.addRef f (-1)).know fd (some f)).idle fun g => ?_
        simp only [Local.bump]
        split <;> rfl

theorem safe_dup (hL : L.Owes (fun _ => 0) none) (fd : FileDescriptor) :
    typestate.Safe (dup fd) L fun _ L' => L'.Idle := by
  refine safe_op_bind (fun _ => hL.active) fun _ r L₁ h₁ => ?_
  obtain rfl := h₁
  have hL₁ := hL.know fd r
  cases r with
  | none => exact safe_pure fun _ => hL₁.idle fun _ => rfl
  | some f =>
    refine safe_op_bind (fun _ => hL₁.active) fun _ r L₂ h₂ => ?_
    cases r with
    | none =>
      obtain rfl := h₂
      exact safe_pure fun _ => hL₁.idle fun _ => rfl
    | some d =>
      obtain ⟨hd, rfl⟩ := h₂
      have hne : fd ≠ d := by
        rintro rfl
        exact hd f (Local.know_slots_self L fd (some f))
      have hL₂ := (hL₁.addRef f (-1)).know d (some f)
      refine safe_op_bind (fun _ => ?_) fun _ _ L₃ h₃ => ?_
      · have hold : ((L.know fd (some f)).addRef f (-1)).slots fd = some (some f) :=
          Local.know_slots_self L fd (some f)
        have htwo := Local.two_le_knows hne
          ((Local.know_slots_of_ne hne (some f)).trans hold) (Local.know_slots_self _ d (some f))
        change 1 ≤ _ + _
        rw [hL₂.extra, Local.bump, if_pos rfl]
        omega
      · obtain rfl := h₃
        refine safe_pure fun _ => ((hL₂.addRef f 1).setFresh f).idle fun g => ?_
        simp only [Local.bump]
        split <;> rfl

theorem safe_clear {α : Type} {k : Prog π α} {Q : α → Local π → Prop} {fd : FileDescriptor}
    (hL : L.Owes e child) (hf : L.slots fd = some (some f))
    (hk : ∀ L', L'.Owes (Local.bump e f 1) child → L'.slots fd = some none →
      (∀ d ≠ fd, L'.slots d = L.slots d) → typestate.Safe k L' Q) :
    typestate.Safe (invoke (.clearDescriptor fd) >>= fun _ => k) L Q := by
  refine safe_op_bind (fun _ => ⟨hL.active, f, hf⟩) fun _ _ L₁ h₁ => ?_
  obtain ⟨g, hg, rfl⟩ := h₁
  obtain rfl : f = g := Option.some.inj (Option.some.inj (hf.symm.trans hg))
  exact hk _ ((hL.addRef f 1).know fd none) (Local.know_slots_self _ fd none)
    fun d hd => Local.know_slots_of_ne hd none

theorem safe_closeDescriptor (hL : L.Owes (fun _ => 0) none) (fd : FileDescriptor) :
    typestate.Safe (close fd) L fun _ L' => L'.Idle := by
  refine safe_op_bind (fun _ => hL.active) fun _ r L₁ h₁ => ?_
  obtain rfl := h₁
  have hL₁ := hL.know fd r
  cases r with
  | none => exact safe_pure fun _ => hL₁.idle fun _ => rfl
  | some f =>
    refine safe_clear hL₁ (Local.know_slots_self L fd (some f)) fun L₂ hL₂ _ _ => ?_
    refine safe_close_bind hL₂ (by simp [Local.bump]) fun L₃ hL₃ _ => safe_pure fun _ =>
      hL₃.idle fun g => ?_
    simp only [Local.bump]
    split <;> rfl

theorem safe_usePipe {page : ℕ} (hL : L.Idle) (h : ∃ f, L.inUse = some (f, page) ∧ L.Has f)
    (turns : ℕ) : typestate.Safe (usePipe page turns) L fun _ L' => L'.Idle := by
  induction turns with
  | zero => exact safe_pure fun _ => hL
  | succ turns ih =>
    refine safe_op_bind (fun _ => h) fun _ _ L₁ h₁ => ?_
    obtain rfl : L = L₁ := h₁.symm
    exact ih

theorem safe_transfer (hL : L.Owes (fun _ => 0) none) (fd : FileDescriptor) (turns : ℕ) :
    typestate.Safe (transfer fd turns) L fun _ L' => L'.Idle := by
  refine safe_op_bind (fun _ => hL.active) fun _ r L₁ h₁ => ?_
  obtain rfl := h₁
  have hL₁ := hL.know fd r
  cases r with
  | none => exact safe_pure fun _ => hL₁.idle fun _ => rfl
  | some f =>
    have hhas := hL₁.has_of_slot (Local.know_slots_self L fd (some f))
    refine safe_op_bind (fun _ => ⟨hL₁.active, hhas⟩) fun _ data L₂ h₂ => ?_
    cases data with
    | pipe page =>
      obtain rfl := h₂
      have hL₂ := hL₁.idle fun _ => rfl
      have hidle : Local.Idle { L.know fd (some f) with inUse := some (f, page) } :=
        ⟨hL₂.extra, hL₂.fresh, hL₂.ends, hL₂.freeing, hL₂.child⟩
      exact safe_usePipe hidle ⟨f, rfl, hhas⟩ turns
    | _ =>
      obtain rfl := h₂
      exact safe_pure fun _ => hL₁.idle fun _ => rfl

/-! ### fork and exit -/

theorem safe_copyFiles {c : π} {fds : List FileDescriptor} (hL : L.Owes (fun _ => 0) (some c))
    (hnodup : fds.Nodup) (hfree : ∀ fd ∈ fds, L.childFree fd = true) :
    typestate.Safe (copyFiles c fds) L fun _ L' => L'.Owes (fun _ => 0) (some c) := by
  induction fds generalizing L with
  | nil => exact safe_pure fun _ => hL
  | cons fd fds ih =>
    obtain ⟨hmem, hnodup⟩ := List.nodup_cons.mp hnodup
    refine safe_op_bind (fun _ => hL.active) fun _ r L₁ h₁ => ?_
    obtain rfl := h₁
    have hL₁ := hL.know fd r
    cases r with
    | none => exact ih hL₁ hnodup fun d hd => hfree d (List.mem_cons_of_mem fd hd)
    | some f =>
      have hhas := hL₁.has_of_slot (Local.know_slots_self L fd (some f))
      refine safe_op_bind (fun _ => ⟨hL₁.child, hfree fd List.mem_cons_self, hhas⟩)
        fun _ _ L₂ h₂ => ?_
      obtain rfl := h₂
      have hL₂ := hL₁.setFresh f
      refine ih ⟨hL₂.active, hL₂.extra, hL₂.fresh, hL₂.ends, hL₂.freeing, hL₂.child⟩ hnodup
        fun d hd => ?_
      have hne : d ≠ fd := fun heq => hmem (heq ▸ hd)
      change Function.update L.childFree fd false d = true
      rw [Function.update_of_ne hne]
      exact hfree d (List.mem_cons_of_mem fd hd)

theorem safe_fork (hL : L.Owes (fun _ => 0) none) :
    typestate.Safe (fork : Prog π (Option π)) L fun _ L' => L'.Idle := by
  refine safe_op_bind (fun _ => trivial) fun _ r L₁ h₁ => ?_
  cases r with
  | none =>
    obtain rfl : L₁ = L := h₁
    exact safe_pure fun _ => hL.idle fun _ => rfl
  | some c =>
    obtain rfl : L₁ = { L with child := some c, childFree := fun _ => true } := h₁
    have hL₁ : Local.Owes { L with child := some c, childFree := fun _ => true } (fun _ => 0)
        (some c) := ⟨hL.active, hL.extra, hL.fresh, hL.ends, hL.freeing, rfl⟩
    refine safe_op_bind (fun _ => trivial) fun _ r L₂ h₂ => ?_
    obtain rfl := h₂
    cases r with
    | false =>
      refine safe_op_bind (fun _ => ⟨rfl, fun _ => rfl⟩) fun _ _ L₃ h₃ => ?_
      obtain rfl := h₃
      exact safe_pure fun _ => ⟨hL.extra, hL.fresh, hL.ends, hL.freeing, rfl⟩
    | true =>
      refine (safe_copyFiles hL₁ (List.nodup_finRange noFile) fun _ _ => rfl).bind
        fun _ L₃ hL₃ => ?_
      refine safe_op_bind (fun _ => hL₃.child) fun _ _ L₄ h₄ => ?_
      obtain rfl := h₄
      exact safe_pure fun _ => ⟨hL₃.extra, hL₃.fresh, hL₃.ends, hL₃.freeing, rfl⟩

theorem safe_closeAll {fds : List FileDescriptor} (hL : L.Owes (fun _ => 0) none) :
    typestate.Safe (closeAll fds) L fun _ L' => L'.Owes (fun _ => 0) none ∧
      ∀ fd, fd ∈ fds ∨ L.slots fd = some none → L'.slots fd = some none := by
  induction fds generalizing L with
  | nil =>
    refine safe_pure fun _ => ⟨hL, fun fd hfd => hfd.resolve_left List.not_mem_nil⟩
  | cons fd fds ih =>
    refine safe_op_bind (fun _ => hL.active) fun _ r L₁ h₁ => ?_
    obtain rfl := h₁
    have hL₁ := hL.know fd r
    cases r with
    | none =>
      refine (ih hL₁).mono fun _ L' _ hL' => ⟨hL'.1, fun d hd => hL'.2 d ?_⟩
      by_cases hne : d = fd
      · rw [hne]
        exact .inr (Local.know_slots_self L fd none)
      · rw [Local.know_slots_of_ne hne]
        exact hd.imp_left fun hmem => (List.mem_cons.mp hmem).resolve_left hne
    | some f =>
      have hhas := hL₁.has_of_slot (Local.know_slots_self L fd (some f))
      refine (safe_close hhas).bind fun _ L₂ h₂ => ?_
      obtain rfl := h₂
      refine safe_clear (hL₁.drop f) (Local.know_slots_self L fd (some f))
        fun L₃ hL₃ hself hother => ?_
      have hzero : Local.bump (Local.bump (fun _ => 0) f (-1)) f 1 = fun _ => 0 := by
        funext g
        simp only [Local.bump]
        split <;> rfl
      rw [hzero] at hL₃
      refine (ih hL₃).mono fun _ L' _ hL' => ⟨hL'.1, fun d hd => hL'.2 d ?_⟩
      by_cases hne : d = fd
      · rw [hne]
        exact .inr hself
      · have hsame : L₃.slots d = L.slots d :=
          (hother d hne).trans (Local.know_slots_of_ne hne (some f))
        rw [hsame]
        exact hd.imp_left fun hmem => (List.mem_cons.mp hmem).resolve_left hne

theorem safe_exit (hL : L.Owes (fun _ => 0) none) :
    typestate.Safe (exit : Prog π Unit) L fun _ L' => L'.Idle := by
  refine (safe_closeAll hL).bind fun _ L₁ hL₁ => ?_
  refine safe_op (fun _ => ⟨hL₁.1.active, fun fd => hL₁.2 fd (.inl (List.mem_finRange fd))⟩)
    fun _ _ L₂ h₂ _ => ?_
  obtain rfl := h₂
  have hidle := hL₁.1.idle fun _ => rfl
  exact ⟨hidle.extra, hidle.fresh, hidle.ends, hidle.freeing, hidle.child⟩

/-! ### pipe -/

/-- The files of a pipe that has just been made. -/
def pipeRefs (readFile writeFile : FileIndex) : FileIndex → ℤ :=
  Local.bump (Local.bump (fun _ => 0) readFile 1) writeFile 1

theorem one_le_pipeRefs_read (readFile writeFile : FileIndex) :
    1 ≤ pipeRefs readFile writeFile readFile := by
  simp only [pipeRefs, Local.bump, if_true]
  split <;> omega

theorem one_le_pipeRefs_write (readFile writeFile : FileIndex) :
    1 ≤ pipeRefs readFile writeFile writeFile := by
  simp only [pipeRefs, Local.bump, if_true]
  split <;> omega

theorem pipeRefs_closed (readFile writeFile f : FileIndex) :
    Local.bump (Local.bump (pipeRefs readFile writeFile) readFile (-1)) writeFile (-1) f = 0 := by
  simp only [pipeRefs, Local.bump]
  split <;> split <;> rfl

/-- Two files have been allocated, and nothing has been done with them. -/
structure Local.Both (L : Local π) (readFile writeFile : FileIndex) : Prop where
  active : L.active = true
  extra : ∀ f, L.extra f = pipeRefs readFile writeFile f
  fresh : ∀ f, L.fresh f = decide (f = readFile ∨ f = writeFile)
  ends : ∀ x w, L.ends x w = 0
  freeing : ∀ x, L.freeing x = 0
  child : L.child = none

theorem both_of_alloc (hL : L.Owes (fun _ => 0) none) (readFile writeFile : FileIndex) :
    Local.Both ((((L.addRef readFile 1).setFresh readFile true).addRef writeFile 1).setFresh
      writeFile true) readFile writeFile where
  active := hL.active
  extra f := by
    rw [Local.setFresh_extra, addRef_extra, Local.setFresh_extra, addRef_extra, hL.extra]
    rfl
  fresh f := by
    simp only [Local.setFresh_fresh, Local.addRef_fresh, hL.fresh]
    by_cases hw : f = writeFile
    · simp [hw]
    · by_cases hr : f = readFile <;> simp [hw, hr]
  ends := hL.ends
  freeing := hL.freeing
  child := hL.child

theorem Local.Both.closed {readFile writeFile : FileIndex} (h : L.Both readFile writeFile) :
    ((L.drop writeFile).drop readFile).Idle where
  extra f := by
    rw [Local.drop, Local.setFresh_extra, addRef_extra, Local.drop, Local.setFresh_extra,
      addRef_extra, h.extra]
    simp only [pipeRefs, Local.bump]
    split <;> split <;> rfl
  fresh f := by
    simp only [Local.drop, Local.setFresh_fresh, Local.addRef_fresh, h.fresh]
    by_cases hr : f = readFile
    · rw [if_pos hr]
    · by_cases hw : f = writeFile
      · rw [if_neg hr, if_pos hw]
      · rw [if_neg hr, if_neg hw, decide_eq_false (not_or.mpr ⟨hr, hw⟩)]
  ends := h.ends
  freeing := h.freeing
  child := h.child

/-- Both files get their end of the pipe. -/
theorem safe_setFiles {readFile writeFile : FileIndex} (h : L.Both readFile writeFile)
    (hne : readFile ≠ writeFile) (page : ℕ) :
    typestate.Safe (do
      invoke (.fileSet readFile (.pipe page) false)
      invoke (.fileSet writeFile (.pipe page) true)
      return some (readFile, writeFile) : Prog π (Option (FileIndex × FileIndex)))
      ((L.addEnd (.pipe page) false).addEnd (.pipe page) true) fun r L' =>
        r = some (readFile, writeFile) ∧ L'.Owes (pipeRefs readFile writeFile) none := by
  refine safe_op_bind (fun _ => ?_) fun _ _ L₁ h₁ => ?_
  · refine ⟨by simp [h.fresh], fun x hx => ?_⟩
    obtain rfl := FileData.pipe.inj hx
    simp
  obtain rfl := h₁
  refine safe_op_bind (fun _ => ?_) fun _ _ L₂ h₂ => ?_
  · refine ⟨by simp [Local.setFresh_fresh, hne.symm, h.fresh], fun x hx => ?_⟩
    obtain rfl := FileData.pipe.inj hx
    simp
  obtain rfl := h₂
  refine safe_pure fun _ => ⟨rfl, ?_⟩
  refine ⟨by simp [h.active], fun f => ?_, fun f => ?_, fun x w => ?_, by simp [h.freeing],
    by simp [h.child]⟩
  · simp only [Local.setFresh_extra, Local.dropEnd_extra, Local.addEnd_extra, h.extra]
  · simp only [Local.setFresh_fresh, Local.dropEnd_fresh, Local.addEnd_fresh, h.fresh]
    by_cases hw : f = writeFile
    · rw [if_pos hw]
    · by_cases hr : f = readFile
      · rw [if_neg hw, if_pos hr]
      · rw [if_neg hw, if_neg hr, decide_eq_false (not_or.mpr ⟨hr, hw⟩)]
  · cases w <;> simp [h.ends]

theorem safe_pipeAlloc (hL : L.Owes (fun _ => 0) none) :
    typestate.Safe (Pipe.alloc : Prog π (Option (FileIndex × FileIndex))) L fun r L' =>
      match r with
      | none => L'.Idle
      | some (readFile, writeFile) => L'.Owes (pipeRefs readFile writeFile) none := by
  refine safe_op_bind (fun _ => trivial) fun _ r L₁ h₁ => ?_
  cases r with
  | none =>
    obtain rfl : L₁ = L := h₁
    exact safe_pure fun _ => hL.idle fun _ => rfl
  | some readFile =>
    obtain ⟨-, rfl⟩ := h₁
    have hadd := hL.addRef readFile 1
    have hhas : ((L.addRef readFile 1).setFresh readFile true).Has readFile :=
      hadd.has (by simp [Local.bump])
    refine safe_op_bind (fun _ => trivial) fun _ r L₂ h₂ => ?_
    cases r with
    | none =>
      obtain rfl := h₂
      refine (safe_close hhas).bind fun _ L₃ h₃ => safe_pure fun _ => ?_
      obtain rfl := h₃
      refine ⟨fun g => ?_, fun g => ?_, hadd.ends, hadd.freeing, hadd.child⟩
      · rw [Local.drop, Local.setFresh_extra, addRef_extra, Local.setFresh_extra, hadd.extra,
          Local.bump]
        split <;> rfl
      · simp only [Local.drop, Local.setFresh_fresh, Local.addRef_fresh, hL.fresh]
        split <;> rfl
    | some writeFile =>
      obtain ⟨hnew, rfl⟩ := h₂
      have hne : readFile ≠ writeFile := fun heq => hnew (heq ▸ hhas)
      have hboth := both_of_alloc hL readFile writeFile
      generalize (((L.addRef readFile 1).setFresh readFile true).addRef writeFile 1).setFresh
        writeFile true = L₂ at hboth
      refine safe_op_bind (fun _ => trivial) fun _ r L₃ h₃ => ?_
      cases r with
      | none =>
        obtain rfl : L₃ = L₂ := h₃
        refine (safe_close ?_).bind fun _ L₄ h₄ => (safe_close ?_).bind fun _ L₅ h₅ =>
          safe_pure fun _ => ?_
        · have hpos := one_le_pipeRefs_write readFile writeFile
          unfold Local.Has
          rw [hboth.extra]
          omega
        · obtain rfl := h₄
          have hpos := one_le_pipeRefs_read readFile writeFile
          unfold Local.Has
          rw [Local.drop, Local.setFresh_extra, addRef_extra, hboth.extra, if_neg hne]
          omega
        · obtain rfl := h₄
          obtain rfl := h₅
          exact hboth.closed
      | some page =>
        obtain rfl : L₃ = (L₂.addEnd (.pipe page) false).addEnd (.pipe page) true := h₃
        refine (safe_setFiles hboth hne page).mono fun r L' _ hr => ?_
        obtain ⟨rfl, hL'⟩ := hr
        exact hL'

/-- Close the two files of a pipe. -/
theorem safe_closeBoth {readFile writeFile : FileIndex}
    (hL : L.Owes (pipeRefs readFile writeFile) none) :
    typestate.Safe (do
      File.close readFile
      File.close writeFile
      return false : Prog π Bool) L fun _ L' => L'.Idle := by
  refine safe_close_bind hL (one_le_pipeRefs_read _ _) fun L₁ hL₁ _ =>
    safe_close_bind hL₁ ?_ fun L₂ hL₂ _ => safe_pure fun _ => hL₂.idle (pipeRefs_closed _ _)
  simp only [pipeRefs, Local.bump]
  split <;> simp

theorem bump_bump (e : FileIndex → ℤ) (f : FileIndex) (n : ℤ) :
    Local.bump (Local.bump e f (-n)) f n = e := by
  funext g
  simp only [Local.bump]
  split <;> omega

theorem safe_pipe (hL : L.Owes (fun _ => 0) none) :
    typestate.Safe (pipe : Prog π Bool) L fun _ L' => L'.Idle := by
  refine safe_op_bind (fun _ => trivial) fun _ r L₁ h₁ => ?_
  obtain rfl : L = L₁ := h₁.symm
  cases r with
  | false => exact safe_pure fun _ => hL.idle fun _ => rfl
  | true =>
    refine (safe_pipeAlloc hL).bind fun r L₁ hL₁ => ?_
    cases r with
    | none => exact safe_pure fun _ => hL₁
    | some files =>
      obtain ⟨readFile, writeFile⟩ := files
      have hL₁ : L₁.Owes (pipeRefs readFile writeFile) none := hL₁
      refine safe_op_bind (fun _ => hL₁.active) fun _ r L₂ h₂ => ?_
      cases r with
      | none =>
        obtain rfl := h₂
        exact safe_closeBoth hL₁
      | some readFd =>
        obtain ⟨-, rfl⟩ := h₂
        have hL₂ := (hL₁.addRef readFile (-1)).know readFd (some readFile)
        have hread := Local.know_slots_self (L₁.addRef readFile (-1)) readFd (some readFile)
        refine safe_op_bind (fun _ => hL₂.active) fun _ r L₃ h₃ => ?_
        cases r with
        | none =>
          obtain rfl := h₃
          refine safe_clear hL₂ hread fun L₄ hL₄ _ _ => ?_
          rw [bump_bump] at hL₄
          exact safe_closeBoth hL₄
        | some writeFd =>
          obtain ⟨hfree, rfl⟩ := h₃
          have hne : readFd ≠ writeFd := by
            rintro rfl
            exact hfree readFile hread
          generalize (L₁.addRef readFile (-1)).know readFd (some readFile) = L₂ at *
          have hL₃ := (hL₂.addRef writeFile (-1)).know writeFd (some writeFile)
          have hwrite := Local.know_slots_self (L₂.addRef writeFile (-1)) writeFd (some writeFile)
          have hread₃ := (Local.know_slots_of_ne (L := L₂.addRef writeFile (-1)) hne
            (some writeFile)).trans hread
          generalize (L₂.addRef writeFile (-1)).know writeFd (some writeFile) = L₃ at *
          have hundo : typestate.Safe (outputDescriptors.undo readFile writeFile readFd writeFd) L₃
              fun _ L' => L'.Idle := by
            refine safe_clear hL₃ hwrite fun L₄ hL₄ _ hother => ?_
            rw [bump_bump] at hL₄
            refine safe_clear hL₄ ((hother readFd hne).trans hread₃) fun L₅ hL₅ _ _ => ?_
            rw [bump_bump] at hL₅
            exact safe_closeBoth hL₅
          have hidle : L₃.Idle := hL₃.idle fun g => by
            simp only [pipeRefs, Local.bump]
            split <;> split <;> rfl
          refine safe_op_bind (fun _ => trivial) fun _ r L₄ h₄ => ?_
          obtain rfl : L₃ = L₄ := h₄.symm
          cases r with
          | false => exact hundo
          | true =>
            refine safe_op_bind (fun _ => trivial) fun _ r L₅ h₅ => ?_
            obtain rfl : L₃ = L₅ := h₅.symm
            cases r with
            | false => exact hundo
            | true => exact safe_pure fun _ => hidle

theorem safe_program (hL : L.Owes (fun _ => 0) none) (c : Call π) :
    typestate.Safe c.program L fun _ L' => L'.Idle := by
  cases c with
  | «open» w => exact (safe_openInode hL w).bind fun _ _ h => safe_pure fun _ => h
  | dup fd => exact (safe_dup hL fd).bind fun _ _ h => safe_pure fun _ => h
  | close fd => exact (safe_closeDescriptor hL fd).bind fun _ _ h => safe_pure fun _ => h
  | pipe => exact (safe_pipe hL).bind fun _ _ h => safe_pure fun _ => h
  | fork => exact (safe_fork hL).bind fun _ _ h => safe_pure fun _ => h
  | exit => exact safe_exit hL
  | wait child => exact safe_op (fun _ => trivial) fun _ _ _ h _ => h ▸ hL.idle fun _ => rfl
  | transfer fd turns => exact safe_transfer hL fd turns

end Safe

/-! ## Runs -/

section Runs
variable {π : Type} [Fintype π] [DecidableEq π] {s s' : State π}
  {P₀ P : Pool (interface π) (State π) π}

/-- No file is open, no pipe is there and no process is in a call. -/
structure Initial (P : Pool (interface π) (State π) π) : Prop where
  idle : ∀ p, P.running p = none
  files : ∀ f, P.state.files f = ⟨0, false, .none⟩
  pipes : ∀ page, P.state.pipes page = none
  openFiles : ∀ p fd, P.state.openFiles p fd = none

/-- No process is in a call. -/
def Quiet (P : Pool (interface π) (State π) π) : Prop := ∀ p, P.running p = none

/-- The counts are those of the descriptors, and the pipes those of the files. -/
structure Balanced (s : State π) : Prop where
  count : ∀ f, (s.files f).referenceCount =
    (Finset.univ.filter fun e : π × FileDescriptor =>
      s.status e.1 ≠ .unused ∧ s.openFiles e.1 e.2 = some f).card
  slot : ∀ p fd f, s.openFiles p fd = some f → (s.files f).referenceCount ≠ 0
  page : ∀ page, s.pipes page ≠ none ↔
    ∃ f, (s.files f).referenceCount ≠ 0 ∧ (s.files f).data = .pipe page
  isOpen : ∀ page pipe w, s.pipes page = some pipe → (pipe.isOpen w = true ↔
    ∃ f, (s.files f).referenceCount ≠ 0 ∧ (s.files f).data = .pipe page ∧
      (s.files f).isWriteable = w)

theorem invariant_run {es : List (Pool.Event π (Call π))} (h₀ : Initial P₀)
    (hrun : Transition.run step P₀ es = some P) :
    Pool.Invariant typestate Good Local.Idle P := by
  have hcalls : ∀ (s : State π) (Λs : π → Local π) p (c : Call π), Good s Λs → (Λs p).Idle →
      ready s p = true → True → ∃ L, Good s (Function.update Λs p L) ∧
        typestate.Safe c.program L fun _ L' => L'.Idle := by
    intro s Λs p c h hidle hready _
    have hlive : s.status p = .live := of_decide_eq_true hready
    have howes : Local.Owes { Λs p with active := true } (fun _ => 0) none :=
      ⟨rfl, hidle.extra, hidle.fresh, hidle.ends, hidle.freeing, hidle.child⟩
    refine ⟨{ Λs p with active := true }, ?_, safe_program howes c⟩
    exact h.ofKnown rfl rfl rfl rfl rfl (fun _ _ hq => hq) rfl rfl (h.known.start hlive)
  refine Pool.invariant_run sound hcalls ?_ hrun fun fs e Q _ _ => ?_
  · refine ⟨fun _ => ⟨false, fun _ => none, fun _ => 0, fun _ => false, none, fun _ _ => 0,
      fun _ => 0, none, fun _ => false⟩, ?_, fun p => ?_⟩
    · have hown : ∀ p f, owned P₀.state (fun _ => ⟨false, fun _ => none, fun _ => 0, fun _ => false,
          none, fun _ _ => 0, fun _ => 0, none, fun _ => false⟩) p f = 0 := fun p f => by
        have hzero : slotCount P₀.state p f = 0 :=
          Finset.sum_eq_zero fun fd _ => by rw [h₀.openFiles, if_neg nofun]
        rw [owned, hzero]
        rfl
      refine ⟨⟨fun p f => ?_, fun f => ?_, fun f _ => ?_, nofun, nofun⟩,
        ⟨fun x w => ?_, fun x => ?_⟩, ⟨nofun, nofun, fun _ _ => ⟨fun _ => rfl, rfl⟩, fun p _ fd => h₀.openFiles p fd, nofun,
          nofun, nofun⟩⟩
      · rw [hown]
      · rw [h₀.files, Finset.sum_eq_zero fun p _ => hown p f]
        rfl
      · rw [h₀.files]
      · simp [File.holds, h₀.files, h₀.pipes, endOpen]
      · simp [h₀.pipes]
    · rw [h₀.idle]
      exact ⟨fun _ => rfl, fun _ => rfl, fun _ _ => rfl, fun _ => rfl, rfl⟩
  · cases e with
    | start p c => trivial
    | step p => exact fun _ _ => trivial

omit [DecidableEq π] in
theorem Good.balanced {Λs : π → Local π} (h : Good s Λs) (hidle : ∀ p, (Λs p).Idle) :
    Balanced s := by
  have hown : ∀ p f, owned s Λs p f = slotCount s p f := fun p f => by
    rw [owned, (hidle p).extra, add_zero]
  have hends : ∀ x w, ∑ f, (s.files f).holds x w = endOpen (s.pipes x) w := fun x w => by
    rw [← h.piped.ends x w, Finset.sum_eq_zero fun p _ => (hidle p).ends x w, add_zero]
  have hclosed : ∀ x, s.pipes x ≠ some ⟨false, false⟩ := fun x hx => by
    have hsum := h.piped.freeing x
    rw [Finset.sum_eq_zero fun p _ => (hidle p).freeing x, if_pos hx] at hsum
    cases hsum
  have hopen : ∀ page pipe w, s.pipes page = some pipe → (pipe.isOpen w = true ↔
      ∃ f, (s.files f).referenceCount ≠ 0 ∧ (s.files f).data = .pipe page ∧
        (s.files f).isWriteable = w) := by
    intro page pipe w hpipe
    have hsum := hends page w
    simp only [hpipe, endOpen] at hsum
    constructor
    · intro hw
      rw [if_pos hw] at hsum
      by_contra hnone
      have hzero : ∑ f, (s.files f).holds page w = 0 :=
        Finset.sum_eq_zero fun f _ => if_neg fun hf => hnone ⟨f, hf⟩
      rw [hzero] at hsum
      cases hsum
    · rintro ⟨f, hf⟩
      by_contra hw
      rw [if_neg hw] at hsum
      have hzero := Finset.sum_eq_zero_iff.mp hsum f (Finset.mem_univ f)
      rw [File.holds, if_pos hf] at hzero
      cases hzero
  refine ⟨fun f => ?_, fun p fd f hf => ?_, fun page => ⟨fun hpage => ?_, ?_⟩, hopen⟩
  · have hcount := h.counted.count f
    simp only [hown] at hcount
    have hsum : ∑ p, slotCount s p f = (Finset.univ.filter fun e : π × FileDescriptor =>
        s.status e.1 ≠ .unused ∧ s.openFiles e.1 e.2 = some f).card := by
      rw [Finset.card_filter, Fintype.sum_prod_type]
      refine Finset.sum_congr rfl fun p _ => Finset.sum_congr rfl fun fd _ => ?_
      by_cases hf : s.openFiles p fd = some f
      · have hused : s.status p ≠ .unused := fun hunused => by
          rw [h.known.vacant p (.inl hunused) fd] at hf
          cases hf
        rw [if_pos hf, if_pos ⟨hused, hf⟩]
      · rw [if_neg hf, if_neg fun hand => hf hand.2]
    rw [← hsum]
    exact_mod_cast hcount
  · have hle := h.counted.owned_le p f
    have hpos : 1 ≤ slotCount s p f := by
      have hone := Finset.single_le_sum
        (f := fun d => if s.openFiles p d = some f then 1 else 0)
        (fun _ _ => Nat.zero_le _) (Finset.mem_univ fd)
      simp only [if_pos hf] at hone
      exact hone
    rw [hown] at hle
    omega
  · obtain ⟨pipe, hpipe⟩ := Option.ne_none_iff_exists'.mp hpage
    have hsome : ∃ w, pipe.isOpen w = true := by
      obtain ⟨readIsOpen, writeIsOpen⟩ := pipe
      cases readIsOpen with
      | true => exact ⟨false, rfl⟩
      | false =>
        cases writeIsOpen with
        | true => exact ⟨true, rfl⟩
        | false => exact absurd hpipe (hclosed page)
    obtain ⟨w, hw⟩ := hsome
    obtain ⟨f, hcount, hdata, -⟩ := (hopen page pipe w hpipe).mp hw
    exact ⟨f, hcount, hdata⟩
  · rintro ⟨f, hcount, hdata⟩
    exact h.piped.open_of_holds hcount hdata

/-! ### Calls that fail -/

def counts (s : State π) : FileIndex → ℕ := fun f => (s.files f).referenceCount

/-- The counts and the descriptors are the same. -/
def SameReferences (s s' : State π) : Prop :=
  counts s' = counts s ∧ s'.openFiles = s.openFiles

variable {p : π} {α β : Type}

/-- Where `p` runs the program alone and it ends, `Q` holds. -/
def Ends (p : π) (prog : Prog π α) (s : State π) (Q : α → State π → Prop) : Prop :=
  Post (State.perform p) prog s Q (fun _ => True) True

omit [Fintype π] in
theorem ends_op {o : Op π} {k : o.Result → Prog π α} {Q : α → State π → Prop}
    (h : ∀ r s', State.perform p o s = .done r s' → Ends p (k r) s' Q) :
    Ends p (invoke o >>= k) s Q := by
  unfold Ends Post
  rw [op_bind, run_call]
  cases hr : State.perform p o s with
  | done r s' => exact h r s' hr
  | stop reason s' => trivial
  | block => trivial

omit [Fintype π] in
theorem Ends.bind {prog : Prog π α} {k : α → Prog π β} {Q : α → State π → Prop}
    {Q' : β → State π → Prop} (h : Ends p prog s Q)
    (hk : ∀ a s', Q a s' → Ends p (k a) s' Q') : Ends p (prog >>= k) s Q' := Post.bind h hk

omit [Fintype π] [DecidableEq π] in
theorem SameReferences.trans {s₁ s₂ s₃ : State π} (h : SameReferences s₁ s₂)
    (h' : SameReferences s₂ s₃) : SameReferences s₁ s₃ := ⟨h'.1.trans h.1, h'.2.trans h.2⟩

omit [Fintype π] in
theorem ends_succeeds {k : Bool → Prog π α} {Q : α → State π → Prop}
    (h : ∀ r s', SameReferences s s' → Ends p (k r) s' Q) :
    Ends p (invoke .succeeds >>= k) s Q := by
  refine ends_op fun r s' hr => h r s' ?_
  obtain ⟨rfl, rfl⟩ := Outcome.done.inj hr
  exact ⟨rfl, rfl⟩

omit [Fintype π] in
theorem ends_closeEnd (page : ℕ) (w : Bool) :
    Ends p (Pipe.closeEnd page w) s fun _ s' => SameReferences s s' := by
  refine ends_op fun r s₁ h₁ => ?_
  have hsame : SameReferences s s₁ := by
    simp only [State.perform, State.pipeClose] at h₁
    split at h₁
    · cases h₁
    · obtain ⟨rfl, rfl⟩ := Outcome.done.inj h₁
      exact ⟨rfl, rfl⟩
  cases r with
  | false => exact hsame
  | true =>
    change Ends p (invoke (.freePage page) >>= fun u => .done u) s₁ _
    refine ends_op fun r s₂ h₂ => hsame.trans ?_
    simp only [State.perform, State.freePage] at h₂
    split at h₂
    · cases h₂
    · obtain ⟨rfl, rfl⟩ := Outcome.done.inj h₂
      exact ⟨rfl, rfl⟩

omit [Fintype π] [DecidableEq π] in
theorem counts_setFile (s : State π) (f : FileIndex) (e : File) :
    counts (s.setFile f e) = Function.update (counts s) f e.referenceCount := by
  funext g
  unfold counts State.setFile
  by_cases hg : g = f
  · simp only [hg, Function.update_self]
  · simp only [Function.update_of_ne hg]

omit [Fintype π] in
theorem ends_close (f : FileIndex) : Ends p (File.close f) s fun _ s' =>
    counts s' = Function.update (counts s) f (counts s f - 1) ∧ s'.openFiles = s.openFiles := by
  refine ends_op fun r s₁ h₁ => ?_
  have hdrop : counts s₁ = Function.update (counts s) f (counts s f - 1) ∧
      s₁.openFiles = s.openFiles := by
    simp only [State.perform, State.fileDrop] at h₁
    split at h₁
    · cases h₁
    · split at h₁
      · obtain ⟨rfl, rfl⟩ := Outcome.done.inj h₁
        exact ⟨counts_setFile _ _ _, rfl⟩
      next hlast =>
        obtain ⟨rfl, rfl⟩ := Outcome.done.inj h₁
        have hzero : counts s f - 1 = 0 := Nat.eq_zero_of_not_pos hlast
        rw [hzero]
        exact ⟨counts_setFile _ _ _, rfl⟩
  split
  · refine (ends_closeEnd _ _).mono fun _ s₂ h₂ => ?_
    exact ⟨h₂.1.trans hdrop.1, h₂.2.trans hdrop.2⟩
  · exact hdrop

/-- The files of a pipe have been allocated. -/
structure Allocated (s s' : State π) (readFile writeFile : FileIndex) : Prop where
  ne : readFile ≠ writeFile
  read : counts s readFile = 0
  write : counts s writeFile = 0
  counts_eq : counts s' = Function.update (Function.update (counts s) readFile 1) writeFile 1

omit [Fintype π] [DecidableEq π] in
theorem Allocated.closed {s₁ s₂ : State π} {readFile writeFile : FileIndex}
    (h : Allocated s s₁ readFile writeFile)
    (h₂ : counts s₂ = Function.update (Function.update (counts s₁) readFile
      (counts s₁ readFile - 1)) writeFile
      (Function.update (counts s₁) readFile (counts s₁ readFile - 1) writeFile - 1)) :
    counts s₂ = counts s := by
  funext f
  rw [h₂, h.counts_eq]
  by_cases hw : f = writeFile
  · simp [hw, h.ne.symm, h.write]
  · by_cases hr : f = readFile
    · simp [hr, h.ne, h.read]
    · simp [hw, hr]

omit [Fintype π] in
theorem ends_closeBoth {s₀ : State π} {readFile writeFile : FileIndex}
    (h : Allocated s₀ s readFile writeFile) (hopen : s.openFiles = s₀.openFiles) :
    Ends p (do
      File.close readFile
      File.close writeFile
      return false : Prog π Bool) s fun _ s' => SameReferences s₀ s' := by
  refine (ends_close readFile).bind fun _ s₁ h₁ => (ends_close writeFile).bind fun _ s₂ h₂ => ?_
  refine ⟨h.closed ?_, h₂.2.trans (h₁.2.trans hopen)⟩
  rw [h₂.1, h₁.1]

omit [Fintype π] in
theorem ends_fileAlloc {k : Option FileIndex → Prog π α} {Q : α → State π → Prop}
    (hnone : Ends p (k none) s Q) (hsome : ∀ f s', counts s f = 0 →
      counts s' = Function.update (counts s) f 1 → s'.openFiles = s.openFiles →
      Ends p (k (some f)) s' Q) : Ends p (invoke .fileAlloc >>= k) s Q := by
  refine ends_op fun r s' hr => ?_
  simp only [State.perform] at hr
  split at hr
  next f hf =>
    obtain ⟨rfl, rfl⟩ := Outcome.done.inj hr
    have hzero : (s.files f).referenceCount = 0 := by simpa using List.find?_some hf
    exact hsome f _ hzero (counts_setFile _ _ _) rfl
  next =>
    obtain ⟨rfl, rfl⟩ := Outcome.done.inj hr
    exact hnone

omit [Fintype π] in
theorem ends_fileSet {f : FileIndex} {data : FileData} {w : Bool} {k : Unit → Prog π α}
    {Q : α → State π → Prop} (h : ∀ s', SameReferences s s' → Ends p (k ()) s' Q) :
    Ends p (invoke (.fileSet f data w) >>= k) s Q := by
  refine ends_op fun r s' hr => ?_
  obtain ⟨rfl, rfl⟩ := Outcome.done.inj hr
  refine h _ ⟨?_, rfl⟩
  rw [counts_setFile]
  exact Function.update_eq_self f (counts s)

omit [Fintype π] in
theorem ends_pipeAlloc : Ends p (Pipe.alloc : Prog π (Option (FileIndex × FileIndex))) s
    fun r s' => s'.openFiles = s.openFiles ∧
      match r with
      | none => counts s' = counts s
      | some (readFile, writeFile) => Allocated s s' readFile writeFile := by
  refine ends_fileAlloc ⟨rfl, rfl⟩ fun readFile s₁ hread h₁ hopen₁ => ?_
  refine ends_fileAlloc ?_ fun writeFile s₂ hwrite h₂ hopen₂ => ?_
  · refine (ends_close readFile).bind fun _ s₂ h₂ => ⟨h₂.2.trans hopen₁, ?_⟩
    change counts s₂ = counts s
    rw [h₂.1, h₁, Function.update_idem, Function.update_self, Nat.sub_self, ← hread]
    exact Function.update_eq_self readFile (counts s)
  · have hne : readFile ≠ writeFile := by
      rintro rfl
      rw [h₁, Function.update_self] at hwrite
      exact absurd hwrite nofun
    rw [h₁, Function.update_of_ne hne.symm] at hwrite
    rw [h₁] at h₂
    refine ends_op fun r s₃ h₃ => ?_
    have hsame : SameReferences s₂ s₃ := by
      obtain ⟨-, rfl⟩ := Outcome.done.inj h₃
      unfold State.pipeAlloc
      cases s₂.freeList s₂.requests with
      | none => exact ⟨rfl, rfl⟩
      | some page =>
        simp only
        split <;> exact ⟨rfl, rfl⟩
    have halloc : Allocated s s₃ readFile writeFile := ⟨hne, hread, hwrite, hsame.1.trans h₂⟩
    have hopen₃ : s₃.openFiles = s.openFiles := hsame.2.trans (hopen₂.trans hopen₁)
    cases r with
    | none =>
      refine (ends_close writeFile).bind fun _ s₄ h₄ => (ends_close readFile).bind fun _ s₅ h₅ => ?_
      refine ⟨h₅.2.trans (h₄.2.trans hopen₃), ?_⟩
      change counts s₅ = counts s
      funext f
      rw [h₅.1, h₄.1, halloc.counts_eq]
      by_cases hr : f = readFile
      · simp [hr, hne, hread]
      · by_cases hw : f = writeFile
        · simp [hw, hne.symm, hwrite]
        · simp [hr, hw]
    | some page =>
      refine ends_fileSet fun s₄ h₄ => ends_fileSet fun s₅ h₅ => ?_
      exact ⟨h₅.2.trans (h₄.2.trans hopen₃),
        ⟨hne, hread, hwrite, h₅.1.trans (h₄.1.trans halloc.counts_eq)⟩⟩

omit [Fintype π] in
/-- A descriptor that was free is set, or none was free. -/
theorem ends_fdAllocate {f : FileIndex} {k : Option FileDescriptor → Prog π α}
    {Q : α → State π → Prop} (hnone : Ends p (k none) s Q)
    (hsome : ∀ fd s', s.openFiles p fd = none → counts s' = counts s →
      s'.openFiles = (s.setOpenFile p fd (some f)).openFiles → Ends p (k (some fd)) s' Q) :
    Ends p (invoke (.fileDescriptorAllocate f) >>= k) s Q := by
  refine ends_op fun r s' hr => ?_
  simp only [State.perform] at hr
  split at hr
  next fd hfd =>
    obtain ⟨rfl, rfl⟩ := Outcome.done.inj hr
    exact hsome fd _ (by simpa using List.find?_some hfd) rfl rfl
  next =>
    obtain ⟨rfl, rfl⟩ := Outcome.done.inj hr
    exact hnone

omit [Fintype π] in
/-- A descriptor that was free before is free again. -/
theorem ends_clear {s₀ : State π} {fd : FileDescriptor} {f : FileIndex} {k : Unit → Prog π α}
    {Q : α → State π → Prop} (hfree : s₀.openFiles p fd = none)
    (hset : s.openFiles = (s₀.setOpenFile p fd (some f)).openFiles)
    (h : ∀ s', counts s' = counts s → s'.openFiles = s₀.openFiles → Ends p (k ()) s' Q) :
    Ends p (invoke (.clearDescriptor fd) >>= k) s Q := by
  refine ends_op fun r s' hr => ?_
  obtain ⟨rfl, rfl⟩ := Outcome.done.inj hr
  refine h _ rfl ?_
  unfold State.setOpenFile at *
  simp only [hset, Function.update_self, Function.update_idem]
  rw [← hfree, Function.update_eq_self, Function.update_eq_self]

omit [Fintype π] in
theorem ends_undo {s₀ s₁ : State π} {readFile writeFile : FileIndex}
    {readFd writeFd : FileDescriptor} (h : Allocated s₀ s readFile writeFile)
    (hread : s₀.openFiles p readFd = none)
    (hopen₁ : s₁.openFiles = (s₀.setOpenFile p readFd (some readFile)).openFiles)
    (hwrite : s₁.openFiles p writeFd = none)
    (hopen : s.openFiles = (s₁.setOpenFile p writeFd (some writeFile)).openFiles) :
    Ends p (outputDescriptors.undo readFile writeFile readFd writeFd) s
      fun _ s' => SameReferences s₀ s' := by
  refine ends_clear hwrite hopen fun s₂ h₂ hopen₂ => ?_
  refine ends_clear hread (hopen₂.trans hopen₁) fun s₃ h₃ hopen₃ => ?_
  exact ends_closeBoth ⟨h.ne, h.read, h.write, h₃.trans (h₂.trans h.counts_eq)⟩ hopen₃

omit [Fintype π] in
/-- A `pipe` that fails leaves every count and every descriptor as it was. -/
theorem ends_pipe : Ends p pipe s fun succeeded s' => succeeded = false → SameReferences s s' := by
  refine ends_succeeds fun r s₁ h₁ => ?_
  cases r with
  | false => exact fun _ => h₁
  | true =>
    refine ends_pipeAlloc.bind fun r s₂ h₂ => ?_
    obtain ⟨hopen₂, h₂⟩ := h₂
    cases r with
    | none => exact fun _ => h₁.trans ⟨h₂, hopen₂⟩
    | some files =>
      obtain ⟨readFile, writeFile⟩ := files
      have h₂ : Allocated s₁ s₂ readFile writeFile := h₂
      refine ends_fdAllocate ?_ fun readFd s₃ hread h₃ hopen₃ => ends_fdAllocate ?_
        fun writeFd s₄ hwrite h₄ hopen₄ => ?_
      · exact (ends_closeBoth h₂ hopen₂).mono fun _ _ h _ => h₁.trans h
      · rw [hopen₂] at hread
        have hset : s₃.openFiles = (s₁.setOpenFile p readFd (some readFile)).openFiles := by
          rw [hopen₃]
          unfold State.setOpenFile
          simp only [hopen₂]
        refine ends_clear hread hset fun s₄ h₄ hopen₄ => ?_
        refine (ends_closeBoth ⟨h₂.ne, h₂.read, h₂.write, ?_⟩ hopen₄).mono
          fun _ _ h _ => h₁.trans h
        rw [h₄, h₃, h₂.counts_eq]
      · rw [hopen₂] at hread
        have hset : s₃.openFiles = (s₁.setOpenFile p readFd (some readFile)).openFiles := by
          rw [hopen₃]
          unfold State.setOpenFile
          simp only [hopen₂]
        have hundo : ∀ s₅, SameReferences s₄ s₅ →
            Ends p (outputDescriptors.undo readFile writeFile readFd writeFd) s₅
              fun succeeded s' => succeeded = false → SameReferences s s' := by
          intro s₅ h₅
          have halloc : Allocated s₁ s₅ readFile writeFile :=
            ⟨h₂.ne, h₂.read, h₂.write, by rw [h₅.1, h₄, h₃, h₂.counts_eq]⟩
          exact (ends_undo halloc hread hset hwrite (h₅.2.trans hopen₄)).mono
            fun _ _ h _ => h₁.trans h
        refine ends_succeeds fun r s₅ h₅ => ?_
        cases r with
        | false => exact hundo s₅ h₅
        | true =>
          refine ends_succeeds fun r s₆ h₆ => ?_
          cases r with
          | false => exact hundo s₆ (h₅.trans h₆)
          | true => exact fun hfalse => absurd hfalse nofun

omit [Fintype π] in
theorem ends_copyFiles (c : π) (fds : List FileDescriptor) (Q : Unit → State π → Prop)
    (hQ : ∀ s', Q () s') : Ends p (copyFiles c fds) s Q := by
  induction fds generalizing s with
  | nil => exact hQ s
  | cons fd fds ih =>
    refine ends_op fun r s₁ _ => ?_
    cases r with
    | none => exact ih
    | some f => exact ends_op fun _ _ _ => ih

omit [Fintype π] in
/-- A `fork` that fails leaves every count and every descriptor as it was. -/
theorem ends_fork : Ends p fork s fun r s' => r = none → SameReferences s s' := by
  refine ends_op fun r s₁ h₁ => ?_
  have hsame : SameReferences s s₁ := by
    simp only [State.perform] at h₁
    split at h₁
    · obtain ⟨rfl, rfl⟩ := Outcome.done.inj h₁
      exact ⟨rfl, rfl⟩
    · obtain ⟨rfl, rfl⟩ := Outcome.done.inj h₁
      exact ⟨rfl, rfl⟩
  cases r with
  | none => exact fun _ => hsame
  | some c =>
    refine ends_succeeds fun r s₂ h₂ => ?_
    cases r with
    | true =>
      refine (ends_copyFiles c _ (fun _ _ => True) fun _ => trivial).bind fun _ s₃ _ => ?_
      exact ends_op fun _ _ _ hnone => absurd hnone (by simp)
    | false =>
      refine ends_op fun _ s₃ h₃ _ => hsame.trans (h₂.trans ?_)
      obtain ⟨-, rfl⟩ := Outcome.done.inj h₃
      exact ⟨rfl, rfl⟩

/-- In every run no operation fails on a count or on a page that is not allocated;
between the calls the counts are those of the descriptors and the pipes those of
the files; and a `pipe` or a `fork` that fails undoes what it has done. -/
theorem references_balanced {es : List (Pool.Event π (Call π))} (h₀ : Initial P₀)
    (hrun : Transition.run step P₀ es = some P) :
    (∀ p o, P.Calls p o → ∀ reason s', State.perform p o P.state ≠ .stop reason s') ∧
      (Quiet P → Balanced P.state) ∧
      ∀ p, Ends p pipe P.state (fun succeeded s' => succeeded = false → SameReferences P.state s') ∧
        Ends p fork P.state (fun r s' => r = none → SameReferences P.state s') := by
  obtain ⟨Λs, hgood, hrunning⟩ := invariant_run h₀ hrun
  refine ⟨fun p o ho reason s' => ?_, fun hquiet => hgood.balanced fun p => ?_,
    fun p => ⟨ends_pipe, ends_fork⟩⟩
  · obtain ⟨k, hk⟩ := ho
    have hsafe := hrunning p
    rw [hk] at hsafe
    exact hgood.ne_stop (hsafe trivial).1 reason
  · have hidle := hrunning p
    rwa [hquiet p] at hidle

/-! ### One process makes a pipe -/

def booted : Pool (interface Bool) (State Bool) Bool where
  state :=
    { files := fun _ => ⟨0, false, .none⟩
      pipes := fun _ => none
      openFiles := fun _ _ => none
      status := fun p => if p then .unused else .live
      processTable := [false, true]
      freeList := some
      outcomes := fun _ => true
      requests := 0 }
  running := fun _ => none

def pipeRun : List (Pool.Event Bool (Call Bool)) :=
  .start false .pipe :: List.replicate 11 (.step false)

theorem references_balanced_pipe : ∃ P, Transition.run step booted pipeRun = some P ∧
    P.state.pipes 1 = some ⟨true, true⟩ ∧ Balanced P.state := by
  have hinitial : Initial booted := ⟨fun _ => rfl, fun _ => rfl, fun _ => rfl, fun _ _ => rfl⟩
  obtain ⟨P, hrun, hpage, hquiet⟩ : ∃ P, Transition.run step booted pipeRun = some P ∧
      P.state.pipes 1 = some ⟨true, true⟩ ∧ Quiet P :=
    ⟨_, rfl, rfl, fun p => by cases p <;> rfl⟩
  exact ⟨P, hrun, hpage, (references_balanced hinitial hrun).2.1 hquiet⟩

end Runs

end Zigmaos.OpenFiles
