import Zigmaos.Ownership
import Mathlib.Algebra.Group.Pi.Basic

/-!
# The system calls keep to what they own

Every function of `SysFile` is followed through the typestate: from what it
needs to what it leaves owned, locked and changed. A call that starts with
nothing held ends with nothing held, on every path and whatever the operations
answer.
-/
namespace Zigmaos.FileSystem
open DirectoryContent Program Typestate

namespace Local

/-- `L` is `L₀` with `c` more references, the locks `held` and the changes `log`. -/
structure Grows (M : Mode) (L₀ : Local) (c : Handle → ℕ) (held : Handle → Option DiskInode)
    (log : List Effect) (L : Local) : Prop where
  count : ∀ h, L.count h = L₀.count h + c h
  id : ∀ h, 0 < L₀.count h → L.id h = L₀.id h
  kind : ∀ h k, 0 < L₀.count h → L₀.kind h = some k → L.kind h = some k
  held : L.held = held
  dying : L.dying = L₀.dying
  fresh : L.fresh = L₀.fresh
  pend : M.counted → L.pend = L₀.pend
  fileRefs : L.fileRefs = L₀.fileRefs
  newFile : L.newFile = L₀.newFile
  lent : L.lent = L₀.lent
  taken : L.taken = L₀.taken
  cwdTaken : L.cwdTaken = L₀.cwdTaken
  adopted : L.adopted = L₀.adopted
  zombie : L.zombie = L₀.zombie
  inOperation : L.inOperation = L₀.inOperation
  log : M.alone → L.log = log

/-- No reference can be lost that something else depends on. -/
structure Tidy (M : Mode) (L : Local) : Prop where
  held : ∀ h, L.held h ≠ none → 0 < L.count h
  dying : L.dying = none
  lent : L.lent = none
  fresh : ∀ f, L.fresh = some f → L.Owns f.id
  pend : M.counted → ∀ i, L.pend i ≠ 0 → L.Owns i
  mayFree : M.alone → ∀ i, L.MayFree i → L.Owns i

variable {M : Mode} {L₀ L : Local} {c : Handle → ℕ} {held : Handle → Option DiskInode}
  {log : List Effect} {h : Handle} {i : InodeId}

theorem Grows.refl (M : Mode) (L : Local) : Grows M L 0 L.held L.log L := by
  constructor <;> simp

theorem Grows.owns (hL : Grows M L₀ c held log L) (hi : L₀.Owns i) : L.Owns i := by
  obtain ⟨g, hg, rfl⟩ := hi
  exact ⟨g, by rw [hL.count]; omega, hL.id g hg⟩

theorem Grows.addRef (hL : Grows M L₀ c held log L) (hid : 0 < L.count h → L.id h = i) :
    Grows M L₀ (c + Pi.single h 1) held log (L.addRef h i) where
  count g := by
    by_cases hg : g = h
    · subst hg
      simp [Local.addRef, hL.count g, Nat.add_assoc]
    · simp [Local.addRef, hL.count g, hg]
  id g hg := by
    by_cases hgh : g = h
    · subst hgh
      have := hL.count g
      simp only [Local.addRef, Function.update_self, ← hL.id g hg]
      exact (hid (by omega)).symm
    · simp [Local.addRef, hgh, hL.id g hg]
  kind g k hg hk := by
    by_cases hgh : g = h
    · subst hgh
      have := hL.count g
      simp only [Local.addRef, Function.update_self]
      rw [if_neg (by omega)]
      exact hL.kind g k hg hk
    · simp [Local.addRef, hgh, hL.kind g k hg hk]
  held := hL.held
  dying := hL.dying
  fresh := hL.fresh
  pend := hL.pend
  fileRefs := hL.fileRefs
  newFile := hL.newFile
  lent := hL.lent
  taken := hL.taken
  cwdTaken := hL.cwdTaken
  adopted := hL.adopted
  zombie := hL.zombie
  inOperation := hL.inOperation
  log := hL.log

/-- An inode that the base of `L` owns has a second reference where `L` has one more. -/
theorem Grows.two_le (hL : Grows M L₀ (c + Pi.single h 1) held log L) (hf : M.Fact L)
    (hi : L₀.Owns (L.id h)) : 2 ≤ L.count h := by
  obtain ⟨g, hg, hgi⟩ := hi
  have hgL := hL.count g
  have hhL := hL.count h
  have : g = h := hf.unique g h (by omega) (by simp at hhL; omega) (by rw [hL.id g hg, hgi])
  subst this
  simp at hhL
  omega

theorem Grows.dropRef (hL : Grows M L₀ (c + Pi.single h 1) held log L) (hf : M.Fact L)
    (hT : Tidy M L₀) : Grows M L₀ c held log (L.dropRef h) where
  count g := by
    have := hL.count g
    by_cases hg : g = h
    · subst hg
      simp [Local.dropRef, this]
    · simp [Local.dropRef, this, hg]
  id := hL.id
  kind := hL.kind
  held := hL.held
  dying := hL.dying
  fresh := by
    have hfr := hL.fresh
    simp only [Local.dropRef]
    rw [← hfr]
    cases hLf : L.fresh with
    | none => rfl
    | some f =>
      simp only [Option.filter_some, ite_eq_left_iff, Bool.not_eq_true, decide_eq_false_iff_not,
        not_not, reduceCtorEq, imp_false, not_and]
      intro hid hone
      have := hL.two_le hf (hid ▸ hT.fresh f (by rw [← hfr, hLf]))
      omega
  pend := hL.pend
  fileRefs := hL.fileRefs
  newFile := hL.newFile
  lent := hL.lent
  taken := hL.taken
  cwdTaken := hL.cwdTaken
  adopted := hL.adopted
  zombie := hL.zombie
  inOperation := hL.inOperation
  log := hL.log

theorem Grows.trans {L₁ : Local} {c₁ c₂ : Handle → ℕ} {held₁ held₂ : Handle → Option DiskInode}
    {log₁ log₂ : List Effect} (h₁ : Grows M L₀ c₁ held₁ log₁ L₁)
    (h₂ : Grows M L₁ c₂ held₂ log₂ L) : Grows M L₀ (c₁ + c₂) held₂ log₂ L where
  count g := by simp [h₂.count g, h₁.count g, Nat.add_assoc]
  id g hg := by rw [h₂.id g (by have := h₁.count g; omega), h₁.id g hg]
  kind g k hg hk := h₂.kind g k (by have := h₁.count g; omega) (h₁.kind g k hg hk)
  held := h₂.held
  dying := h₂.dying.trans h₁.dying
  fresh := h₂.fresh.trans h₁.fresh
  pend hcnt := (h₂.pend hcnt).trans (h₁.pend hcnt)
  fileRefs := h₂.fileRefs.trans h₁.fileRefs
  newFile := h₂.newFile.trans h₁.newFile
  lent := h₂.lent.trans h₁.lent
  taken := h₂.taken.trans h₁.taken
  cwdTaken := h₂.cwdTaken.trans h₁.cwdTaken
  adopted := h₂.adopted.trans h₁.adopted
  zombie := h₂.zombie.trans h₁.zombie
  inOperation := h₂.inOperation.trans h₁.inOperation
  log := h₂.log

theorem Grows.log_congr {log' : List Effect} (hL : Grows M L₀ c held log L)
    (hlog : M.alone → log = log') : Grows M L₀ c held log' L :=
  { hL with log := fun ha => (hL.log ha).trans (hlog ha) }

theorem Grows.acquire {d : DiskInode} (hL : Grows M L₀ c held log L)
    (hk : ∀ k, L.kind h = some k → d.type = k) (hfresh : ∀ f, L₀.fresh = some f → f.id ≠ L.id h) :
    Grows M L₀ c (Function.update held h (some d)) log (L.acquire h d) where
  count := hL.count
  id := hL.id
  kind g k hg hgk := by
    have hLk := hL.kind g k hg hgk
    by_cases hgh : g = h
    · subst hgh
      simp [Local.acquire, hk k hLk]
    · simp [Local.acquire, hgh, hLk]
  held := by simp [Local.acquire, hL.held]
  dying := hL.dying
  fresh := by
    simp only [Local.acquire, hL.fresh]
    cases hf : L₀.fresh with
    | none => rfl
    | some f => simp [hfresh f hf]
  pend := hL.pend
  fileRefs := hL.fileRefs
  newFile := hL.newFile
  lent := hL.lent
  taken := hL.taken
  cwdTaken := hL.cwdTaken
  adopted := hL.adopted
  zombie := hL.zombie
  inOperation := hL.inOperation
  log := hL.log

theorem Grows.unlock (hL : Grows M L₀ c held log L) (hlent : L₀.lent = none) :
    Grows M L₀ c (Function.update held h none) log (L.unlock h) where
  count := hL.count
  id := hL.id
  kind := hL.kind
  held := by simp [Local.unlock, hL.held]
  dying := hL.dying
  fresh := hL.fresh
  pend := hL.pend
  fileRefs := hL.fileRefs
  newFile := hL.newFile
  lent := by simp [Local.unlock, hL.lent, hlent]
  taken := hL.taken
  cwdTaken := hL.cwdTaken
  adopted := hL.adopted
  zombie := hL.zombie
  inOperation := hL.inOperation
  log := hL.log

end Local

theorem update_update_none {held : Handle → Option DiskInode} {h : Handle}
    {o : Option DiskInode} (hh : held h = none) :
    Function.update (Function.update held h o) h none = held := by
  rw [Function.update_idem, ← hh, Function.update_eq_self]

section Operations
variable {M : Mode} {α : Type} {L : Local} {Q : α → Local → Prop} {h : Handle}

theorem safe_diskInode {d : DiskInode} {f : DiskInode → Prog α} (hd : L.held h = some d)
    (hf : M.typestate.Safe (f d) L Q) : M.typestate.Safe (invoke (.diskInode h) >>= f) L Q := by
  refine safe_op_bind (fun _ => by simp [Mode.typestate, Mode.pre, hd]) ?_
  rintro - r L' ⟨hr, rfl⟩
  obtain rfl := Option.some.inj (hr.symm.trans hd)
  exact hf

theorem safe_identify {f : InodeId → Prog α} (hc : 0 < L.count h)
    (hf : M.typestate.Safe (f (L.id h)) L Q) :
    M.typestate.Safe (invoke (.identify h) >>= f) L Q := by
  refine safe_op_bind (fun _ => hc) ?_
  rintro - r L' ⟨rfl, rfl⟩
  exact hf

theorem safe_panic {reason : Panic} : M.typestate.Safe (panic reason : Prog α) L Q :=
  safe_call (fun _ => trivial) fun _ r => r.elim

end Operations

/-- What `put` leaves: one reference less, and the inode freed if it was unused. -/
def Dropped (M : Mode) (L : Local) (h : Handle) (L' : Local) : Prop :=
  (L' = L.dropRef h ∧ (M.alone → ∀ f, L.fresh = some f → f.id = L.id h → L.count h = 1 →
    f.pristine = false → ¬L.Unlinked (L.id h))) ∨
  (L.count h = 1 ∧ (M.alone → L.MayFree (L.id h)) ∧ ∃ d : DiskInode, d.linkCount = 0 ∧
    L' = { L.dropRef h with
      kind := Function.update L.kind h none
      log := L.log ++ [.truncate (L.id h), .inode (L.id h) { d with content := [], type := .free }] })

theorem safe_put {M : Mode} {L : Local} {h : Handle} (hpre : M.Fact L → M.pre (.putBegin h) L) :
    M.typestate.Safe (Inode.put h) L fun _ L' => Dropped M L h L' := by
  unfold Inode.put
  refine safe_op_bind hpre ?_
  intro hL r L' hr
  obtain ⟨-, hdying, -, hlent, -⟩ := hpre hL
  cases r with
  | false => exact safe_when nofun fun _ _ => .inl hr
  | true =>
    obtain ⟨d, rfl, hd, hone, hheld, hun⟩ := hr
    refine safe_when (fun _ => ?_) (fun hne => absurd rfl hne)
    refine safe_op_bind (fun _ => ⟨d, by simp [Local.acquire], .inl rfl⟩) ?_
    rintro - - L₁ ⟨d₁, hd₁, rfl⟩
    obtain rfl : d₁ = d := by simpa [Local.acquire] using hd₁.symm
    refine safe_diskInode (d := { d₁ with content := [] }) (by simp [Local.setHeld]) ?_
    refine safe_op_bind (fun _ => ⟨{ d₁ with content := [] }, by simp [Local.setHeld], rfl,
      .inr ⟨rfl, rfl, rfl⟩⟩) ?_
    rintro - - L₂ ⟨d₂, hd₂, rfl, -⟩
    obtain rfl : d₂ = { d₁ with content := [] } := by simpa [Local.setHeld] using hd₂.symm
    refine safe_op_bind (fun _ => ⟨rfl, _, by simp [Local.setInode, Local.setHeld]; rfl, rfl⟩) ?_
    rintro - - L₃ rfl
    refine safe_op (fun _ => ⟨rfl, by simp [Local.unlock]⟩) ?_
    rintro - - L₄ rfl -
    refine .inr ⟨hone, hun, d₁, hd, ?_⟩
    have hnone : Function.update L.held h none = L.held := by
      rw [← hheld, Function.update_eq_self]
    simp [Local.dropRef, Local.unlock, Local.setInode, Local.setHeld, Local.acquire, hdying, hlent,
      hnone]

/-- What `put` of inode `i` adds to the changes `log`: nothing, or the inode is
freed because the call has set its link count to zero or taken over its last reference. -/
def FreedLog (adopted : Option InodeId) (i : InodeId) (log fs : List Effect) : Prop :=
  fs = [] ∨ ((∃ d, .inode i d ∈ log ∧ d.linkCount = 0) ∨ adopted = some i) ∧
    ∃ d : DiskInode, fs = [.truncate i, .inode i { d with content := [], type := .free }]

/-- Dropping a reference on top of `L₀` loses nothing that `L₀` depends on. -/
theorem safe_put_grows {M : Mode} {L₀ L : Local} {c : Handle → ℕ}
    {held : Handle → Option DiskInode} {log : List Effect} {h : Handle} (hT : L₀.Tidy M)
    (hL : L₀.Grows M (c + Pi.single h 1) held log L) (hheld : held h ≠ none → 0 < L₀.count h) :
    M.typestate.Safe (Inode.put h) L fun _ L' => ∃ fs, L₀.Grows M c held (log ++ fs) L' ∧
      (M.alone → FreedLog L₀.adopted (L.id h) log fs) ∧ (L₀.Owns (L.id h) → fs = []) := by
  have hcount : L.count h = L₀.count h + c h + 1 := by simp [hL.count h, Nat.add_assoc]
  refine safe_of_fact fun hf => (safe_put fun _ => ?_).mono ?_
  · refine ⟨by omega, hL.dying.trans hT.dying, fun hh => ?_, hL.lent.trans hT.lent,
      fun hcnt hone => ?_⟩
    · have := hheld (by rwa [hL.held] at hh)
      omega
    · by_contra hp
      rw [hL.pend hcnt] at hp
      have := hL.two_le hf (hT.pend hcnt _ hp)
      omega
  · have hdrop := hL.dropRef hf hT
    rintro - L' - (⟨rfl, -⟩ | ⟨hone, hun, d, -, rfl⟩)
    · exact ⟨[], by simpa using hdrop, fun _ => .inl rfl, fun _ => rfl⟩
    · refine ⟨[.truncate (L.id h), .inode (L.id h) { d with content := [], type := .free }],
        { hdrop with kind := fun g k hg hk => ?_, log := fun ha => ?_ }, fun ha => ?_, fun ho => ?_⟩
      · have hne : g ≠ h := by
          rintro rfl
          omega
        simpa [hne] using hL.kind g k hg hk
      · rw [← hL.log ha]
      · refine .inr ⟨?_, d, rfl⟩
        obtain ⟨d', hd', hz⟩ | had := hun ha
        · exact .inl ⟨d', by rwa [hL.log ha] at hd', hz⟩
        · exact .inr (hL.adopted ▸ had)
      · have := hL.two_le hf ho
        omega

/-- The same where nothing is freed: the call has not unlinked the inode, or has
another reference to it. -/
theorem safe_put_grows_same {M : Mode} {L₀ L : Local} {c : Handle → ℕ}
    {held : Handle → Option DiskInode} {log : List Effect} {h : Handle} (hT : L₀.Tidy M)
    (hL : L₀.Grows M (c + Pi.single h 1) held log L) (hheld : held h ≠ none → 0 < L₀.count h)
    (hlog : M.alone → (∃ d, .inode (L.id h) d ∈ log ∧ d.linkCount = 0) ∨
      L₀.adopted = some (L.id h) → L₀.Owns (L.id h)) :
    M.typestate.Safe (Inode.put h) L fun _ L' => L₀.Grows M c held log L' := by
  refine (safe_put_grows hT hL hheld).mono ?_
  rintro - L' - ⟨fs, hL', hfs, hown⟩
  refine { hL' with log := fun ha => ?_ }
  obtain rfl | ⟨hmay, -⟩ := hfs ha
  · simpa using hL'.log ha
  · simpa [hown (hlog ha hmay)] using hL'.log ha

theorem safe_init {M : Mode} {L : Local} {h : Handle} {d : DiskInode} {Q : Unit → Local → Prop}
    (hd : L.held h = some d) (hQ : d.type = .directory → Q () L) :
    M.typestate.Safe (Directory.init h) L Q := by
  refine safe_diskInode hd (safe_when (fun _ => safe_panic) fun hne _ => hQ ?_)
  exact not_not.mp hne

theorem safe_setLinkCount {M : Mode} {L : Local} {h : Handle} {d : DiskInode} {f : ℕ → ℕ}
    {Q : Unit → Local → Prop} (hd : L.held h = some d) (hdying : L.dying = none)
    (hQ : (M.counted → d.linkCount = 65535 → f d.linkCount ≠ 0) →
      Q () (L.setInode h d { d with linkCount := f d.linkCount })) :
    M.typestate.Safe (Inode.setLinkCount h f) L Q := by
  refine safe_diskInode hd (safe_op (fun _ => ⟨d, hd, rfl, .inl ⟨hdying, rfl⟩⟩) ?_)
  rintro - - L' ⟨old, hold, rfl, hwrap⟩ -
  obtain rfl := Option.some.inj (hd.symm.trans hold)
  exact hQ hwrap

/-- What `lookupChild` finds in a directory that is locked with inode `d`. -/
def Found (L : Local) (h : Handle) (d : DiskInode) (name : Name) :
    Option (Handle × ℕ) → Local → Prop
  | none, L' => L' = L ∧ ∀ j, j < slotCount d.content → (slot d.content j).inodeNumber ≠ 0 →
      (slot d.content j).nameSlice ≠ name
  | some (c, offset), L' => ∃ j, j < slotCount d.content ∧ offset = entrySize * j ∧
      (slot d.content j).inodeNumber ≠ 0 ∧ (slot d.content j).nameSlice = name ∧
      L' = L.addRef c ⟨(L.id h).device, (slot d.content j).inodeNumber⟩ ∧
      (0 < L.count c → L.id c = ⟨(L.id h).device, (slot d.content j).inodeNumber⟩)

theorem safe_lookupChild {M : Mode} {L : Local} {h : Handle} {d : DiskInode} {name : Name}
    (hd : L.held h = some d) (hdir : d.type = .directory) (hc : 0 < L.count h) :
    M.typestate.Safe (Directory.lookupChild h name) L (Found L h d name) := by
  refine safe_diskInode hd ?_
  split
  next => exact safe_panic
  next hnone => exact fun _ => ⟨rfl, fun j hj hlive => findEntry_none hnone hj hlive⟩
  next offset e hsome =>
    obtain ⟨j, hj, hoff, rfl, hlive, hname⟩ := findEntry_some hsome
    refine safe_identify hc (safe_op_bind (fun _ => ⟨Nat.pos_of_ne_zero hlive,
      (fits_slot hj).number, fun _ => .inr (.inr ⟨h, d, j, hd, hdir, hj, hlive, rfl⟩)⟩) ?_)
    rintro - c L' ⟨rfl, hid⟩
    exact fun _ => ⟨j, hj, hoff, hlive, hname, rfl, hid⟩

/-- What `linkEntry` leaves in a directory that is locked with inode `d`. -/
def Entered (M : Mode) (L : Local) (h : Handle) (d : DiskInode) (name : Name) (number : ℕ) :
    Except Directory.LinkEntryError Unit → Local → Prop
  | .error _, L' => ∃ log, L.Grows M 0 L.held log L' ∧
      (log = L.log ∨ ∃ j, j ≤ slotCount d.content ∧
        log = L.log ++ [.attempt (L.id h) (entrySize * j)])
  | .ok _, L' => ∃ j e types, j ≤ slotCount d.content ∧
      (∀ i, i < j → (slot d.content i).inodeNumber ≠ 0) ∧
      (j = slotCount d.content → Aligned d.content) ∧
      (∀ i, i < slotCount d.content → (slot d.content i).inodeNumber ≠ 0 →
        (slot d.content i).nameSlice ≠ name) ∧
      (j < slotCount d.content → (slot d.content j).inodeNumber = 0) ∧
      e.Fits ∧ e.nameSlice = name ∧ e.inodeNumber = number ∧
      (∀ g k, 0 < L.count g → L.kind g = some k → types (L.id g) = k) ∧
      L' = L.enter h d j e types

theorem safe_linkEntry {M : Mode} {L : Local} {h g : Handle} {d : DiskInode} {name : Name}
    {number : ℕ} {k : InodeType} (hT : L.Tidy M) (hd : L.held h = some d)
    (hdir : d.type = .directory) (hc : 0 < L.count h) (hg : 0 < L.count g)
    (hid : L.id g = ⟨(L.id h).device, number⟩) (hk : L.kind g = some k)
    (hfresh : ¬IsDots name → k = .directory → ∃ f, L.fresh = some f ∧ f.id = L.id g)
    (hent : M.counted → (∀ j, j < slotCount d.content → (slot d.content j).inodeNumber ≠ 0 →
      (slot d.content j).nameSlice ≠ name) → M.Fact L → Mode.Enterable L h g name) :
    M.typestate.Safe (Directory.linkEntry h name number) L (Entered M L h d name number) := by
  unfold Directory.linkEntry
  split
  · exact fun _ => ⟨L.log, .refl M L, .inl rfl⟩
  next hlen =>
    refine (safe_lookupChild hd hdir hc).bind ?_
    rintro (_ | ⟨existing, offset⟩) L₁ hr
    · obtain ⟨rfl, hnone⟩ := hr
      refine safe_diskInode hd ?_
      split
      · exact safe_panic
      next offset e hfree =>
        obtain ⟨j, hj, rfl, hfit, hlive, hdead, hal⟩ := findFree_ok hfree
        refine safe_of_fact fun hf => ?_
        have hnum := hf.number g hg
        rw [hid] at hnum
        have hfit' : (e.withName name number).Fits := hfit.withName (by omega) hnum.2
        have hname := e.nameSlice_withName name number
        refine safe_op_bind (fun _ => ⟨hT.dying, d, j, hd, hdir, rfl, hj, hal, hfit',
          fun _ => ⟨hdead, g, k, hg, hid, hk, fun hn => hfresh (by rwa [hname] at hn),
            fun hcnt => by rw [hname]; exact hent hcnt hnone hf⟩,
          fun hz => absurd hz (by simpa using hnum.1.ne')⟩) ?_
        rintro - (err | n) L₂ hr
        · obtain rfl : L₂ = L₁ := hr
          exact fun _ => ⟨L₂.log, .refl M L₂, .inl rfl⟩
        · obtain ⟨d', j', hd', hoff, ⟨hn, types, htypes, rfl⟩ | ⟨rfl, -, rfl⟩⟩ := hr
          · obtain rfl := Option.some.inj (hd.symm.trans hd')
            obtain rfl : j = j' := Nat.eq_of_mul_eq_mul_left (by decide) hoff
            simp only [hn, ne_eq, not_true_eq_false, if_false]
            exact fun _ => ⟨j, e.withName name number, types, hj, hlive, hal, hnone, hdead, hfit',
              hname, rfl, htypes, rfl⟩
          · obtain rfl := Option.some.inj (hd.symm.trans hd')
            have hne : (0 : ℕ) ≠ entrySize := by decide
            simp only [ne_eq, hne, not_false_eq_true, if_true]
            refine fun _ => ⟨_, { Local.Grows.refl M L₁ with held := ?_, log := fun _ => rfl },
              .inr ⟨j, hj, rfl⟩⟩
            simp only [Local.setHeld, ← hd, Function.update_eq_self]
    · obtain ⟨j, hj, -, hlive, -, rfl, hci⟩ := hr
      have hL := (Local.Grows.refl M L).addRef hci
      refine (safe_put_grows_same hT hL (hT.held _) fun ha hmay => hT.mayFree ha _ hmay).bind ?_
      · exact fun _ L' hL' _ => ⟨_, hL', .inl rfl⟩

/-- What a walk along path elements ends with. -/
def Walked (M : Mode) (L₀ : Local) (returnParent : Bool) (elements : List (Name × List UInt8)) :
    Option (Handle × Name) → Local → Prop
  | none, L' => L₀.Grows M 0 L₀.held L₀.log L'
  | some (h, name), L' => L₀.Grows M (Pi.single h 1) L₀.held L₀.log L' ∧
      (returnParent = true → (name, []) ∈ elements)

/-- A walk holds one lock at a time, and one reference besides those of `L₀`. -/
theorem safe_walk {M : Mode} {L₀ : Local} {returnParent : Bool} (hT : L₀.Tidy M)
    (hheld : ∀ g, L₀.held g = none) (hfresh : L₀.fresh = none)
    (elements : List (Name × List UInt8)) (name : Name) (current : Handle) {L : Local}
    (hL : L₀.Grows M (Pi.single current 1) L₀.held L₀.log L) :
    M.typestate.Safe (walk returnParent elements name current) L
      (Walked M L₀ returnParent elements) := by
  have hput : ∀ {c h L₁}, L₀.Grows M (c + Pi.single h 1) L₀.held L₀.log L₁ →
      M.typestate.Safe (Inode.put h) L₁ fun _ L' => L₀.Grows M c L₀.held L₀.log L' :=
    fun hL₁ => safe_put_grows_same hT hL₁ (fun hg => absurd (hheld _) hg)
      fun ha hmay => hT.mayFree ha _ hmay
  induction elements generalizing name current L with
  | nil =>
    unfold walk
    split
    next hr =>
      refine (hput (by simpa using hL)).bind fun _ L' hL' _ => hL'
    next hr => exact fun _ => ⟨hL, fun h => absurd h hr⟩
  | cons element elements ih =>
    obtain ⟨name', rest⟩ := element
    unfold walk
    have hcount : 0 < L.count current := by simp [hL.count current]
    refine safe_op_bind (fun _ => ⟨hcount, hL.dying.trans hT.dying, fun _ g d hg => ?_⟩) ?_
    · rw [hL.held, hheld g] at hg
      cases hg
    rintro - - L₁ ⟨d, rfl, hnone, -, hkind, -⟩
    have hL₁ := hL.acquire hkind fun f hf => by rw [hfresh] at hf; cases hf
    have hd : (L.acquire current d).held current = some d := by simp [Local.acquire]
    refine safe_diskInode hd ?_
    -- the lock is given up, the reference is kept
    have hrelease : ∀ {α : Type} {f : Unit → Prog α} {L₂ c Q},
        L₀.Grows M c (Function.update L₀.held current (some d)) L₀.log L₂ →
        (∀ L₃, L₀.Grows M c L₀.held L₀.log L₃ → M.typestate.Safe (f ()) L₃ Q) →
        M.typestate.Safe (invoke (.release current) >>= f) L₂ Q := by
      intro α f L₂ c Q hL₂ hf
      refine safe_op_bind (fun _ => ⟨by simp [hL₂.held], hL₂.dying.trans hT.dying⟩) ?_
      rintro - - L₃ rfl
      refine hf _ ?_
      rw [← update_update_none (o := some d) (hheld current)]
      exact hL₂.unlock hT.lent
    have hreleasePut : ∀ {α : Type} {f : Unit → Prog α} {L₂ c Q},
        L₀.Grows M (c + Pi.single current 1) (Function.update L₀.held current (some d)) L₀.log L₂ →
        (∀ L₃, L₀.Grows M c L₀.held L₀.log L₃ → M.typestate.Safe (f ()) L₃ Q) →
        M.typestate.Safe (Inode.releasePut current >>= f) L₂ Q := by
      intro α f L₂ c Q hL₂ hf
      unfold Inode.releasePut
      rw [bind_assoc]
      exact hrelease hL₂ fun L₃ hL₃ => (hput hL₃).bind fun _ L₄ hL₄ => hf L₄ hL₄
    split
    · exact hreleasePut (by simpa using hL₁) fun L₃ hL₃ _ => hL₃
    split
    next hlast =>
      rw [Bool.and_eq_true, decide_eq_true_eq, List.length_eq_zero_iff] at hlast
      obtain ⟨-, rfl⟩ := hlast
      exact hrelease hL₁ fun L₃ hL₃ _ => ⟨hL₃, fun _ => List.mem_cons_self⟩
    refine (safe_init (Q := fun _ L' => L' = L.acquire current d ∧ d.type = .directory) hd
      fun hdir => ⟨rfl, hdir⟩).bind ?_
    rintro - L₂ ⟨rfl, hdir⟩
    refine (safe_lookupChild hd hdir hcount).bind ?_
    rintro (_ | ⟨next, offset⟩) L₂ hr
    · obtain ⟨rfl, -⟩ := hr
      exact hreleasePut (by simpa using hL₁) fun L₃ hL₃ _ => hL₃
    · obtain ⟨j, -, -, -, -, rfl, hid⟩ := hr
      have hL₂ := hL₁.addRef hid
      rw [add_comm] at hL₂
      refine hreleasePut hL₂ fun L₃ hL₃ => (ih name' next hL₃).mono ?_
      rintro (_ | ⟨h, last⟩) L' - hr
      · exact hr
      · exact ⟨hr.1, fun hp => List.mem_cons_of_mem _ (hr.2 hp)⟩

theorem safe_resolvePathHelper {M : Mode} {L₀ : Local} {returnParent : Bool} (hT : L₀.Tidy M)
    (hheld : ∀ g, L₀.held g = none) (hfresh : L₀.fresh = none) (hcwd : L₀.cwdTaken = false)
    (path : List UInt8) :
    M.typestate.Safe (resolvePathHelper path returnParent) L₀
      (Walked M L₀ returnParent (pathElements path)) := by
  have hstart : ∀ {h i L}, L = L₀.addRef h i → (0 < L₀.count h → L₀.id h = i) →
      M.typestate.Safe (walk returnParent (pathElements path) [] h) L
        (Walked M L₀ returnParent (pathElements path)) := by
    rintro h i L rfl hid
    refine safe_walk hT hheld hfresh _ _ _ ?_
    have := (Local.Grows.refl M L₀).addRef hid
    simpa using this
  unfold resolvePathHelper
  split
  · exact fun _ => .refl M L₀
  · split
    · refine safe_op_bind (fun _ => ⟨by decide, by decide, fun _ => .inl rfl⟩) ?_
      rintro - h L ⟨hL, hid⟩
      exact hstart hL hid
    · refine safe_op_bind (fun _ => hcwd) ?_
      rintro - h L ⟨i, hL, hid⟩
      exact hstart hL hid

theorem safe_resolvePath {M : Mode} {L₀ : Local} (hT : L₀.Tidy M) (hheld : ∀ g, L₀.held g = none)
    (hfresh : L₀.fresh = none) (hcwd : L₀.cwdTaken = false) (path : List UInt8) :
    M.typestate.Safe (resolvePath path) L₀ fun r L' => match r with
      | none => L₀.Grows M 0 L₀.held L₀.log L'
      | some h => L₀.Grows M (Pi.single h 1) L₀.held L₀.log L' := by
  refine (safe_resolvePathHelper hT hheld hfresh hcwd path).bind ?_
  rintro (_ | ⟨h, name⟩) L' hL'
  · exact fun _ => hL'
  · exact fun _ => hL'.1

/-- Give up the lock and the reference of `h`. -/
theorem safe_releasePut {M : Mode} {L₀ L : Local} {c : Handle → ℕ}
    {held : Handle → Option DiskInode} {log : List Effect} {h : Handle} (hT : L₀.Tidy M)
    (hL : L₀.Grows M (c + Pi.single h 1) held log L) (hheld : held h ≠ none) :
    M.typestate.Safe (Inode.releasePut h) L fun _ L' => ∃ fs,
      L₀.Grows M c (Function.update held h none) (log ++ fs) L' ∧
      (M.alone → FreedLog L₀.adopted (L.id h) log fs) ∧ (L₀.Owns (L.id h) → fs = []) := by
  refine safe_op_bind (fun _ => ⟨by rwa [hL.held], hL.dying.trans hT.dying⟩) ?_
  rintro - - L₁ rfl
  exact safe_put_grows hT (hL.unlock hT.lent) (by simp)

/-- Where a call has begun and holds nothing. -/
structure Clear (M : Mode) (L : Local) : Prop where
  count : ∀ h, L.count h = 0
  held : ∀ h, L.held h = none
  dying : L.dying = none
  fresh : L.fresh = none
  pend : M.counted → ∀ i, L.pend i = 0
  lent : L.lent = none
  cwdTaken : L.cwdTaken = false
  adopted : L.adopted = none
  log : L.log = []

theorem Clear.tidy {M : Mode} {L : Local} (hL : Clear M L) : L.Tidy M where
  held h hh := absurd (hL.held h) hh
  dying := hL.dying
  lent := hL.lent
  fresh f hf := by rw [hL.fresh] at hf; cases hf
  pend hcnt i hi := absurd (hL.pend hcnt i) hi
  mayFree _ i := by
    rintro (⟨d, hd, -⟩ | had)
    · rw [hL.log] at hd
      cases hd
    · rw [hL.adopted] at had
      cases had

end Zigmaos.FileSystem
