import Zigmaos.InodeTable

/-!
# The inode table is a faithful set of references

The reference counts add up what the processes hold, an inode is in the table
once, and one that lost its links is freed by the put that drops the last
reference to it. A put that is past its decision still counts as a reference;
the only runs in which that loses an inode are those where another put ends
between its last two steps.
-/
namespace Zigmaos.FileSystem.Kernel
variable {π : Type} {s k : Kernel π} {h : Handle} {id : InodeId} {e : Inode π} {d : DiskInode}

@[simp, grind =] theorem setEntry_table (g : Handle) :
    (s.setEntry h e).table g = if g = h then e else s.table g := by
  simp [setEntry, Function.update_apply]

@[simp, grind =] theorem setEntry_disk : (s.setEntry h e).disk = s.disk := rfl

@[simp, grind =] theorem store_table (g : Handle) :
    (s.store h d).table g = if g = h then { s.table h with diskInode := d } else s.table g := by
  simp [store, setEntry, Function.update_apply]

@[simp, grind =] theorem store_disk (i : InodeId) :
    (s.store h d).disk i = if i = (s.table h).id then d else s.disk i := by
  simp [store, Function.update_apply]

/-- `get` finds the inode in the table, or takes an entry that nothing refers to. -/
theorem get_cases (hg : s.get id = .done h k) :
    (0 < (s.table h).referenceCount ∧ (s.table h).id = id ∧
      k = s.setEntry h { s.table h with referenceCount := (s.table h).referenceCount + 1 }) ∨
    ((s.table h).referenceCount = 0 ∧
      (∀ g, 0 < (s.table g).referenceCount → (s.table g).id ≠ id) ∧
      k = s.setEntry h { s.table h with id := id, referenceCount := 1, isValid := false }) := by
  unfold get at hg
  split at hg
  next g hfind =>
    cases hg
    have := List.find?_some hfind
    simp only [decide_eq_true_eq] at this
    exact .inl ⟨this.1, this.2, rfl⟩
  next hnone =>
    split at hg
    next g hfind =>
      cases hg
      have := List.find?_some hfind
      refine .inr ⟨by simpa using this, fun g' hpos hid => ?_, rfl⟩
      have := List.find?_eq_none.mp hnone g' (List.mem_finRange g')
      simp only [decide_eq_true_eq, not_and] at this
      exact this hpos hid
    · cases hg

theorem lock_cases [DecidableEq π] {p : π} {u : Unit} (hl : s.lock p h = .done u k) :
    (s.table h).holder = none ∧ 0 < (s.table h).referenceCount ∧
      (((s.table h).isValid = true ∧ k = s.setEntry h { s.table h with holder := some p }) ∨
       ((s.table h).isValid = false ∧ (s.disk (s.table h).id).type ≠ .free ∧
        k = s.setEntry h { s.table h with
          holder := some p, isValid := true, diskInode := s.disk (s.table h).id })) := by
  unfold lock at hl
  simp only at hl
  split at hl
  · cases hl
  next href =>
  split at hl
  · cases hl
  next hholder =>
  refine ⟨not_not.mp hholder, by omega, ?_⟩
  split at hl
  next hvalid =>
    cases hl
    exact .inl ⟨hvalid, rfl⟩
  next hvalid =>
    split at hl
    · cases hl
    next htype =>
      cases hl
      exact .inr ⟨Bool.eq_false_iff.mpr hvalid, htype, rfl⟩

theorem release_cases [DecidableEq π] {p : π} {u : Unit} (hr : s.release p h = .done u k) :
    (s.table h).holder = some p ∧ k = s.setEntry h { s.table h with holder := none } := by
  unfold release at hr
  simp only at hr
  split at hr
  · cases hr
  next hholder =>
  split at hr
  · cases hr
  cases hr
  exact ⟨not_not.mp hholder, rfl⟩

theorem putBegin_cases [DecidableEq π] {p : π} {b : Bool} (hp : s.putBegin p h = .done b k) :
    (b = true ∧ (s.table h).referenceCount = 1 ∧ (s.table h).isValid = true ∧
      (s.table h).diskInode.linkCount = 0 ∧ (s.table h).holder = none ∧
      k = s.setEntry h { s.table h with holder := some p }) ∨
    (b = false ∧ ¬((s.table h).referenceCount = 1 ∧ (s.table h).isValid = true ∧
        (s.table h).diskInode.linkCount = 0) ∧
      k = s.setEntry h
        { s.table h with referenceCount := sub32 (s.table h).referenceCount 1 }) := by
  unfold putBegin at hp
  simp only at hp
  split at hp
  next hlast =>
    split at hp
    · cases hp
    next hholder =>
      cases hp
      exact .inl ⟨rfl, hlast.1, hlast.2.1, hlast.2.2, not_not.mp hholder, rfl⟩
  next hlast =>
    cases hp
    exact .inr ⟨rfl, hlast, rfl⟩

end Zigmaos.FileSystem.Kernel

namespace Zigmaos.InodeTable
open FileSystem Finset

/-- The `put` that is freeing the inode at `h`. -/
def Phase.Frees (f : Phase) (h : Handle) : Prop := f = .decided h ∨ f = .marked h ∨ f = .unlocked h

/-- The reference does not keep the inode allocated any more. -/
def Phase.Past (f : Phase) (h : Handle) : Prop := f = .marked h ∨ f = .unlocked h

variable {π : Type} [DecidableEq π] [Fintype π]

@[grind =] theorem frees_iff (f : Phase) (h : Handle) :
    f.Frees h ↔ f = .decided h ∨ f = .marked h ∨ f = .unlocked h := Iff.rfl

@[grind =] theorem past_iff (f : Phase) (h : Handle) :
    f.Past h ↔ f = .marked h ∨ f = .unlocked h := Iff.rfl

omit [Fintype π] in
@[grind =] theorem State.setPhase_phase (s : State π) (p q : π) (f : Phase) :
    (s.setPhase p f).phase q = if q = p then f else s.phase q := by
  simp [State.setPhase, Function.update_apply]

omit [Fintype π] in
@[grind =] theorem State.setPhase_kernel (s : State π) (p : π) (f : Phase) :
    (s.setPhase p f).kernel = s.kernel := rfl

omit [Fintype π] in
@[grind =] theorem State.setPhase_refs (s : State π) (p : π) (f : Phase) :
    (s.setPhase p f).refs = s.refs := rfl

omit [Fintype π] in
@[grind =] theorem State.setPhase_unlinked (s : State π) (p : π) (f : Phase) :
    (s.setPhase p f).unlinked = s.unlinked := rfl

structure Invariant (s : State π) : Prop where
  unique : ∀ g h, 0 < (s.kernel.table g).referenceCount → 0 < (s.kernel.table h).referenceCount →
    (s.kernel.table g).id = (s.kernel.table h).id → g = h
  count : ∀ h, (s.kernel.table h).referenceCount = ∑ p, s.refs p h
  held : ∀ h p, (s.kernel.table h).holder = some p →
    0 < s.refs p h ∧ (s.kernel.table h).isValid = true
  frees_one : ∀ p h, (s.phase p).Frees h → s.refs p h = 1
  frees_unique : ∀ p q h, (s.phase p).Frees h → (s.phase q).Frees h → p = q
  decided : ∀ p h, s.phase p = .decided h → (s.kernel.table h).holder = some p ∧
    (s.kernel.table h).referenceCount = 1 ∧ (s.kernel.table h).diskInode.linkCount = 0
  marked : ∀ p h, s.phase p = .marked h → (s.kernel.table h).holder = some p ∧
    s.unlinked (s.kernel.table h).id = false
  unlocked : ∀ p h, s.phase p = .unlocked h → (s.kernel.table h).holder ≠ some p
  coherent : ∀ h, 0 < (s.kernel.table h).referenceCount → (s.kernel.table h).isValid = true →
    (∀ p, s.phase p ≠ .marked h) →
    (s.kernel.table h).diskInode = s.kernel.disk (s.kernel.table h).id ∧
      (s.kernel.disk (s.kernel.table h).id).type ≠ .free
  used : ∀ p h, 0 < s.refs p h → ¬(s.phase p).Past h →
    (s.kernel.disk (s.kernel.table h).id).type ≠ .free
  free : ∀ id, (s.kernel.disk id).type = .free → (s.kernel.disk id).linkCount = 0
  unlinked : ∀ id, s.unlinked id = true → (s.kernel.disk id).linkCount = 0 ∧
    ∃ h p, 0 < s.refs p h ∧ (s.kernel.table h).id = id ∧ (s.kernel.table h).isValid = true ∧
      ¬(s.phase p).Past h
  allocated : ∀ p id, s.phase p = .allocated id → (s.kernel.disk id).type ≠ .free ∧
    (s.kernel.disk id).linkCount = 0 ∧ s.unlinked id = false ∧
    ∀ q h, 0 < s.refs q h → (s.kernel.table h).id = id → (s.phase q).Past h
  allocated_unique : ∀ p q id, s.phase p = .allocated id → s.phase q = .allocated id → p = q

omit [DecidableEq π] in
theorem Invariant.refs_le {s : State π} (hs : Invariant s) (p : π) (h : Handle) :
    s.refs p h ≤ (s.kernel.table h).referenceCount := by
  rw [hs.count]
  exact single_le_sum_of_canonicallyOrdered (f := fun q => s.refs q h) (mem_univ p)

omit [DecidableEq π] in
theorem Invariant.ref_pos {s : State π} (hs : Invariant s) {p : π} {h : Handle}
    (hp : 0 < s.refs p h) : 0 < (s.kernel.table h).referenceCount :=
  hp.trans_le (hs.refs_le p h)

theorem Invariant.two_refs {s : State π} (hs : Invariant s) {p q : π} {h : Handle} (hpq : p ≠ q) :
    s.refs p h + s.refs q h ≤ (s.kernel.table h).referenceCount := by
  rw [hs.count, ← add_sum_erase univ (fun r => s.refs r h) (mem_univ p)]
  have : s.refs q h ≤ ∑ r ∈ univ.erase p, s.refs r h :=
    single_le_sum_of_canonicallyOrdered (f := fun r => s.refs r h) (mem_erase.mpr ⟨hpq.symm, mem_univ q⟩)
  omega

theorem sum_addRef (refs : π → Handle → ℕ) (p : π) (g h : Handle) :
    ∑ q, addRef refs p h q g = (∑ q, refs q g) + if g = h then 1 else 0 := by
  simp only [addRef, sum_add_distrib]
  by_cases hg : g = h <;> simp [hg]

omit [Fintype π] in
theorem addRef_dropRef {refs : π → Handle → ℕ} {p : π} {h : Handle} (hp : 0 < refs p h) :
    addRef (dropRef refs p h) p h = refs := by
  funext q g
  simp only [addRef, dropRef]
  split
  next hq =>
    obtain ⟨rfl, rfl⟩ := hq
    omega
  · rfl

theorem sum_dropRef {refs : π → Handle → ℕ} {p : π} {h : Handle} (hp : 0 < refs p h) (g : Handle) :
    ∑ q, dropRef refs p h q g = (∑ q, refs q g) - if g = h then 1 else 0 := by
  have := sum_addRef (dropRef refs p h) p g h
  rw [addRef_dropRef hp] at this
  omega

omit [Fintype π] in
theorem addRef_pos {refs : π → Handle → ℕ} {p q : π} {h g : Handle} :
    0 < addRef refs p h q g ↔ 0 < refs q g ∨ (q = p ∧ g = h) := by
  simp only [addRef]
  split
  · simp_all
  · simp_all

omit [Fintype π] in
theorem addRef_of_ne {refs : π → Handle → ℕ} {p q : π} {h g : Handle} (hq : ¬(q = p ∧ g = h)) :
    addRef refs p h q g = refs q g := by
  simp [addRef, hq]

omit [Fintype π] in
theorem dropRef_of_ne {refs : π → Handle → ℕ} {p q : π} {h g : Handle} (hq : ¬(q = p ∧ g = h)) :
    dropRef refs p h q g = refs q g := by
  simp [dropRef, hq]

omit [Fintype π] in
theorem dropRef_self (refs : π → Handle → ℕ) (p : π) (h : Handle) :
    dropRef refs p h p h = refs p h - 1 := by
  simp [dropRef]

omit [Fintype π] in
theorem dropRef_le (refs : π → Handle → ℕ) (p q : π) (h g : Handle) :
    dropRef refs p h q g ≤ refs q g := Nat.sub_le _ _

theorem not_frees_running {h : Handle} : ¬Phase.running.Frees h := by
  rintro (h | h | h) <;> cases h

theorem not_past_running {h : Handle} : ¬Phase.running.Past h := by
  rintro (h | h) <;> cases h

/-- One more reference to an entry that is in the table. -/
theorem Invariant.addRef {s : State π} (hs : Invariant s) {p : π} {h : Handle}
    (hrun : s.phase p = .running) (hpos : 0 < (s.kernel.table h).referenceCount)
    (htype : (s.kernel.disk (s.kernel.table h).id).type ≠ .free)
    (hdecided : ∀ q, s.phase q ≠ .decided h)
    (hallocated : ∀ q, s.phase q ≠ .allocated (s.kernel.table h).id) :
    Invariant { s with
      kernel := s.kernel.setEntry h
        { s.kernel.table h with referenceCount := (s.kernel.table h).referenceCount + 1 }
      refs := InodeTable.addRef s.refs p h } := by
  have hid : ∀ g, ((s.kernel.setEntry h { s.kernel.table h with
      referenceCount := (s.kernel.table h).referenceCount + 1 }).table g).id =
      (s.kernel.table g).id := by
    intro g
    simp only [Kernel.setEntry_table]
    split <;> simp_all
  have hvalid : ∀ g, ((s.kernel.setEntry h { s.kernel.table h with
      referenceCount := (s.kernel.table h).referenceCount + 1 }).table g).isValid =
      (s.kernel.table g).isValid := by
    intro g
    simp only [Kernel.setEntry_table]
    split <;> simp_all
  have hholder : ∀ g, ((s.kernel.setEntry h { s.kernel.table h with
      referenceCount := (s.kernel.table h).referenceCount + 1 }).table g).holder =
      (s.kernel.table g).holder := by
    intro g
    simp only [Kernel.setEntry_table]
    split <;> simp_all
  have hdisk : ∀ g, ((s.kernel.setEntry h { s.kernel.table h with
      referenceCount := (s.kernel.table h).referenceCount + 1 }).table g).diskInode =
      (s.kernel.table g).diskInode := by
    intro g
    simp only [Kernel.setEntry_table]
    split <;> simp_all
  have href : ∀ g, 0 < ((s.kernel.setEntry h { s.kernel.table h with
      referenceCount := (s.kernel.table h).referenceCount + 1 }).table g).referenceCount →
      0 < (s.kernel.table g).referenceCount := by
    intro g
    simp only [Kernel.setEntry_table]
    split <;> simp_all
  constructor
  case unique =>
    intro g g' hg hg' heq
    exact hs.unique g g' (href g hg) (href g' hg') (by rwa [hid, hid] at heq)
  case count =>
    intro g
    simp only [Kernel.setEntry_table, sum_addRef, ← hs.count]
    split <;> simp_all
  case held =>
    intro g q hq
    rw [hholder] at hq
    rw [hvalid]
    obtain ⟨h1, h2⟩ := hs.held g q hq
    exact ⟨addRef_pos.mpr (.inl h1), h2⟩
  case frees_one =>
    intro q g hq
    have hne : ¬(q = p ∧ g = h) := by
      rintro ⟨rfl, rfl⟩
      rw [hrun] at hq
      exact not_frees_running hq
    exact (addRef_of_ne hne).trans (hs.frees_one q g hq)
  case frees_unique => exact hs.frees_unique
  case decided =>
    intro q g hq
    rw [hholder]
    have := hs.decided q g hq
    grind
  case marked =>
    intro q g hq
    rw [hholder, hid]
    exact hs.marked q g hq
  case unlocked =>
    intro q g hq
    have := hs.unlocked q g
    grind
  case coherent =>
    intro g hg hv hm
    rw [hid, hdisk]
    exact hs.coherent g (href g hg) (by rwa [hvalid] at hv) hm
  case used =>
    intro q g hq hpast
    rw [hid]
    obtain hq | ⟨rfl, rfl⟩ := addRef_pos.mp hq
    · exact hs.used q g hq hpast
    · exact htype
  case free => exact hs.free
  case unlinked =>
    intro id hun
    obtain ⟨h0, g, q, hq, hgid, hv, hpast⟩ := hs.unlinked id hun
    exact ⟨h0, g, q, addRef_pos.mpr (.inl hq), (hid g).trans hgid, (hvalid g).trans hv, hpast⟩
  case allocated =>
    intro q id hq
    obtain ⟨h1, h2, h3, h4⟩ := hs.allocated q id hq
    refine ⟨h1, h2, h3, fun r g hr hgid => ?_⟩
    rw [hid] at hgid
    obtain hr | ⟨rfl, rfl⟩ := addRef_pos.mp hr
    · exact h4 r g hr hgid
    · exact absurd (hgid ▸ hq) (hallocated q)
  case allocated_unique => exact hs.allocated_unique

/-- An entry that nothing refers to is taken for an inode that is not in the table. -/
theorem Invariant.recycle {s : State π} (hs : Invariant s) {p : π} {h : Handle} {id : InodeId}
    (hrun : s.phase p = .running) (hzero : (s.kernel.table h).referenceCount = 0)
    (hnone : ∀ g, 0 < (s.kernel.table g).referenceCount → (s.kernel.table g).id ≠ id)
    (htype : (s.kernel.disk id).type ≠ .free) (hallocated : ∀ q, s.phase q ≠ .allocated id) :
    Invariant { s with
      kernel := s.kernel.setEntry h
        { s.kernel.table h with id := id, referenceCount := 1, isValid := false }
      refs := InodeTable.addRef s.refs p h } := by
  have hrefs : ∀ q, s.refs q h = 0 := fun q => by
    have := hs.refs_le q h
    omega
  have hnofrees : ∀ q, ¬(s.phase q).Frees h := fun q hq => by
    have := hs.frees_one q h hq
    have := hrefs q
    omega
  have hother : ∀ q g, 0 < s.refs q g → g ≠ h := by
    rintro q g hq rfl
    have := hrefs q
    omega
  have hnoholder : (s.kernel.table h).holder = none := by
    by_contra hh
    obtain ⟨q, hq⟩ := Option.ne_none_iff_exists'.mp hh
    have := (hs.held h q hq).1
    have := hrefs q
    omega
  constructor
  case unique => grind [hs.unique]
  case count =>
    intro g
    simp only [Kernel.setEntry_table, sum_addRef, ← hs.count]
    split <;> simp_all
  case held =>
    intro g q hq
    have := hs.held g q
    grind [addRef_pos]
  case frees_one =>
    intro q g hq
    have hne : ¬(q = p ∧ g = h) := by
      rintro ⟨rfl, rfl⟩
      exact hnofrees q hq
    exact (addRef_of_ne hne).trans (hs.frees_one q g hq)
  case frees_unique => exact hs.frees_unique
  case decided =>
    intro q g hq
    have := hs.decided q g hq
    grind [Phase.Frees]
  case marked =>
    intro q g hq
    have := hs.marked q g hq
    grind [Phase.Frees]
  case unlocked =>
    intro q g hq
    have := hs.unlocked q g
    grind
  case coherent =>
    intro g hg hv hm
    have := hs.coherent g
    grind
  case used =>
    intro q g hq hpast
    have hused := hs.used q g
    grind [addRef_pos]
  case free => exact hs.free
  case unlinked =>
    intro i hi
    obtain ⟨h0, g, q, hq, hid, hv, hpast⟩ := hs.unlinked i hi
    refine ⟨h0, g, q, ?_, ?_, ?_, hpast⟩ <;> grind [addRef_pos]
  case allocated =>
    intro q i hq
    obtain ⟨h1, h2, h3, h4⟩ := hs.allocated q i hq
    refine ⟨h1, h2, h3, fun r g hr hgid => ?_⟩
    have := h4 r g
    grind [addRef_pos]
  case allocated_unique => exact hs.allocated_unique

theorem Invariant.lock {s : State π} (hs : Invariant s) {p : π} {h : Handle} {k : Kernel π}
    {u : Unit} (hrun : s.phase p = .running) (href : 0 < s.refs p h)
    (hl : s.kernel.lock p h = .done u k) : Invariant { s with kernel := k } := by
  obtain ⟨hnone, hpos, hk⟩ := Kernel.lock_cases hl
  have hnot : ∀ q, s.phase q ≠ .decided h ∧ s.phase q ≠ .marked h := fun q =>
    ⟨fun hq => by have := (hs.decided q h hq).1; simp_all,
      fun hq => by have := (hs.marked q h hq).1; simp_all⟩
  have hcoh := hs.coherent h hpos
  have hkdisk : k.disk = s.kernel.disk := by
    obtain ⟨-, rfl⟩ | ⟨-, -, rfl⟩ := hk <;> rfl
  constructor
  case unique => grind [hs.unique]
  case count =>
    intro g
    have := hs.count g
    grind
  case held =>
    intro g q hq
    have := hs.held g q
    grind
  case frees_one => exact hs.frees_one
  case frees_unique => exact hs.frees_unique
  case decided =>
    intro q g hq
    have := hs.decided q g hq
    grind
  case marked =>
    intro q g hq
    have := hs.marked q g hq
    grind
  case unlocked =>
    intro q g hq
    have := hs.unlocked q g
    grind
  case coherent =>
    intro g hg hv hm
    have := hs.coherent g
    grind
  case used =>
    intro q g hq hpast
    have hused := hs.used q g hq hpast
    grind
  case free =>
    intro i hi
    have := hs.free i
    grind
  case unlinked =>
    intro i hi
    obtain ⟨h0, g, q, hq, hid, hv, hpast⟩ := hs.unlinked i hi
    refine ⟨?_, g, q, ?_, ?_, ?_, hpast⟩ <;> grind
  case allocated =>
    intro q i hq
    obtain ⟨h1, h2, h3, h4⟩ := hs.allocated q i hq
    refine ⟨hkdisk ▸ h1, hkdisk ▸ h2, h3, fun r g hr hgid => ?_⟩
    have := h4 r g
    grind
  case allocated_unique => exact hs.allocated_unique

theorem Invariant.release {s : State π} (hs : Invariant s) {p : π} {h : Handle} {k : Kernel π}
    {u : Unit} (hrun : s.phase p = .running)
    (hr : s.kernel.release p h = .done u k) : Invariant { s with kernel := k } := by
  obtain ⟨hholder, rfl⟩ := Kernel.release_cases hr
  have hnot : ∀ q, s.phase q ≠ .decided h ∧ s.phase q ≠ .marked h := fun q =>
    ⟨fun hq => by have := (hs.decided q h hq).1; simp_all,
      fun hq => by have := (hs.marked q h hq).1; simp_all⟩
  constructor
  case unique => grind [hs.unique]
  case count =>
    intro g
    have := hs.count g
    grind
  case held =>
    intro g q hq
    have := hs.held g q
    grind
  case frees_one => exact hs.frees_one
  case frees_unique => exact hs.frees_unique
  case decided =>
    intro q g hq
    have := hs.decided q g hq
    grind
  case marked =>
    intro q g hq
    have := hs.marked q g hq
    grind
  case unlocked =>
    intro q g hq
    have := hs.unlocked q g
    grind
  case coherent =>
    intro g hg hv hm
    have := hs.coherent g
    grind
  case used =>
    intro q g hq hpast
    have hused := hs.used q g hq hpast
    grind
  case free => exact hs.free
  case unlinked =>
    intro i hi
    obtain ⟨h0, g, q, hq, hid, hv, hpast⟩ := hs.unlinked i hi
    refine ⟨h0, g, q, ?_, ?_, ?_, hpast⟩ <;> grind
  case allocated =>
    intro q i hq
    obtain ⟨h1, h2, h3, h4⟩ := hs.allocated q i hq
    refine ⟨h1, h2, h3, fun r g hr hgid => ?_⟩
    have := h4 r g
    grind
  case allocated_unique => exact hs.allocated_unique

omit [DecidableEq π] in
theorem Invariant.update {s : State π} (hs : Invariant s) {p : π} {h : Handle} {n : ℕ}
    (hrun : s.phase p = .running) (hholder : (s.kernel.table h).holder = some p) :
    Invariant { s with
      kernel := s.kernel.store h { (s.kernel.table h).diskInode with linkCount := n }
      unlinked := Function.update s.unlinked (s.kernel.table h).id
        (n = 0 && (s.unlinked (s.kernel.table h).id || 0 < (s.kernel.table h).diskInode.linkCount)) } := by
  obtain ⟨href, hvalid⟩ := hs.held h p hholder
  have hpos := hs.ref_pos href
  have hnot : ∀ q, s.phase q ≠ .decided h ∧ s.phase q ≠ .marked h := fun q =>
    ⟨fun hq => by have := (hs.decided q h hq).1; simp_all,
      fun hq => by have := (hs.marked q h hq).1; simp_all⟩
  obtain ⟨hdisk, htype⟩ := hs.coherent h hpos hvalid (fun q => (hnot q).2)
  have hpast : ¬(s.phase p).Past h := by
    rw [hrun]
    exact not_past_running
  have hunique : ∀ g, 0 < (s.kernel.table g).referenceCount →
      (s.kernel.table g).id = (s.kernel.table h).id → g = h := fun g hg => hs.unique g h hg hpos
  constructor
  case unique => grind [hs.unique]
  case count =>
    intro g
    have := hs.count g
    grind
  case held =>
    intro g q hq
    have := hs.held g q
    grind
  case frees_one => exact hs.frees_one
  case frees_unique => exact hs.frees_unique
  case decided =>
    intro q g hq
    have := hs.decided q g hq
    grind
  case marked =>
    intro q g hq
    have := hs.marked q g hq
    have := hs.ref_pos (hs.held g q this.1).1
    grind [Function.update_apply]
  case unlocked =>
    intro q g hq
    have := hs.unlocked q g
    grind
  case coherent =>
    intro g hg hv hm
    have := hs.coherent g
    grind
  case used =>
    intro q g hq hpast
    have hused := hs.used q g hq hpast
    grind
  case free =>
    intro i hi
    have := hs.free i
    grind
  case unlinked =>
    intro i hi
    by_cases hid : i = (s.kernel.table h).id
    · subst hid
      refine ⟨?_, h, p, href, ?_, ?_, hpast⟩ <;> grind [Function.update_apply]
    · have hi' : s.unlinked i = true := by grind [Function.update_apply]
      obtain ⟨h0, g, q, hq, hgid, hv, hpast'⟩ := hs.unlinked i hi'
      refine ⟨?_, g, q, hq, ?_, ?_, hpast'⟩ <;> grind
  case allocated =>
    intro q i hq
    obtain ⟨h1, h2, h3, h4⟩ := hs.allocated q i hq
    have hid : i ≠ (s.kernel.table h).id := by
      rintro rfl
      exact hpast (h4 p h href rfl)
    refine ⟨?_, ?_, ?_, fun r g hr hgid => h4 r g hr ?_⟩ <;> grind [Function.update_apply]
  case allocated_unique => exact hs.allocated_unique

/-- A reference is dropped that no free of the inode waits for. -/
theorem Invariant.dropRef {s : State π} (hs : Invariant s) {p : π} {h : Handle}
    (hrun : s.phase p = .running) (href : 0 < s.refs p h)
    (hholder : (s.kernel.table h).holder = some p → 2 ≤ s.refs p h)
    (hun : ∀ i, s.unlinked i = true → (s.kernel.table h).id = i →
      2 ≤ s.refs p h ∨ ∃ q, q ≠ p ∧ 0 < s.refs q h ∧ ¬(s.phase q).Past h) :
    Invariant { s with
      kernel := s.kernel.setEntry h
        { s.kernel.table h with referenceCount := sub32 (s.kernel.table h).referenceCount 1 }
      refs := InodeTable.dropRef s.refs p h } := by
  have hpos := hs.ref_pos href
  have hsub : sub32 (s.kernel.table h).referenceCount 1 =
      (s.kernel.table h).referenceCount - 1 := by
    rw [sub32, if_pos (by omega)]
  have hdrop := fun q g => dropRef_le s.refs p q h g
  have hpast : ¬(s.phase p).Past h := by
    rw [hrun]
    exact not_past_running
  have hdecided : ∀ q, s.phase q ≠ .decided h := fun q hq => by
    obtain ⟨h1, h2, -⟩ := hs.decided q h hq
    have hqp : q ≠ p := by
      rintro rfl
      simp_all
    have := hs.two_refs (h := h) hqp
    have := (hs.held h q h1).1
    omega
  constructor
  case unique => grind [hs.unique]
  case count =>
    intro g
    have := hs.count g
    simp only [sum_dropRef href]
    grind
  case held =>
    intro g q hq
    have := hs.held g q
    have : 0 < s.refs q g → ¬(q = p ∧ g = h ∧ s.refs p h = 1) →
        0 < InodeTable.dropRef s.refs p h q g := by
      intro hq hn
      simp only [InodeTable.dropRef]
      grind
    grind
  case frees_one =>
    intro q g hq
    have hne : ¬(q = p ∧ g = h) := by
      rintro ⟨rfl, rfl⟩
      rw [hrun] at hq
      exact not_frees_running hq
    exact (dropRef_of_ne hne).trans (hs.frees_one q g hq)
  case frees_unique => exact hs.frees_unique
  case decided =>
    intro q g hq
    have := hs.decided q g hq
    grind
  case marked =>
    intro q g hq
    have := hs.marked q g hq
    grind
  case unlocked =>
    intro q g hq
    have := hs.unlocked q g
    grind
  case coherent =>
    intro g hg hv hm
    have := hs.coherent g
    grind
  case used =>
    intro q g hq hpast
    have hused := hs.used q g
    have := hdrop q g
    grind
  case free => exact hs.free
  case unlinked =>
    intro i hi
    obtain ⟨h0, g, q, hq, hid, hv, hpast'⟩ := hs.unlinked i hi
    by_cases hqp : q = p ∧ g = h
    · obtain ⟨rfl, rfl⟩ := hqp
      obtain htwo | ⟨r, hr, hrpos, hrpast⟩ := hun i hi hid
      · have hself := dropRef_self s.refs q g
        refine ⟨h0, g, q, ?_, ?_, ?_, hpast'⟩ <;> grind
      · have hne : InodeTable.dropRef s.refs q g r g = s.refs r g :=
          dropRef_of_ne (fun hh => hr hh.1)
        refine ⟨h0, g, r, ?_, ?_, ?_, hrpast⟩ <;> grind
    · have hne : InodeTable.dropRef s.refs p h q g = s.refs q g := dropRef_of_ne hqp
      refine ⟨h0, g, q, ?_, ?_, ?_, hpast'⟩ <;> grind
  case allocated =>
    intro q i hq
    obtain ⟨h1, h2, h3, h4⟩ := hs.allocated q i hq
    refine ⟨h1, h2, h3, fun r g hr hgid => ?_⟩
    have := h4 r g
    have := hdrop r g
    grind
  case allocated_unique => exact hs.allocated_unique

/-- `put` decides to free the inode and takes its lock. -/
theorem Invariant.decide {s : State π} (hs : Invariant s) {p : π} {h : Handle}
    (hrun : s.phase p = .running) (href : 0 < s.refs p h)
    (hone : (s.kernel.table h).referenceCount = 1) (hvalid : (s.kernel.table h).isValid = true)
    (hlinks : (s.kernel.table h).diskInode.linkCount = 0) :
    Invariant { s.setPhase p (.decided h) with
      kernel := s.kernel.setEntry h { s.kernel.table h with holder := some p } } := by
  have hrefs : s.refs p h = 1 := by
    have := hs.refs_le p h
    omega
  have hnofrees : ∀ q, ¬(s.phase q).Frees h := by
    intro q hq
    have hqp : q ≠ p := by
      rintro rfl
      rw [hrun] at hq
      exact not_frees_running hq
    have := hs.frees_one q h hq
    have := hs.two_refs (h := h) hqp
    omega
  have hphase := fun q => s.setPhase_phase p q (.decided h)
  constructor
  case unique => grind [hs.unique]
  case count =>
    intro g
    have := hs.count g
    grind
  case held =>
    intro g q hq
    have := hs.held g q
    grind
  case frees_one =>
    intro q g hq
    have := hs.frees_one q g
    grind
  case frees_unique =>
    intro q r g hq hr
    have := hs.frees_unique q r g
    grind
  case decided =>
    intro q g hq
    have := hs.decided q g
    grind
  case marked =>
    intro q g hq
    have := hs.marked q g
    grind
  case unlocked =>
    intro q g hq
    have := hs.unlocked q g
    grind
  case coherent =>
    intro g hg hv hm
    have := hs.coherent g
    grind
  case used =>
    intro q g hq hpast
    have := hs.used q g hq
    grind
  case free => exact hs.free
  case unlinked =>
    intro i hi
    obtain ⟨h0, g, q, hq, hid, hv, hpast⟩ := hs.unlinked i hi
    refine ⟨h0, g, q, hq, ?_, ?_, ?_⟩ <;> grind
  case allocated =>
    intro q i hq
    have hold := hs.allocated q i (by grind)
    obtain ⟨h1, h2, h3, h4⟩ := hold
    refine ⟨h1, h2, h3, fun r g hr hgid => ?_⟩
    have := h4 r g hr
    grind
  case allocated_unique =>
    intro q r i hq hr
    have := hs.allocated_unique q r i
    grind

/-- The inode that `put` decided to free is marked free. -/
theorem Invariant.mark {s : State π} (hs : Invariant s) {p : π} {h : Handle}
    (hp : s.phase p = .decided h) :
    Invariant { s.setPhase p (.marked h) with
      kernel := s.kernel.store h { (s.kernel.table h).diskInode with content := [], type := .free }
      unlinked := Function.update s.unlinked (s.kernel.table h).id false } := by
  obtain ⟨hholder, hone, hlinks⟩ := hs.decided p h hp
  obtain ⟨href, hvalid⟩ := hs.held h p hholder
  have hpos := hs.ref_pos href
  have hothers : ∀ q, q ≠ p → s.refs q h = 0 := fun q hq => by
    have := hs.two_refs (h := h) hq
    omega
  have hnofrees : ∀ q, q ≠ p → ¬(s.phase q).Frees h := fun q hq hf => by
    have := hs.frees_one q h hf
    have := hothers q hq
    omega
  have hunique : ∀ g, 0 < (s.kernel.table g).referenceCount →
      (s.kernel.table g).id = (s.kernel.table h).id → g = h := fun g hg => hs.unique g h hg hpos
  have hphase := fun q => s.setPhase_phase p q (.marked h)
  constructor
  case unique => grind [hs.unique]
  case count =>
    intro g
    have := hs.count g
    grind
  case held =>
    intro g q hq
    have := hs.held g q
    grind
  case frees_one =>
    intro q g hq
    have := hs.frees_one q g
    grind
  case frees_unique =>
    intro q r g hq hr
    have := hs.frees_unique q r g
    grind
  case decided =>
    intro q g hq
    have := hs.decided q g
    grind
  case marked =>
    intro q g hq
    have := hs.marked q g
    grind [Function.update_apply]
  case unlocked =>
    intro q g hq
    have := hs.unlocked q g
    grind
  case coherent =>
    intro g hg hv hm
    have := hs.coherent g
    grind
  case used =>
    intro q g hq hpast
    have := hs.used q g hq
    have := hs.ref_pos hq
    have hh : q ≠ p → s.refs q g = 0 ∨ g ≠ h := fun hqp => by
      have := hothers q hqp
      grind
    grind
  case free =>
    intro i hi
    have := hs.free i
    grind
  case unlinked =>
    intro i hi
    obtain ⟨h0, g, q, hq, hid, hv, hpast⟩ := hs.unlinked i (by grind [Function.update_apply])
    have := hs.ref_pos hq
    have hne : g ≠ h := by
      rintro rfl
      grind [Function.update_apply]
    refine ⟨?_, g, q, hq, ?_, ?_, ?_⟩ <;> grind
  case allocated =>
    intro q i hq
    obtain ⟨h1, h2, h3, h4⟩ := hs.allocated q i (by grind)
    have hid : i ≠ (s.kernel.table h).id := by
      rintro rfl
      have := h4 p h href rfl
      grind
    refine ⟨?_, ?_, ?_, fun r g hr hgid => ?_⟩
    · grind
    · grind
    · grind [Function.update_apply]
    · have := h4 r g hr
      grind
  case allocated_unique =>
    intro q r i hq hr
    have := hs.allocated_unique q r i
    grind

/-- The freeing `put` releases the lock of the inode. -/
theorem Invariant.unlock {s : State π} (hs : Invariant s) {p : π} {h : Handle}
    (hp : s.phase p = .marked h) :
    Invariant { s.setPhase p (.unlocked h) with
      kernel := s.kernel.setEntry h
        { s.kernel.table h with isValid := false, holder := none } } := by
  obtain ⟨hholder, hun⟩ := hs.marked p h hp
  have hpos := hs.ref_pos (hs.held h p hholder).1
  have hphase := fun q => s.setPhase_phase p q (.unlocked h)
  constructor
  case unique => grind [hs.unique]
  case count =>
    intro g
    have := hs.count g
    grind
  case held =>
    intro g q hq
    have := hs.held g q
    grind
  case frees_one =>
    intro q g hq
    have := hs.frees_one q g
    grind
  case frees_unique =>
    intro q r g hq hr
    have := hs.frees_unique q r g
    grind
  case decided =>
    intro q g hq
    have := hs.decided q g
    grind
  case marked =>
    intro q g hq
    have := hs.marked q g
    grind
  case unlocked =>
    intro q g hq
    have := hs.unlocked q g
    grind
  case coherent =>
    intro g hg hv hm
    have := hs.coherent g
    grind
  case used =>
    intro q g hq hpast
    have := hs.used q g hq
    grind
  case free => exact hs.free
  case unlinked =>
    intro i hi
    obtain ⟨h0, g, q, hq, hid, hv, hpast⟩ := hs.unlinked i hi
    refine ⟨h0, g, q, hq, ?_, ?_, ?_⟩ <;> grind
  case allocated =>
    intro q i hq
    obtain ⟨h1, h2, h3, h4⟩ := hs.allocated q i (by grind)
    refine ⟨h1, h2, h3, fun r g hr hgid => ?_⟩
    have := h4 r g hr
    grind
  case allocated_unique =>
    intro q r i hq hr
    have := hs.allocated_unique q r i
    grind

/-- The freeing `put` drops its reference. -/
theorem Invariant.finish {s : State π} (hs : Invariant s) {p : π} {h : Handle}
    (hp : s.phase p = .unlocked h) :
    Invariant { s.setPhase p .running with
      kernel := s.kernel.setEntry h { s.kernel.table h with
        referenceCount := sub32 (s.kernel.table h).referenceCount 1 }
      refs := InodeTable.dropRef s.refs p h } := by
  have hone := hs.frees_one p h (.inr (.inr hp))
  have hpos := hs.ref_pos (p := p) (h := h) (by omega)
  have hsub : sub32 (s.kernel.table h).referenceCount 1 =
      (s.kernel.table h).referenceCount - 1 := by
    rw [sub32, if_pos (by omega)]
  have hdrop := fun q g => dropRef_le s.refs p q h g
  have hphase := fun q => s.setPhase_phase p q .running
  have hnoholder := hs.unlocked p h hp
  constructor
  case unique => grind [hs.unique]
  case count =>
    intro g
    have := hs.count g
    simp only [sum_dropRef (by omega : 0 < s.refs p h)]
    grind
  case held =>
    intro g q hq
    have := hs.held g q
    have hne : ¬(q = p ∧ g = h) → InodeTable.dropRef s.refs p h q g = s.refs q g := dropRef_of_ne
    grind
  case frees_one =>
    intro q g hq
    have := hs.frees_one q g
    have hne : ¬(q = p ∧ g = h) → InodeTable.dropRef s.refs p h q g = s.refs q g := dropRef_of_ne
    grind
  case frees_unique =>
    intro q r g hq hr
    have := hs.frees_unique q r g
    grind
  case decided =>
    intro q g hq
    have := hs.decided q g
    have := hs.frees_unique p q g
    grind
  case marked =>
    intro q g hq
    have := hs.marked q g
    grind
  case unlocked =>
    intro q g hq
    have := hs.unlocked q g
    grind
  case coherent =>
    intro g hg hv hm
    have := hs.coherent g
    grind
  case used =>
    intro q g hq hpast
    have := hs.used q g
    have := hdrop q g
    have := dropRef_self s.refs p h
    grind
  case free => exact hs.free
  case unlinked =>
    intro i hi
    obtain ⟨h0, g, q, hq, hid, hv, hpast⟩ := hs.unlinked i hi
    have hne : ¬(q = p ∧ g = h) → InodeTable.dropRef s.refs p h q g = s.refs q g := dropRef_of_ne
    refine ⟨h0, g, q, ?_, ?_, ?_, ?_⟩ <;> grind
  case allocated =>
    intro q i hq
    obtain ⟨h1, h2, h3, h4⟩ := hs.allocated q i (by grind)
    refine ⟨h1, h2, h3, fun r g hr hgid => ?_⟩
    have := h4 r g
    have := hdrop r g
    have := dropRef_self s.refs p h
    grind
  case allocated_unique =>
    intro q r i hq hr
    have := hs.allocated_unique q r i
    grind

/-- `alloc` marks a free number as used. -/
theorem Invariant.alloc {s : State π} (hs : Invariant s) {p : π} {id : InodeId} {t : InodeType}
    (hrun : s.phase p = .running) (ht : t ≠ .free) (hfree : (s.kernel.disk id).type = .free) :
    Invariant { s.setPhase p (.allocated id) with
      kernel := { s.kernel with
        disk := Function.update s.kernel.disk id { DiskInode.empty with type := t } }
      unlinked := Function.update s.unlinked id false } := by
  have hphase := fun q => s.setPhase_phase p q (.allocated id)
  have hdisk := fun i => Function.update_apply s.kernel.disk id { DiskInode.empty with type := t } i
  have hun := fun i => Function.update_apply s.unlinked id false i
  constructor
  case unique => exact hs.unique
  case count => exact hs.count
  case held => exact hs.held
  case frees_one =>
    intro q g hq
    have := hs.frees_one q g
    grind
  case frees_unique =>
    intro q r g hq hr
    have := hs.frees_unique q r g
    grind
  case decided =>
    intro q g hq
    have := hs.decided q g
    grind
  case marked =>
    intro q g hq
    have := hs.marked q g
    grind
  case unlocked =>
    intro q g hq
    have := hs.unlocked q g
    grind
  case coherent =>
    intro g hg hv hm
    have := hs.coherent g
    grind
  case used =>
    intro q g hq hpast
    have := hs.used q g hq
    grind
  case free =>
    intro i hi
    have := hs.free i
    grind
  case unlinked =>
    intro i hi
    obtain ⟨h0, g, q, hq, hid, hv, hpast⟩ := hs.unlinked i (by grind)
    refine ⟨?_, g, q, hq, ?_, ?_, ?_⟩ <;> grind
  case allocated =>
    intro q i hq
    by_cases hqp : q = p
    · have hid : i = id := by grind
      subst hid
      refine ⟨?_, ?_, ?_, fun r g hr hgid => ?_⟩
      · grind
      · grind [DiskInode.empty]
      · grind
      · have := hs.used r g hr
        grind
    · obtain ⟨h1, h2, h3, h4⟩ := hs.allocated q i (by grind)
      refine ⟨?_, ?_, ?_, fun r g hr hgid => ?_⟩
      · grind
      · grind
      · grind
      · have := h4 r g hr
        grind
  case allocated_unique =>
    intro q r i hq hr
    have := hs.allocated_unique q r i
    have := hs.allocated q i
    have := hs.allocated r i
    grind

/-- The process that allocated a number is about to call `get`. -/
theorem Invariant.toRunning {s : State π} (hs : Invariant s) {p : π} {id : InodeId}
    (hp : s.phase p = .allocated id) : Invariant (s.setPhase p .running) := by
  have hphase := fun q => s.setPhase_phase p q .running
  constructor
  case unique => exact hs.unique
  case count => exact hs.count
  case held => exact hs.held
  case frees_one =>
    intro q g hq
    have := hs.frees_one q g
    grind
  case frees_unique =>
    intro q r g hq hr
    have := hs.frees_unique q r g
    grind
  case decided =>
    intro q g hq
    have := hs.decided q g
    grind
  case marked =>
    intro q g hq
    have := hs.marked q g
    grind
  case unlocked =>
    intro q g hq
    have := hs.unlocked q g
    grind
  case coherent =>
    intro g hg hv hm
    have := hs.coherent g hg hv
    grind
  case used =>
    intro q g hq hpast
    have := hs.used q g hq
    grind
  case free => exact hs.free
  case unlinked =>
    intro i hi
    obtain ⟨h0, g, q, hq, hid, hv, hpast⟩ := hs.unlinked i hi
    refine ⟨h0, g, q, hq, hid, hv, ?_⟩
    grind
  case allocated =>
    intro q i hq
    obtain ⟨h1, h2, h3, h4⟩ := hs.allocated q i (by grind)
    refine ⟨h1, h2, h3, fun r g hr hgid => ?_⟩
    have := h4 r g hr hgid
    grind
  case allocated_unique =>
    intro q r i hq hr
    have := hs.allocated_unique q r i
    grind

omit [DecidableEq π] in
theorem Initial.invariant {s : State π} (h : Initial s) : Invariant s := by
  have hphase := h.phase
  have htable := h.table
  have hrefs := h.refs
  have hun := h.unlinked
  constructor
  case count => simp [htable, hrefs]
  case free => exact h.free
  all_goals grind

/-- What the put that is not freeing may not meet: the other of the last two
references to an inode without links belongs to a put about to drop it. -/
def Loses (s : State π) (e : Event π) : Prop :=
  ∃ p q h, e = .put p h ∧ s.phase q = .unlocked h ∧ (s.kernel.table h).referenceCount = 2 ∧
    s.unlinked (s.kernel.table h).id = true

omit [DecidableEq π] in
theorem Invariant.unlinked_entry {s : State π} (hs : Invariant s) {p : π} {h : Handle}
    (href : 0 < s.refs p h) (hun : s.unlinked (s.kernel.table h).id = true) :
    (s.kernel.table h).isValid = true ∧ (s.kernel.table h).diskInode.linkCount = 0 ∧
      ∀ q, s.phase q ≠ .marked h := by
  obtain ⟨h0, g, q, hq, hid, hv, -⟩ := hs.unlinked _ hun
  obtain rfl := hs.unique g h (hs.ref_pos hq) (hs.ref_pos href) hid
  have hm : ∀ q, s.phase q ≠ .marked g := fun q hq => by
    have := (hs.marked q g hq).2
    simp_all
  refine ⟨hv, ?_, hm⟩
  rw [(hs.coherent g (hs.ref_pos href) hv hm).1]
  exact h0

theorem Invariant.other_ref {s : State π} (hs : Invariant s) {p : π} {h : Handle}
    (href : s.refs p h = 1) (htwo : 2 ≤ (s.kernel.table h).referenceCount)
    (hm : ∀ q, s.phase q ≠ .marked h)
    (hlose : ∀ q, s.phase q = .unlocked h → (s.kernel.table h).referenceCount ≠ 2) :
    ∃ q, q ≠ p ∧ 0 < s.refs q h ∧ ¬(s.phase q).Past h := by
  by_contra hnone
  push Not at hnone
  have hsum : (s.kernel.table h).referenceCount = 1 + ∑ q ∈ univ.erase p, s.refs q h := by
    rw [hs.count, ← add_sum_erase univ (fun r => s.refs r h) (mem_univ p), href]
  obtain ⟨q, hq, hqpos⟩ : ∃ q ∈ univ.erase p, s.refs q h ≠ 0 := by
    apply exists_ne_zero_of_sum_ne_zero
    omega
  have hqp : q ≠ p := ne_of_mem_erase hq
  have hpast := hnone q hqp (by omega)
  have hqu : s.phase q = .unlocked h := by
    have := hm q
    grind
  have hothers : ∀ r ∈ univ.erase p, r ≠ q → s.refs r h = 0 := by
    intro r hr hrq
    by_contra hpos
    have hrpast := hnone r (ne_of_mem_erase hr) (by omega)
    exact hrq (hs.frees_unique r q h (.inr hrpast) (.inr hpast))
  have hone := hs.frees_one q h (.inr hpast)
  rw [sum_eq_single_of_mem q hq hothers, hone] at hsum
  exact hlose q hqu hsum

theorem Invariant.get {s : State π} (hs : Invariant s) {p : π} {h : Handle} {id : InodeId}
    {k : Kernel π} (hrun : s.phase p = .running) (hg : s.kernel.get id = .done h k)
    (htype : (s.kernel.disk id).type ≠ .free) (hallocated : ∀ q, s.phase q ≠ .allocated id)
    (hdecided : ∀ q g, (s.kernel.table g).id = id → s.phase q ≠ .decided g) :
    Invariant { s with kernel := k, refs := InodeTable.addRef s.refs p h } := by
  obtain ⟨hpos, rfl, rfl⟩ | ⟨hzero, hnone, rfl⟩ := Kernel.get_cases hg
  · exact hs.addRef hrun hpos htype (fun q => hdecided q h rfl) hallocated
  · exact hs.recycle hrun hzero hnone htype hallocated

omit [DecidableEq π] in
theorem Invariant.linked {s : State π} (hs : Invariant s) {id : InodeId}
    (hlink : 0 < (s.kernel.disk id).linkCount) :
    (s.kernel.disk id).type ≠ .free ∧ (∀ q, s.phase q ≠ .allocated id) ∧
      ∀ q g, (s.kernel.table g).id = id → s.phase q ≠ .decided g := by
  refine ⟨fun hf => ?_, fun q hq => ?_, fun q g hid hq => ?_⟩
  · have := hs.free id hf
    omega
  · have := (hs.allocated q id hq).2.1
    omega
  · obtain ⟨hholder, hone, hlinks⟩ := hs.decided q g hq
    have hv := (hs.held g q hholder).2
    have hm : ∀ r, s.phase r ≠ .marked g := by
      intro r hr
      have := hs.frees_unique q r g (.inl hq) (.inr (.inl hr))
      simp_all
    have := (hs.coherent g (by omega) hv hm).1
    rw [this, hid] at hlinks
    omega

theorem invariant_step {s s' : State π} {e : Event π} (hs : Invariant s) (hgood : ¬Loses s e)
    (he : step s e = some s') : Invariant s' := by
  cases e with
  | get p id =>
    simp only [step] at he
    split at he
    next hen =>
      split at he
      next h k hg =>
        cases he
        obtain ⟨htype, hallocated, hdecided⟩ := hs.linked hen.2
        exact hs.get hen.1 hg htype hallocated hdecided
      · cases he
    · cases he
  | duplicate p h =>
    simp only [step] at he
    split at he
    next hen =>
      cases he
      have hpast : ¬(s.phase p).Past h := hen.1 ▸ not_past_running
      refine hs.addRef hen.1 (hs.ref_pos hen.2) (hs.used p h hen.2 hpast) (fun q hq => ?_)
        (fun q hq => hpast ((hs.allocated q _ hq).2.2.2 p h hen.2 rfl))
      have hqp : q ≠ p := by
        rintro rfl
        simp [hq] at hen
      have := hs.two_refs (h := h) hqp
      have := hs.frees_one q h (.inl hq)
      have := hs.decided q h hq
      omega
    · cases he
  | lock p h =>
    simp only [step] at he
    split at he
    next hen =>
      split at he
      next u k hl =>
        cases he
        exact hs.lock hen.1 hen.2 hl
      · cases he
    · cases he
  | release p h =>
    simp only [step] at he
    split at he
    next hrun =>
      split at he
      next u k hr =>
        cases he
        exact hs.release hrun hr
      · cases he
    · cases he
  | update p h n =>
    simp only [step] at he
    split at he
    next hen =>
      cases he
      exact hs.update hen.1 hen.2
    · cases he
  | put p h =>
    simp only [step] at he
    split at he
    next hen =>
      obtain ⟨hrun, href, hholder⟩ := hen
      split at he
      next k hput =>
        cases he
        obtain ⟨-, hone, hv, hl, hnone, rfl⟩ | ⟨hb, -⟩ := Kernel.putBegin_cases hput
        · exact hs.decide hrun href hone hv hl
        · cases hb
      next k hput =>
        cases he
        obtain ⟨hb, -⟩ | ⟨-, hlast, rfl⟩ := Kernel.putBegin_cases hput
        · cases hb
        refine hs.dropRef hrun href hholder (fun i hi hid => ?_)
        subst hid
        obtain ⟨hv, hl, hm⟩ := hs.unlinked_entry href hi
        have hle := hs.refs_le p h
        have hne : (s.kernel.table h).referenceCount ≠ 1 := fun hone => hlast ⟨hone, hv, hl⟩
        by_cases htwo : 2 ≤ s.refs p h
        · exact .inl htwo
        · exact .inr (hs.other_ref (by omega) (by omega) hm
            (fun q hq hc => hgood ⟨p, q, h, rfl, hq, hc, hi⟩))
      · cases he
    · cases he
  | alloc p id t =>
    simp only [step] at he
    split at he
    next hen =>
      cases he
      exact hs.alloc hen.1 hen.2.1 hen.2.2
    · cases he
  | step p =>
    simp only [step] at he
    split at he
    · cases he
    next h hp =>
      cases he
      exact hs.mark hp
    next h hp =>
      cases he
      exact hs.unlock hp
    next h hp =>
      cases he
      exact hs.finish hp
    next id hp =>
      split at he
      next h k hg =>
        cases he
        obtain ⟨htype, -, -, hpast⟩ := hs.allocated p id hp
        have hphase := fun q => s.setPhase_phase p q .running
        refine (hs.toRunning hp).get (s := s.setPhase p .running) (by grind) hg htype
          (fun q hq => ?_) (fun q g hid hq => ?_)
        · have := hs.allocated_unique p q id hp
          grind
        · have hq' : s.phase q = .decided g := by grind
          have := hs.frees_one q g (.inl hq')
          have := hpast q g (by omega) hid
          grind
      · cases he

theorem invariant_run {s₀ s : State π} {es : List (Event π)} (h0 : Initial s₀)
    (hgood : ∀ es' e t, es' ++ [e] <+: es → Transition.run step s₀ es' = some t → ¬Loses t e)
    (hrun : Transition.run step s₀ es = some s) : Invariant s := by
  refine Transition.run_induction (P := fun fs s => fs <+: es → Invariant s)
    (fun _ => h0.invariant) (fun fs t e t' ht ih he hp => ?_) es s hrun (List.prefix_refl es)
  exact invariant_step (ih ((List.prefix_append fs [e]).trans hp)) (hgood fs e t hp ht) he

def inodeTwo : InodeId := ⟨.rootFsDevice, 2⟩

/-- A file at inode number 2, and nothing in the table. -/
def oneFile : State Bool where
  kernel := {
    ninodes := 200
    disk := fun id => if id = inodeTwo then ⟨.zero, [], .file, 1⟩ else .empty
    table := fun _ => ⟨⟨.zero, 0⟩, 0, none, false, .empty⟩
    files := fun _ => ⟨0, false, false, .none⟩
    processes := fun _ => ⟨0, fun _ => none, false⟩
    space := fun _ => true
    requests := 0
    depth := fun _ => 0
    nested := false }
  refs := fun _ _ => 0
  phase := fun _ => .running
  unlinked := fun _ => false

end Zigmaos.InodeTable
