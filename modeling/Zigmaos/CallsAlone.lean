import Zigmaos.PathResolution

/-!
# A call that runs alone

What a call has done to the inode table between its first operation and its
last: the references it has taken, the locks it holds, and an entry of the table
for each that agrees with the inode on disk. A call that ends gives back what it
took; a panic or a wait for a lock ends nothing.
-/
namespace Zigmaos.FileSystem
open Program DirectoryContent

variable {π : Type} {α β : Type}

/-- An entry of the inode table of which the call holds `n` references; `e₀` is
the entry as the call found it. -/
structure Kept (p : π) (disk : InodeId → DiskInode) (n : ℕ) (locked : Prop) (e₀ e : Inode π) :
    Prop where
  refs : e.referenceCount = e₀.referenceCount + n
  id : 0 < e₀.referenceCount → e.id = e₀.id
  coherent : 0 < e.referenceCount → e.isValid = true →
    e.diskInode = disk e.id ∧ (disk e.id).type ≠ .free
  held : locked → e.holder = some p ∧ e₀.holder = none ∧ 0 < n ∧ e.isValid = true
  other : ¬locked → e.holder = e₀.holder

/-- `put` of the last reference would not free the inode. -/
def Inode.Spared (e : Inode π) : Prop :=
  ¬(e.referenceCount = 1 ∧ e.isValid = true ∧ e.diskInode.linkCount = 0)

/-- The call of `p` that started in `s₀` has come to `s`, with the references
`held` and the locks `locked`. -/
structure Partway (p : π) (s₀ s : Kernel π) (held : Handle → ℕ) (locked : List Handle) : Prop where
  entry : ∀ h, Kept p s.disk (held h) (h ∈ locked) (s₀.table h) (s.table h)
  unique : ∀ g h, 0 < (s.table g).referenceCount → 0 < (s.table h).referenceCount →
    (s.table g).id = (s.table h).id → g = h
  rest : s = { s₀ with table := s.table, disk := s.disk, requests := s.requests }

/-- What holds of the file system when no call has come half way. -/
structure Consistent (s : Kernel π) (p : π) : Prop where
  coherent : ∀ h, 0 < (s.table h).referenceCount → (s.table h).isValid = true →
    (s.table h).diskInode = s.disk (s.table h).id
  unique : ∀ g h, 0 < (s.table g).referenceCount → 0 < (s.table h).referenceCount →
    (s.table g).id = (s.table h).id → g = h
  cwd : 0 < (s.table (s.processes p).currentWorkingDirectory).referenceCount
  allocated : ∀ h, 0 < (s.table h).referenceCount → (s.disk (s.table h).id).type ≠ .free
  /-- An inode without links is in use. -/
  lasting : ∀ id, (s.disk id).type ≠ .free → Lasting s id
  linkCount : ∀ id, (s.disk id).linkCount < 65536
  free : ∀ id, (s.disk id).type = .free → (s.disk id).content = [] ∧ (s.disk id).linkCount = 0

namespace Partway
variable {p : π} {s₀ s : Kernel π} {held : Handle → ℕ} {locked : List Handle} {h : Handle}

theorem start (hs : Consistent s p) : Partway p s s 0 [] where
  entry h := ⟨rfl, fun _ => rfl, fun hpos hv => ⟨hs.coherent h hpos hv, hs.allocated h hpos⟩,
    fun hin => absurd hin List.not_mem_nil, fun _ => rfl⟩
  unique := hs.unique
  rest := rfl

theorem refs_pos (hw : Partway p s₀ s held locked) (hh : 0 < held h) :
    0 < (s.table h).referenceCount := by
  rw [(hw.entry h).refs]
  omega

/-- The inode of a locked entry is the one on disk. -/
theorem locked_inode (hw : Partway p s₀ s held locked) (hh : h ∈ locked) :
    (s.table h).diskInode = s.disk (s.table h).id ∧ (s.disk (s.table h).id).type ≠ .free := by
  obtain ⟨-, -, hn, hv⟩ := (hw.entry h).held hh
  exact (hw.entry h).coherent (hw.refs_pos hn) hv

/-- One entry is replaced, and with it what the call holds of it. -/
theorem setEntry (hw : Partway p s₀ s held locked) {e : Inode π} {held' : Handle → ℕ}
    {locked' : List Handle} (he : Kept p s.disk (held' h) (h ∈ locked') (s₀.table h) e)
    (hheld : ∀ g, g ≠ h → held' g = held g) (hlocked : ∀ g, g ≠ h → (g ∈ locked' ↔ g ∈ locked))
    (hunique : 0 < e.referenceCount → ∀ g, g ≠ h → 0 < (s.table g).referenceCount →
      (s.table g).id ≠ e.id) : Partway p s₀ (s.setEntry h e) held' locked' where
  entry g := by
    rw [setEntry_table]
    split
    next hg =>
      subst hg
      exact he
    next hg =>
      rw [hheld g hg, hlocked g hg]
      exact hw.entry g
  unique g k := by
    rw [setEntry_table, setEntry_table]
    intro hg hk hid
    split at hg <;> split at hk
    next hgh hkh => rw [hgh, hkh]
    next hgh hkh =>
      rw [if_pos hgh, if_neg hkh] at hid
      exact absurd hid.symm (hunique hg k hkh hk)
    next hgh hkh =>
      rw [if_neg hgh, if_pos hkh] at hid
      exact absurd hid (hunique hk g hgh hg)
    next hgh hkh =>
      rw [if_neg hgh, if_neg hkh] at hid
      exact hw.unique g k hg hk hid
  rest := by
    rw [hw.rest]
    rfl

/-- Two entries in use hold different inodes. -/
theorem unique_of_id (hw : Partway p s₀ s held locked) (hpos : 0 < (s.table h).referenceCount)
    (g : Handle) (hg : g ≠ h) (hgpos : 0 < (s.table g).referenceCount) :
    (s.table g).id ≠ (s.table h).id := fun hid => hg (hw.unique g h hgpos hpos hid)

/-- One more reference to an entry in use. -/
theorem reference (hw : Partway p s₀ s held locked) (hpos : 0 < (s.table h).referenceCount) :
    Partway p s₀ (s.setEntry h { s.table h with referenceCount := (s.table h).referenceCount + 1 })
      (held + Pi.single h 1) locked := by
  have hk := hw.entry h
  refine hw.setEntry ⟨?_, hk.id, fun _ => hk.coherent hpos, fun hin => ?_, hk.other⟩
    (fun g hg => by simp [hg]) (fun g _ => Iff.rfl) fun _ => hw.unique_of_id hpos
  · simp only [Pi.add_apply, Pi.single_eq_same, hk.refs]
    omega
  · obtain ⟨hholder, hfree, hn, hv⟩ := hk.held hin
    exact ⟨hholder, hfree, by simp, hv⟩

/-- `get`, where it answers: the entry is not one that a `put` would free at once. -/
theorem get (hw : Partway p s₀ s held locked) {id : InodeId} {s' : Kernel π}
    (hget : s.get id = .done h s') :
    Partway p s₀ s' (held + Pi.single h 1) locked ∧ s'.disk = s.disk ∧ (s'.table h).id = id ∧
      (∀ g, 0 < (s.table g).referenceCount → (s'.table g).id = (s.table g).id) ∧
      (s'.table h).Spared := by
  obtain ⟨k, hpos, hid, heq⟩ | ⟨habsent, ⟨k, hzero, heq⟩ | ⟨-, heq⟩⟩ := get_cases s id
  · rw [heq] at hget
    obtain ⟨rfl, rfl⟩ := Outcome.done.inj hget
    refine ⟨hw.reference hpos, rfl, by simpa using hid, fun g _ => ?_, fun hone => ?_⟩
    · rw [setEntry_table]
      split
      next hg => rw [hg]
      · rfl
    · simp only [setEntry_table, if_true] at hone
      omega
  · rw [heq] at hget
    obtain ⟨rfl, rfl⟩ := Outcome.done.inj hget
    have hk := hw.entry k
    have hrefs := hk.refs
    refine ⟨hw.setEntry ⟨?_, fun hpos => by omega, nofun, fun hin => ?_, hk.other⟩
      (fun g hg => by simp [hg]) (fun g _ => Iff.rfl) fun _ g _ => habsent g, rfl, by simp,
      fun g hg => ?_, fun hone => by simp at hone⟩
    · simp only [Pi.add_apply, Pi.single_eq_same]
      omega
    · have := (hk.held hin).2.2.1
      omega
    · rw [setEntry_table, if_neg]
      rintro rfl
      omega
  · rw [heq] at hget
    cases hget

/-- `lock` of an entry that the call refers to, where it answers. -/
theorem lock (hw : Partway p s₀ s held locked) (hh : 0 < held h) {s' : Kernel π}
    (hlock : s.lock p h = .done () s') :
    Partway p s₀ s' held (h :: locked) ∧ s'.disk = s.disk ∧ h ∉ locked ∧
      ∀ g, (s'.table g).id = (s.table g).id := by
  have hk := hw.entry h
  have hpos := hw.refs_pos hh
  unfold Kernel.lock at hlock
  simp only at hlock
  split at hlock
  · cases hlock
  split at hlock
  · cases hlock
  next hholder =>
  have hholder := not_not.mp hholder
  have hnot : h ∉ locked := by
    intro hin
    rw [(hk.held hin).1] at hholder
    cases hholder
  have hfree : (s₀.table h).holder = none := (hk.other hnot).symm.trans hholder
  have hids (e : Inode π) (he : e.id = (s.table h).id) (g : Handle) :
      ((s.setEntry h e).table g).id = (s.table g).id := by
    rw [setEntry_table]
    split
    next hg => rw [he, hg]
    · rfl
  have hmem (g : Handle) (hg : g ≠ h) : g ∈ h :: locked ↔ g ∈ locked := by simp [hg]
  split at hlock
  next hv =>
    obtain ⟨-, rfl⟩ := Outcome.done.inj hlock
    exact ⟨hw.setEntry ⟨hk.refs, hk.id, hk.coherent, fun _ => ⟨rfl, hfree, hh, hv⟩,
      fun hin => absurd List.mem_cons_self hin⟩ (fun _ _ => rfl) hmem
      fun _ => hw.unique_of_id hpos, rfl, hnot, hids _ rfl⟩
  next hv =>
    split at hlock
    · cases hlock
    next htype =>
    obtain ⟨-, rfl⟩ := Outcome.done.inj hlock
    exact ⟨hw.setEntry ⟨hk.refs, hk.id, fun _ _ => ⟨rfl, htype⟩, fun _ => ⟨rfl, hfree, hh, rfl⟩,
      fun hin => absurd List.mem_cons_self hin⟩ (fun _ _ => rfl) hmem
      fun _ => hw.unique_of_id hpos, rfl, hnot, hids _ rfl⟩

/-- `release` of the lock that was taken last. -/
theorem release [DecidableEq π] (hw : Partway p s₀ s held (h :: locked)) (hnot : h ∉ locked)
    {s' : Kernel π} (hrelease : s.release p h = .done () s') :
    Partway p s₀ s' held locked ∧ s'.disk = s.disk ∧
      (∀ g, (s'.table g).id = (s.table g).id) ∧ s'.table h = { s.table h with holder := none } := by
  have hk := hw.entry h
  obtain ⟨-, hfree, hn, -⟩ := hk.held List.mem_cons_self
  unfold Kernel.release at hrelease
  simp only at hrelease
  split at hrelease
  · cases hrelease
  split at hrelease
  · cases hrelease
  obtain ⟨-, rfl⟩ := Outcome.done.inj hrelease
  refine ⟨hw.setEntry ⟨hk.refs, hk.id, hk.coherent, fun hin => absurd hin hnot,
    fun _ => hfree.symm⟩ (fun _ _ => rfl) (fun g hg => by simp [hg])
    fun _ => hw.unique_of_id (hw.refs_pos hn), rfl, fun g => ?_, by simp⟩
  rw [setEntry_table]
  split
  next hg => rw [hg]
  · rfl

/-- The test of `put` where the inode is not to be freed. -/
theorem putBegin (hw : Partway p s₀ s (held + Pi.single h 1) locked) (hin : h ∈ locked → 0 < held h)
    (hkeep : (s.table h).Spared) {r : Bool} {s' : Kernel π}
    (hput : s.putBegin p h = .done r s') :
    r = false ∧ Partway p s₀ s' held locked ∧ s'.disk = s.disk ∧
      ∀ g, (s'.table g).id = (s.table g).id := by
  have hk := hw.entry h
  have hrefs := hk.refs
  simp only [Pi.add_apply, Pi.single_eq_same] at hrefs
  have hsub : sub32 (s.table h).referenceCount 1 = (s.table h).referenceCount - 1 :=
    sub32_of_le (by omega)
  unfold Kernel.putBegin at hput
  simp only [Inode.Spared] at hkeep
  simp only [if_neg hkeep] at hput
  obtain ⟨rfl, rfl⟩ := Outcome.done.inj hput
  refine ⟨rfl, hw.setEntry ⟨?_, hk.id, fun _ => hk.coherent (by omega), fun hmem => ?_, hk.other⟩
    (fun g hg => by simp [hg]) (fun _ _ => Iff.rfl) fun _ => hw.unique_of_id (by omega), rfl,
    fun g => ?_⟩
  · simp only [hsub]
    omega
  · obtain ⟨hholder, hfree, -, hv⟩ := hk.held hmem
    exact ⟨hholder, hfree, hin hmem, hv⟩
  · rw [setEntry_table]
    split
    next hg => rw [hg]
    · rfl

/-- Assigning a locked inode changes it in the table and on disk. -/
theorem store (hw : Partway p s₀ s held locked) (hh : h ∈ locked) {d : DiskInode}
    (hd : d.type ≠ .free) :
    Partway p s₀ (s.store h d) held locked ∧
      (s.store h d).disk = Function.update s.disk (s.table h).id d ∧
      ∀ g, ((s.store h d).table g).id = (s.table g).id := by
  have hpos := hw.refs_pos ((hw.entry h).held hh).2.2.1
  have hids (g : Handle) : ((s.store h d).table g).id = (s.table g).id := by
    change ((s.setEntry h _).table g).id = _
    rw [setEntry_table]
    split
    next hg => rw [hg]
    · rfl
  refine ⟨⟨fun g => ?_, fun g k => ?_, ?_⟩, rfl, hids⟩
  · have hk := hw.entry g
    change Kept p (Function.update s.disk (s.table h).id d) _ _ _ ((s.setEntry h _).table g)
    rw [setEntry_table]
    split
    next hg =>
      subst hg
      exact ⟨hk.refs, hk.id, fun _ _ => by simpa using hd, hk.held, hk.other⟩
    next hg =>
      refine ⟨hk.refs, hk.id, fun hg' hv => ?_, hk.held, hk.other⟩
      rw [Function.update_of_ne (hw.unique_of_id hpos g hg hg')]
      exact hk.coherent hg' hv
  · have hrefs (g : Handle) : ((s.store h d).table g).referenceCount =
        (s.table g).referenceCount := by
      change ((s.setEntry h _).table g).referenceCount = _
      rw [setEntry_table]
      split
      next hg => rw [hg]
      · rfl
    rw [hrefs, hrefs, hids, hids]
    exact hw.unique g k
  · rw [hw.rest]
    rfl

/-- An inode that the call has not changed is not freed. -/
theorem spared (hw : Partway p s₀ s held locked) (hs : Consistent s₀ p) (hh : 0 < held h)
    (hdisk : s.disk (s.table h).id = s₀.disk (s.table h).id) : (s.table h).Spared := by
  rintro ⟨hone, hv, hlinks⟩
  have hk := hw.entry h
  have hrefs := hk.refs
  obtain ⟨hd, ht⟩ := hk.coherent (by omega) hv
  rw [hdisk] at hd ht
  obtain hne | ⟨g, hg, hid⟩ := (hs.lasting _ ht).2
  · exact hne (hd ▸ hlinks)
  · have hg' : 0 < (s.table g).referenceCount := by
      rw [(hw.entry g).refs]
      omega
    obtain rfl := hw.unique g h hg' (by omega) (by rw [(hw.entry g).id hg, hid])
    omega

/-- A part of the call that starts in the middle of it. -/
theorem trans {s₁ : Kernel π} {held' : Handle → ℕ} (hw : Partway p s₀ s₁ held [])
    (hw' : Partway p s₁ s held' []) : Partway p s₀ s (held + held') [] where
  entry h := by
    have hk := hw.entry h
    have hk' := hw'.entry h
    refine ⟨?_, fun hpos => ?_, hk'.coherent, fun hin => absurd hin List.not_mem_nil, fun hin => ?_⟩
    · rw [hk'.refs, hk.refs, Pi.add_apply, Nat.add_assoc]
    · rw [hk'.id (by rw [hk.refs]; omega), hk.id hpos]
    · rw [hk'.other hin, hk.other hin]
  unique := hw'.unique
  rest := by
    rw [hw'.rest, hw.rest]

end Partway

/-! ### Programs that end -/

section Ends
variable [DecidableEq π] {p : π} {s : Kernel π}

/-- If the run of a program ends, it ends with `Q`. -/
def Ends (p : π) (prog : Prog α) (s : Kernel π) (Q : α → Kernel π → Prop) : Prop :=
  Post (Kernel.perform p) prog s Q (fun _ => True) True

theorem ends_iff {prog : Prog α} {Q : α → Kernel π → Prop} :
    Ends p prog s Q ↔ ∀ a t, prog.run (Kernel.perform p) s = .done a t → Q a t := by
  unfold Ends Post
  cases prog.run (Kernel.perform p) s <;> simp

theorem ends_of_forall {prog : Prog α} {Q : α → Kernel π → Prop} (hQ : ∀ a t, Q a t) :
    Ends p prog s Q := ends_iff.mpr fun a t _ => hQ a t

theorem Ends.bind {prog : Prog α} {f : α → Prog β} {Q : α → Kernel π → Prop}
    {Q' : β → Kernel π → Prop} (hp : Ends p prog s Q)
    (hf : ∀ a t, Q a t → Ends p (f a) t Q') : Ends p (prog >>= f) s Q' := Post.bind hp hf

theorem Ends.mono {prog : Prog α} {Q Q' : α → Kernel π → Prop} (hp : Ends p prog s Q)
    (hq : ∀ a t, Q a t → Q' a t) : Ends p prog s Q' := Post.mono hp hq

theorem ends_invoke {o : Op} {f : o.Result → Prog α} {Q : α → Kernel π → Prop}
    (hf : ∀ r t, Kernel.perform p o s = .done r t → Ends p (f r) t Q) :
    Ends p (invoke o >>= f) s Q := by
  refine Ends.bind (Q := fun r t => Kernel.perform p o s = .done r t) ?_ hf
  exact ends_iff.mpr fun r t hr => by rwa [invoke, run_op] at hr

theorem ends_panic {reason : Panic} {Q : α → Kernel π → Prop} :
    Ends p (panic reason : Prog α) s Q := by
  rw [ends_iff]
  intro a t hr
  rw [panic, run_call] at hr
  cases hr

namespace Partway
variable {s₀ : Kernel π} {held : Handle → ℕ} {locked : List Handle} {h : Handle}
  {Q : α → Kernel π → Prop}

theorem ends_put (hw : Partway p s₀ s (held + Pi.single h 1) locked)
    (hin : h ∈ locked → 0 < held h) (hkeep : (s.table h).Spared) {f : Unit → Prog α}
    (hf : ∀ t, Partway p s₀ t held locked → t.disk = s.disk →
      (∀ g, (t.table g).id = (s.table g).id) → Ends p (f ()) t Q) :
    Ends p (Inode.put h >>= f) s Q := by
  rw [Inode.put, Program.bind_assoc]
  refine ends_invoke fun r t hr => ?_
  obtain ⟨rfl, hw', hdisk, hids⟩ := hw.putBegin hin hkeep hr
  exact hf t hw' hdisk hids

theorem ends_releasePut (hw : Partway p s₀ s (held + Pi.single h 1) (h :: locked))
    (hnot : h ∉ locked) (hkeep : (s.table h).Spared) {f : Unit → Prog α}
    (hf : ∀ t, Partway p s₀ t held locked → t.disk = s.disk →
      (∀ g, (t.table g).id = (s.table g).id) → Ends p (f ()) t Q) :
    Ends p (Inode.releasePut h >>= f) s Q := by
  rw [Inode.releasePut, Program.bind_assoc]
  refine ends_invoke fun _ t₁ hr => ?_
  obtain ⟨hw₁, hdisk₁, hids₁, hh⟩ := hw.release hnot hr
  refine hw₁.ends_put (fun hin => absurd hin hnot) (by rw [hh]; exact hkeep) fun t hw' hdisk hids => ?_
  exact hf t hw' (hdisk.trans hdisk₁) fun g => (hids g).trans (hids₁ g)

/-- A lookup takes a reference to what it finds. -/
theorem ends_lookupChild (hw : Partway p s₀ s held locked) {cur : Handle} {name : Name}
    {f : Option (Handle × ℕ) → Prog α} (hnone : Ends p (f none) s Q)
    (hsome : ∀ c offset t, Partway p s₀ t (held + Pi.single c 1) locked → t.disk = s.disk →
      (∀ g, 0 < (s.table g).referenceCount → (t.table g).id = (s.table g).id) →
      (t.table c).Spared → Ends p (f (some (c, offset))) t Q) :
    Ends p (Directory.lookupChild cur name >>= f) s Q := by
  rw [Directory.lookupChild, Program.bind_assoc]
  refine ends_invoke fun d t hr => ?_
  obtain ⟨rfl, rfl⟩ := Outcome.done.inj hr
  split
  · exact Ends.bind (Q := fun _ _ => False) ends_panic fun _ _ h => h.elim
  · exact hnone
  next offset entry _ =>
    simp only [Program.bind_assoc]
    refine ends_invoke fun id t hr => ?_
    obtain ⟨rfl, rfl⟩ := Outcome.done.inj hr
    refine ends_invoke fun c t hr => ?_
    obtain ⟨hw', hdisk, -, hids, hkeep⟩ := hw.get hr
    exact hsome c offset t hw' hdisk hids hkeep

theorem ends_init (hcur : h ∈ locked) (hw : Partway p s₀ s held locked) {f : Unit → Prog α}
    (hf : (s.disk (s.table h).id).type = .directory → Ends p (f ()) s Q) :
    Ends p (Directory.init h >>= f) s Q := by
  rw [Directory.init, Program.bind_assoc]
  refine ends_invoke fun d t hr => ?_
  obtain ⟨rfl, rfl⟩ := Outcome.done.inj hr
  rw [when]
  split
  · exact Ends.bind (Q := fun _ _ => False) ends_panic fun _ _ h => h.elim
  next hdir =>
    refine hf ?_
    rw [← (hw.locked_inode hcur).1]
    exact not_not.mp hdir

end Partway

/-- What a resolution leaves: one reference to what it has found. -/
def Resolved (p : π) (s : Kernel π) (r : Option (Handle × Name)) (t : Kernel π) : Prop :=
  t.disk = s.disk ∧ Partway p s t (r.elim 0 fun x => Pi.single x.1 1) []

theorem ends_walk {s₀ : Kernel π} (hs : Consistent s₀ p) (returnParent : Bool)
    (elements : List (Name × List UInt8)) (name : Name) {cur : Handle}
    (hw : Partway p s₀ s (Pi.single cur 1) []) (hdisk : s.disk = s₀.disk) :
    Ends p (walk returnParent elements name cur) s (Resolved p s₀) := by
  induction elements generalizing s cur name with
  | nil =>
    rw [walk]
    cases returnParent with
    | true =>
      have hkeep := hw.spared (h := cur) hs (by simp) (by rw [hdisk])
      rw [← zero_add (Pi.single cur 1)] at hw
      exact hw.ends_put (by simp) hkeep fun t hw' hd _ => ⟨hd.trans hdisk, hw'⟩
    | false => exact ⟨hdisk, hw⟩
  | cons x elements ih =>
    obtain ⟨name', rest⟩ := x
    rw [walk]
    refine ends_invoke fun _ s₁ hr => ?_
    obtain ⟨hw₁, hd₁, hnot, hids₁⟩ := hw.lock (by simp) hr
    have hdisk₁ := hd₁.trans hdisk
    have hkeep := hw₁.spared (h := cur) hs (by simp) (by rw [hdisk₁])
    rw [← zero_add (Pi.single cur 1)] at hw₁
    refine ends_invoke fun d t hr => ?_
    obtain ⟨rfl, rfl⟩ := Outcome.done.inj hr
    split
    · exact hw₁.ends_releasePut hnot hkeep fun t hw' hd _ => ⟨hd.trans hdisk₁, hw'⟩
    split
    · refine ends_invoke fun _ t hr => ?_
      obtain ⟨hw', hd, -⟩ := hw₁.release hnot hr
      rw [zero_add] at hw'
      exact ⟨hd.trans hdisk₁, hw'⟩
    refine hw₁.ends_init List.mem_cons_self fun _ => ?_
    refine hw₁.ends_lookupChild ?_ fun c offset t hw₂ hd₂ hids₂ _ => ?_
    · exact hw₁.ends_releasePut hnot hkeep fun t hw' hd _ => ⟨hd.trans hdisk₁, hw'⟩
    · have hdisk₂ := hd₂.trans hdisk₁
      have hkeep₂ := hw₂.spared (h := cur) hs (by simp) (by rw [hdisk₂])
      rw [add_right_comm] at hw₂
      refine hw₂.ends_releasePut hnot hkeep₂ fun t hw₃ hd₃ _ => ?_
      rw [zero_add] at hw₃
      exact ih name' hw₃ (hd₃.trans hdisk₂)

/-- A path is resolved without a change to the disk. -/
theorem ends_resolvePathHelper (hs : Consistent s p) (path : List UInt8) (returnParent : Bool) :
    Ends p (resolvePathHelper path returnParent) s (Resolved p s) := by
  have hstart := Partway.start hs
  unfold resolvePathHelper
  split
  · exact ⟨rfl, hstart⟩
  next c path =>
    split
    · refine ends_invoke fun h t hr => ?_
      obtain ⟨hw, hdisk, -⟩ := hstart.get hr
      rw [zero_add] at hw
      exact ends_walk hs returnParent _ [] hw hdisk
    · refine ends_invoke fun h t hr => ?_
      obtain ⟨rfl, rfl⟩ := Outcome.done.inj hr
      have hw := hstart.reference hs.cwd
      rw [zero_add] at hw
      exact ends_walk hs returnParent _ [] hw rfl

end Ends

end Zigmaos.FileSystem
