import Zigmaos.CallsAlone

/-!
# Directory operations that fail

`create`, `link` and `unlink` clean up after themselves: where one of them
returns an error, each inode is on disk as it was, and the references and locks
that the call has taken are given back. `create` frees the inode it has
allocated, with the entries written to it; `link` takes back the link it has
counted; `unlink` changes nothing before its last test.
-/
namespace Zigmaos.FileSystem
open Program DirectoryContent

variable {π : Type} [DecidableEq π] {α : Type} {p : π} {s₀ s : Kernel π} {held : Handle → ℕ}
  {locked : List Handle} {h : Handle} {Q : α → Kernel π → Prop}

/-! ### Entries of a locked directory -/

namespace Partway

omit [DecidableEq π] in
theorem setRequests (hw : Partway p s₀ s held locked) (n : ℕ) :
    Partway p s₀ { s with requests := n } held locked where
  entry := hw.entry
  unique := hw.unique
  rest := by
    rw [hw.rest]

omit [DecidableEq π] in
/-- `write` of an entry changes the directory, or nothing. -/
theorem writeEntry (hw : Partway p s₀ s held locked) (hh : h ∈ locked) (offset : ℕ)
    (e : DirectoryEntry) :
    Partway p s₀ (s.writeEntry h offset e).2 held locked ∧
      (∀ g, ((s.writeEntry h offset e).2.table g).id = (s.table g).id) ∧
      (∀ i, i ≠ (s.table h).id → (s.writeEntry h offset e).2.disk i = s.disk i) ∧
      ((s.writeEntry h offset e).1 ≠ .ok entrySize →
        (s.writeEntry h offset e).2.disk = s.disk) := by
  obtain ⟨hd, ht⟩ := hw.locked_inode hh
  rw [← hd] at ht
  have hsame : Function.update s.disk (s.table h).id (s.table h).diskInode = s.disk := by
    rw [hd, Function.update_eq_self]
  obtain ⟨hw₁, hdisk₁, hids₁⟩ := hw.store hh ht
  obtain ⟨hw₂, hdisk₂, hids₂⟩ := hw.store hh (d := { (s.table h).diskInode with
    content := splice (s.table h).diskInode.content offset e.toBytes }) ht
  have hne (i : InodeId) (hi : i ≠ (s.table h).id) : (s.store h { (s.table h).diskInode with
      content := splice (s.table h).diskInode.content offset e.toBytes }).disk i = s.disk i := by
    rw [hdisk₂, Function.update_of_ne hi]
  generalize hr : s.writeEntry h offset e = r
  unfold Kernel.writeEntry at hr
  simp only at hr
  split at hr
  · subst hr
    exact ⟨hw, fun _ => rfl, fun _ _ => rfl, fun _ => rfl⟩
  split at hr
  · subst hr
    exact ⟨hw, fun _ => rfl, fun _ _ => rfl, fun _ => rfl⟩
  split at hr
  · subst hr
    exact ⟨hw, fun _ => rfl, fun _ _ => rfl, fun _ => rfl⟩
  split at hr
  · subst hr
    exact ⟨hw₂, hids₂, hne, fun h => absurd rfl h⟩
  split at hr
  · subst hr
    exact ⟨hw₂.setRequests _, hids₂, hne, fun h => absurd rfl h⟩
  · subst hr
    exact ⟨hw₁.setRequests _, hids₁, fun i _ => congrFun (hdisk₁.trans hsame) i,
      fun _ => hdisk₁.trans hsame⟩

theorem ends_linkEntry (hw : Partway p s₀ s held locked) (hh : h ∈ locked)
    {name : Name} {number : ℕ} {f : Except Directory.LinkEntryError Unit → Prog α}
    (herror : ∀ e t, Partway p s₀ t held locked → t.disk = s.disk →
      (∀ g, 0 < (s.table g).referenceCount → (t.table g).id = (s.table g).id) →
      Ends p (f (.error e)) t Q)
    (hok : ∀ t, Partway p s₀ t held locked →
      (∀ i, i ≠ (s.table h).id → t.disk i = s.disk i) →
      (∀ g, 0 < (s.table g).referenceCount → (t.table g).id = (s.table g).id) →
      Ends p (f (.ok ())) t Q) :
    Ends p (Directory.linkEntry h name number >>= f) s Q := by
  unfold Directory.linkEntry
  split
  · exact herror _ s hw rfl fun _ _ => rfl
  rw [Program.bind_assoc]
  refine hw.ends_lookupChild ?_ fun c offset t hw₁ hdisk₁ hids₁ hkeep => ?_
  · simp only [Program.bind_assoc]
    refine ends_invoke fun d t hr => ?_
    obtain ⟨rfl, rfl⟩ := Outcome.done.inj hr
    split
    · exact Ends.bind (Q := fun _ _ => False) ends_panic fun _ _ h => h.elim
    next offset entry _ =>
    simp only [Program.bind_assoc]
    refine ends_invoke fun r t hr => ?_
    obtain ⟨hresult, rfl⟩ := Outcome.done.inj hr
    obtain ⟨hw₁, hids, hne, hsame⟩ := hw.writeEntry hh offset (entry.withName name number)
    rw [hresult] at hsame
    have hids' (g : Handle) (_ : 0 < (s.table g).referenceCount) := hids g
    cases r with
    | error e => exact herror _ _ hw₁ (hsame (by simp)) hids'
    | ok written =>
      change Ends p ((if written ≠ entrySize then _ else _) >>= f) _ Q
      split
      next hwritten =>
        exact herror _ _ hw₁ (hsame fun h => hwritten (Except.ok.inj h)) hids'
      · exact hok _ hw₁ hne hids'
  · simp only [Program.bind_assoc]
    refine hw₁.ends_put (fun hin => ?_) hkeep fun t₂ hw₂ hdisk₂ hids₂ => ?_
    · exact ((hw.entry c).held hin).2.2.1
    · exact herror _ t₂ hw₂ (hdisk₂.trans hdisk₁) fun g hg => (hids₂ g).trans (hids₁ g hg)

theorem ends_setLinkCount (hw : Partway p s₀ s held locked) (hh : h ∈ locked)
    {n : ℕ → ℕ} {f : Unit → Prog α}
    (hf : ∀ t, Partway p s₀ t held locked → t.disk = Function.update s.disk (s.table h).id
        { s.disk (s.table h).id with linkCount := n (s.disk (s.table h).id).linkCount } →
      (∀ g, (t.table g).id = (s.table g).id) → Ends p (f ()) t Q) :
    Ends p (Inode.setLinkCount h n >>= f) s Q := by
  obtain ⟨hd, ht⟩ := hw.locked_inode hh
  rw [Inode.setLinkCount, Program.bind_assoc]
  refine ends_invoke fun d t hr => ?_
  obtain ⟨rfl, rfl⟩ := Outcome.done.inj hr
  refine ends_invoke fun _ t hr => ?_
  obtain ⟨-, rfl⟩ := Outcome.done.inj hr
  rw [hd]
  obtain ⟨hw', hdisk, hids⟩ := hw.store hh (d := { s.disk (s.table h).id with
    linkCount := n (s.disk (s.table h).id).linkCount }) ht
  exact hf _ hw' hdisk hids

omit [DecidableEq π] in
/-- The last steps of `put`: the inode is free on disk, and its entry in the
table is given back. -/
theorem free (hw : Partway p s₀ s (held + Pi.single h 1) (h :: locked)) (hnot : h ∉ locked)
    (hlast : (s.table h).referenceCount = 1) {e : Inode π} {d : DiskInode} {t : Kernel π}
    (he : e.referenceCount = 0) (hholder : e.holder = none)
    (htable : ∀ g, t.table g = if g = h then e else s.table g)
    (hdisk : t.disk = Function.update s.disk (s.table h).id d)
    (hrest : t = { s with table := t.table, disk := t.disk }) : Partway p s₀ t held locked where
  entry g := by
    have hk := hw.entry g
    rw [htable, hdisk]
    split
    next hg =>
      subst hg
      have hrefs := hk.refs
      simp only [Pi.add_apply, Pi.single_eq_same] at hrefs
      refine ⟨by omega, fun hpos => by omega, fun hpos => by omega, fun hin => absurd hin hnot,
        fun _ => ?_⟩
      rw [hholder]
      exact ((hk.held List.mem_cons_self).2.1).symm
    next hg =>
      have hn : (held + (Pi.single h 1 : Handle → ℕ)) g = held g := by simp [hg]
      have hmem : g ∈ h :: locked ↔ g ∈ locked := by simp [hg]
      rw [hn, hmem] at hk
      refine ⟨hk.refs, hk.id, fun hpos hv => ?_, hk.held, hk.other⟩
      rw [Function.update_of_ne (hw.unique_of_id (by omega) g hg hpos)]
      exact hk.coherent hpos hv
  unique g k := by
    rw [htable, htable]
    intro hg hk hid
    split at hg
    · omega
    split at hk
    · omega
    next hgh hkh =>
      rw [if_neg hgh, if_neg hkh] at hid
      exact hw.unique g k hg hk hid
  rest := by
    rw [hrest, hw.rest]

/-- `put` of the only reference to an inode without links frees the inode. -/
theorem ends_putLast (hw : Partway p s₀ s (held + Pi.single h 1) locked) (hnot : h ∉ locked)
    (hlast : (s.table h).referenceCount = 1) (hv : (s.table h).isValid = true)
    (hlinks : (s.disk (s.table h).id).linkCount = 0) {f : Unit → Prog α}
    (hf : ∀ t, Partway p s₀ t held locked →
      (∀ i, i ≠ (s.table h).id → t.disk i = s.disk i) →
      (t.disk (s.table h).id).type = .free ∧ (t.disk (s.table h).id).content = [] ∧
        (t.disk (s.table h).id).linkCount = 0 → Ends p (f ()) t Q) :
    Ends p (Inode.put h >>= f) s Q := by
  have hk := hw.entry h
  obtain ⟨hd, ht⟩ := hk.coherent (by omega) hv
  rw [← hd] at hlinks ht
  rw [Inode.put, Program.bind_assoc]
  refine ends_invoke fun r t hr => ?_
  change s.putBegin p h = _ at hr
  unfold Kernel.putBegin at hr
  simp only [if_pos (show _ ∧ _ ∧ _ from ⟨hlast, hv, hlinks⟩)] at hr
  split at hr
  · cases hr
  next hholder =>
  obtain ⟨rfl, rfl⟩ := Outcome.done.inj hr
  have hfree : (s₀.table h).holder = none := (hk.other hnot).symm.trans (not_not.mp hholder)
  have hw₁ : Partway p s₀ (s.setEntry h { s.table h with holder := some p })
      (held + Pi.single h 1) (h :: locked) :=
    hw.setEntry ⟨hk.refs, hk.id, hk.coherent, fun _ => ⟨rfl, hfree, by simp, hv⟩,
      fun hin => absurd List.mem_cons_self hin⟩ (fun _ _ => rfl) (fun g hg => by simp [hg])
      fun _ => hw.unique_of_id (by omega)
  generalize hs₁ : s.setEntry h { s.table h with holder := some p } = s₁ at hw₁
  have htable₁ : s₁.table h = { s.table h with holder := some p } := by simp [← hs₁]
  have hdisk₁ : s₁.disk = s.disk := by rw [← hs₁]; rfl
  change Ends p (invoke (.truncate h) >>= fun _ => invoke (.diskInode h) >>= fun d =>
    invoke (.update h { d with type := .free }) >>= fun _ => invoke (.unlockRaw h) >>= fun _ =>
    invoke (.dropReference h) >>= f) s₁ Q
  refine ends_invoke fun _ t hr => ?_
  obtain ⟨-, rfl⟩ := Outcome.done.inj hr
  obtain ⟨hw₂, hdisk₂, hids₂⟩ := hw₁.store List.mem_cons_self (d := { (s₁.table h).diskInode with
    content := [] }) (by rw [htable₁]; exact ht)
  have htable₂ : (s₁.store h { (s₁.table h).diskInode with content := [] }).table h =
      { s₁.table h with diskInode := { (s₁.table h).diskInode with content := [] } } := by
    simp [Kernel.store]
  generalize s₁.store h { (s₁.table h).diskInode with content := [] } = s₂ at *
  refine ends_invoke fun d t hr => ?_
  obtain ⟨rfl, rfl⟩ := Outcome.done.inj hr
  refine ends_invoke fun _ t hr => ?_
  obtain ⟨-, rfl⟩ := Outcome.done.inj hr
  refine ends_invoke fun _ t hr => ?_
  obtain ⟨-, rfl⟩ := Outcome.done.inj hr
  refine ends_invoke fun _ t hr => ?_
  obtain ⟨-, rfl⟩ := Outcome.done.inj hr
  have hid : (s₂.table h).id = (s.table h).id := by rw [htable₂, htable₁]
  have hone : (s₂.table h).referenceCount = 1 := by rw [htable₂, htable₁]; exact hlast
  have hrefs : sub32 (s₂.table h).referenceCount 1 = 0 := by rw [hone]; rfl
  have hd₂ : (s₂.table h).diskInode = { (s.table h).diskInode with content := [] } := by
    rw [htable₂, htable₁]
  refine hf _ (hw₂.free (d := { (s₂.table h).diskInode with type := .free })
    (e := ⟨(s₂.table h).id, 0, none, false, { (s₂.table h).diskInode with type := .free }⟩)
    hnot hone rfl rfl (fun g => ?_) rfl rfl) (fun i hi => ?_) ?_
  · by_cases hg : g = h
    · simp [hg, Kernel.store, hrefs]
    · simp [hg, Kernel.store]
  · change Function.update s₂.disk (s₂.table h).id _ i = s.disk i
    rw [hid, Function.update_of_ne hi, hdisk₂, htable₁, Function.update_of_ne hi, hdisk₁]
  · change (Function.update s₂.disk (s₂.table h).id _ _).type = _ ∧
      (Function.update s₂.disk (s₂.table h).id _ _).content = _ ∧
      (Function.update s₂.disk (s₂.table h).id _ _).linkCount = _
    rw [hid, Function.update_self, hd₂]
    exact ⟨rfl, rfl, hlinks⟩

/-! ### `create` -/

/-- The loop of `alloc`: what it allocates is free on disk, and not in the table. -/
theorem ends_allocFrom (hw : Partway p s₀ s held locked)
    (hallocated : ∀ g, 0 < (s.table g).referenceCount → (s.disk (s.table g).id).type ≠ .free)
    {device : DeviceId} {type : InodeType} {f : Option Handle → Prog α}
    (hnone : Ends p (f none) s Q)
    (hsome : ∀ c t, Partway p s₀ t (held + Pi.single c 1) locked →
      (s.table c).referenceCount = 0 → (s.disk (t.table c).id).type = .free →
      (∀ g, 0 < (s.table g).referenceCount → (t.table g).id = (s.table g).id) →
      (∀ i, i ≠ (t.table c).id → t.disk i = s.disk i) → Ends p (f (some c)) t Q)
    (count number : ℕ) : Ends p (Inode.allocFrom device type count number >>= f) s Q := by
  induction count generalizing number with
  | zero => exact hnone
  | succ count ih =>
    rw [Inode.allocFrom, Program.bind_assoc]
    refine ends_invoke fun r t hr => ?_
    change (if (s.disk ⟨device, number⟩).type = .free then _ else _) = _ at hr
    split at hr
    next hfree =>
      obtain ⟨rfl, rfl⟩ := Outcome.done.inj hr
      have hne (g : Handle) (hg : 0 < (s.table g).referenceCount) :
          (s.table g).id ≠ ⟨device, number⟩ := fun hid => hallocated g hg (hid ▸ hfree)
      have hw₁ : Partway p s₀ { s with
          disk := Function.update s.disk ⟨device, number⟩ { DiskInode.empty with type := type } }
            held locked := by
        refine ⟨fun g => ?_, hw.unique, by rw [hw.rest]⟩
        have hk := hw.entry g
        refine ⟨hk.refs, hk.id, fun hpos hv => ?_, hk.held, hk.other⟩
        change _ = Function.update s.disk _ _ _ ∧ (Function.update s.disk _ _ _).type ≠ _
        rw [Function.update_of_ne (hne g hpos)]
        exact hk.coherent hpos hv
      change Ends p ((invoke (.get ⟨device, number⟩) >>= fun inode => pure (some inode)) >>= f) _ Q
      rw [Program.bind_assoc]
      refine ends_invoke fun c t hr => ?_
      obtain ⟨hw₂, hdisk, hid, hids, -⟩ := hw₁.get hr
      have hzero : (s.table c).referenceCount = 0 := by
        by_contra h
        have hpos := Nat.pos_of_ne_zero h
        exact hne c hpos ((hids c hpos).symm.trans hid)
      refine hsome c t hw₂ hzero (by rw [hid]; exact hfree) hids fun i hi => ?_
      rw [hdisk]
      exact Function.update_of_ne (hid ▸ hi) _ _
    next hused =>
      obtain ⟨rfl, rfl⟩ := Outcome.done.inj hr
      exact ih (number + 1)

end Partway

/-- Inodes that were in use are as they were, and the others are free. -/
def Restored (disk disk' : InodeId → DiskInode) : Prop :=
  ∀ i, disk' i = disk i ∨ (disk i).type = .free ∧ (disk' i).type = .free ∧
    (disk' i).content = [] ∧ (disk' i).linkCount = 0

theorem Restored.of_eq {disk disk' : InodeId → DiskInode} (h : disk' = disk) :
    Restored disk disk' := fun i => .inl (congrFun h i)

theorem Restored.eq {disk disk' : InodeId → DiskInode} (h : Restored disk disk') {i : InodeId}
    (hi : (disk' i).type ≠ .free) : disk' i = disk i :=
  (h i).resolve_right fun hfree => hi hfree.2.1

/-- `createNew` has locked its new inode, at `c`; the rest of the disk is as before. -/
structure NewInode (p : π) (s₀ t : Kernel π) (disk : InodeId → DiskInode) (held : Handle → ℕ)
    (locked : List Handle) (c : Handle) (id : InodeId) : Prop where
  partway : Partway p s₀ t (held + Pi.single c 1) (c :: locked)
  idNew : (t.table c).id = id
  disk : ∀ i, i ≠ id → t.disk i = disk i

namespace NewInode
variable {t : Kernel π} {disk : InodeId → DiskInode} {c : Handle} {id : InodeId}

omit [DecidableEq π] in
theorem refs_pos (hm : NewInode p s₀ t disk held locked c id) : 0 < (t.table c).referenceCount :=
  hm.partway.refs_pos (by simp)

omit [DecidableEq π] in
theorem next (hm : NewInode p s₀ t disk held locked c id) {t' : Kernel π}
    (hw : Partway p s₀ t' (held + Pi.single c 1) (c :: locked))
    (hdisk : ∀ i, i ≠ id → t'.disk i = t.disk i) (hid : (t'.table c).id = (t.table c).id) :
    NewInode p s₀ t' disk held locked c id where
  partway := hw
  idNew := hid.trans hm.idNew
  disk i hi := (hdisk i hi).trans (hm.disk i hi)

/-- Whatever becomes of an entry of the new directory, it is written to the new directory. -/
theorem ends_linkEntry (hm : NewInode p s₀ t disk held locked c id) {name : Name} {number : ℕ}
    {f : Except Directory.LinkEntryError Unit → Prog α}
    (hf : ∀ r t', NewInode p s₀ t' disk held locked c id → Ends p (f r) t' Q) :
    Ends p (Directory.linkEntry c name number >>= f) t Q := by
  refine hm.partway.ends_linkEntry List.mem_cons_self (fun e t' hw hdisk hids => ?_)
    fun t' hw hdisk hids => ?_
  · exact hf _ _ (hm.next hw (fun i _ => congrFun hdisk i) (hids c hm.refs_pos))
  · rw [hm.idNew] at hdisk
    exact hf _ _ (hm.next hw hdisk (hids c hm.refs_pos))

theorem ends_linkDots (hm : NewInode p s₀ t disk held locked c id) (parent : Handle) :
    Ends p (SysFile.linkDots parent c) t fun _ t' => NewInode p s₀ t' disk held locked c id := by
  unfold SysFile.linkDots
  refine hm.partway.ends_init List.mem_cons_self fun _ => ?_
  refine ends_invoke fun _ t' hr => ?_
  obtain ⟨rfl, rfl⟩ := Outcome.done.inj hr
  refine hm.ends_linkEntry fun r t' hm' => ?_
  cases r with
  | error e => exact hm'
  | ok _ =>
    refine ends_invoke fun _ t' hr => ?_
    obtain ⟨rfl, rfl⟩ := Outcome.done.inj hr
    refine hm'.ends_linkEntry fun r t' hm'' => ?_
    cases r with
    | error e => exact hm''
    | ok _ => exact hm''

/-- A failed `linkNew` leaves nothing behind but the new inode. -/
theorem ends_linkNew (hm : NewInode p s₀ t disk held locked c id) {parent : Handle}
    (hp : parent ∈ locked) (name : Name) (kind : InodeType) :
    Ends p (SysFile.linkNew parent c name kind) t fun r t' =>
      ∀ e, r = .error e → NewInode p s₀ t' disk held locked c id := by
  unfold SysFile.linkNew
  refine Ends.bind (Q := fun _ t' => NewInode p s₀ t' disk held locked c id) ?_ fun r t' hm' => ?_
  · split
    · exact hm.ends_linkDots parent
    · exact hm
  cases r with
  | error e => exact fun _ _ => hm'
  | ok _ =>
    refine ends_invoke fun _ t₁ hr => ?_
    obtain ⟨rfl, rfl⟩ := Outcome.done.inj hr
    refine hm'.partway.ends_linkEntry (List.mem_cons_of_mem _ hp) (fun e t₁ hw hdisk hids => ?_)
      fun t₁ _ _ _ => ?_
    · exact fun _ _ => hm'.next hw (fun i _ => congrFun hdisk i) (hids c hm'.refs_pos)
    · exact Ends.bind (ends_of_forall (Q := fun _ _ => True) fun _ _ => trivial)
        fun _ _ _ _ => by simp

/-- The clean-up of `createNew`: the new inode is freed. -/
theorem ends_cleanUp (hm : NewInode p s₀ t disk held locked c id) (hnot : c ∉ locked)
    (hrefs : (t.table c).referenceCount = 1) (hfree : (disk id).type = .free)
    {f : Unit → Prog α}
    (hf : ∀ t', Partway p s₀ t' held locked → Restored disk t'.disk → Ends p (f ()) t' Q) :
    Ends p (Inode.setLinkCount c (fun _ => 0) >>= fun _ => Inode.releasePut c >>= f) t Q := by
  refine hm.partway.ends_setLinkCount List.mem_cons_self fun t₁ hw₁ hdisk₁ hids₁ => ?_
  rw [Inode.releasePut, Program.bind_assoc]
  refine ends_invoke fun _ t₂ hr => ?_
  obtain ⟨hw₂, hdisk₂, hids₂, hc₂⟩ := hw₁.release hnot hr
  have hid₂ : (t₂.table c).id = id := by rw [hids₂, hids₁, hm.idNew]
  have hrefs₂ : (t₂.table c).referenceCount = 1 := by
    exact (hw₂.entry c).refs.trans ((hm.partway.entry c).refs.symm.trans hrefs)
  have hv : (t₂.table c).isValid = true := by
    rw [hc₂]
    exact ((hw₁.entry c).held List.mem_cons_self).2.2.2
  refine hw₂.ends_putLast hnot hrefs₂ hv ?_ fun t' hw' hdisk' hnew => hf t' hw' fun i => ?_
  · rw [hid₂, hdisk₂, hdisk₁, hm.idNew, Function.update_self]
  · rw [hid₂] at hdisk' hnew
    by_cases hi : i = id
    · subst hi
      exact .inr ⟨hfree, hnew⟩
    · left
      rw [hdisk' i hi, hdisk₂, hdisk₁, hm.idNew, Function.update_of_ne hi, hm.disk i hi]

end NewInode

namespace Partway

theorem ends_createNew (hw : Partway p s₀ s held locked) {parent : Handle} (hp : parent ∈ locked)
    (hallocated : ∀ g, 0 < (s.table g).referenceCount → (s.disk (s.table g).id).type ≠ .free)
    (name : Name) (kind : InodeType) (device : DeviceId) :
    Ends p (SysFile.createNew parent name kind device) s fun r t =>
      ∀ e, r = .error e → Partway p s₀ t held locked ∧ Restored s.disk t.disk := by
  unfold SysFile.createNew
  refine ends_invoke fun _ t hr => ?_
  obtain ⟨rfl, rfl⟩ := Outcome.done.inj hr
  rw [Inode.alloc, Program.bind_assoc]
  refine ends_invoke fun _ t hr => ?_
  obtain ⟨rfl, rfl⟩ := Outcome.done.inj hr
  refine hw.ends_allocFrom hallocated ?_ (fun c t₁ hw₁ hzero hfree _ hdisk₁ => ?_) _ _
  · exact fun _ _ => ⟨hw, .of_eq rfl⟩
  -- nobody but this call refers to the new inode
  have hheld : held c = 0 ∧ (s₀.table c).referenceCount = 0 := by
    have := (hw.entry c).refs
    omega
  refine ends_invoke fun _ t₂ hr => ?_
  obtain ⟨hw₂, hdisk₂, hnot, hids₂⟩ := hw₁.lock (by simp) hr
  refine ends_invoke fun _ t hr => ?_
  obtain ⟨rfl, rfl⟩ := Outcome.done.inj hr
  refine ends_invoke fun _ t₃ hr => ?_
  obtain ⟨-, rfl⟩ := Outcome.done.inj hr
  obtain ⟨hd₂, ht₂⟩ := hw₂.locked_inode List.mem_cons_self
  rw [← hd₂] at ht₂
  obtain ⟨hw₃, hdisk₃, hids₃⟩ := hw₂.store List.mem_cons_self (d := { (t₂.table c).diskInode with
    device := device, linkCount := 1 }) ht₂
  generalize t₂.store c { (t₂.table c).diskInode with device := device, linkCount := 1 } = t₃ at *
  have hm : NewInode p s₀ t₃ s.disk held locked c (t₁.table c).id := by
    refine ⟨hw₃, by rw [hids₃, hids₂], fun i hi => ?_⟩
    rw [hdisk₃, hids₂, Function.update_of_ne hi, hdisk₂, hdisk₁ i hi]
  refine (hm.ends_linkNew hp name kind).bind fun r t₄ hr₄ => ?_
  cases r with
  | ok _ => exact fun _ => nofun
  | error e =>
    have hm₄ := hr₄ e rfl
    refine hm₄.ends_cleanUp hnot ?_ hfree fun t₅ hw₅ hrestored => fun _ _ => ⟨hw₅, hrestored⟩
    have hrefs := (hm₄.partway.entry c).refs
    simp only [Pi.add_apply, Pi.single_eq_same] at hrefs
    omega

theorem ends_createIn (hw : Partway p s₀ s held locked) (hs : Consistent s₀ p) {parent : Handle}
    (hp : parent ∈ locked) (hdisk : s.disk = s₀.disk)
    (hallocated : ∀ g, 0 < (s.table g).referenceCount → (s.disk (s.table g).id).type ≠ .free)
    (name : Name) (kind : InodeType) (device : DeviceId) :
    Ends p (SysFile.createIn parent name kind device) s fun r t =>
      ∀ e, r = .error e → Partway p s₀ t held locked ∧ Restored s.disk t.disk := by
  unfold SysFile.createIn
  refine hw.ends_init hp fun _ => ?_
  refine hw.ends_lookupChild ?_ fun c offset t₁ hw₁ hdisk₁ _ _ => ?_
  · exact hw.ends_createNew hp hallocated name kind device
  refine ends_invoke fun _ t₂ hr => ?_
  obtain ⟨hw₂, hdisk₂, hnot, -⟩ := hw₁.lock (by simp) hr
  have hdisk₂ := hdisk₂.trans hdisk₁
  refine ends_invoke fun _ t hr => ?_
  obtain ⟨rfl, rfl⟩ := Outcome.done.inj hr
  split
  · exact fun _ => by simp
  · have hkeep := hw₂.spared (h := c) hs (by simp) (by rw [hdisk₂, hdisk])
    exact hw₂.ends_releasePut hnot hkeep fun t₃ hw₃ hdisk₃ _ =>
      fun _ _ => ⟨hw₃, .of_eq (hdisk₃.trans hdisk₂)⟩

end Partway

/-- What a call leaves that returns an error. -/
def Undone (p : π) (s t : Kernel π) : Prop := Partway p s t 0 [] ∧ Restored s.disk t.disk

omit [DecidableEq π] in
/-- The inodes in use are those the call found in use, and the one it has locked. -/
theorem Partway.allocated (hw : Partway p s₀ s (Pi.single h 1) [h]) (hs : Consistent s₀ p)
    (hdisk : s.disk = s₀.disk) (g : Handle) (hg : 0 < (s.table g).referenceCount) :
    (s.disk (s.table g).id).type ≠ .free := by
  by_cases hgh : g = h
  · subst hgh
    exact (hw.locked_inode List.mem_cons_self).2
  · have hk := hw.entry g
    have hg₀ : 0 < (s₀.table g).referenceCount := by
      have := hk.refs
      rw [Pi.single_eq_of_ne hgh] at this
      omega
    rw [hk.id hg₀, hdisk]
    exact hs.allocated g hg₀

theorem ends_create (hs : Consistent s p) (path : List UInt8) (kind : InodeType)
    (device : DeviceId) :
    Ends p (SysFile.create path kind device) s fun r t => ∀ e, r = .error e → Undone p s t := by
  unfold SysFile.create
  refine (ends_resolvePathHelper hs path true).bind fun r t₁ ⟨hdisk₁, hw₁⟩ => ?_
  cases r with
  | none => exact fun _ _ => ⟨hw₁, .of_eq hdisk₁⟩
  | some x =>
    obtain ⟨parent, name⟩ := x
    have hw₁ : Partway p s t₁ (Pi.single parent 1) [] := hw₁
    refine ends_invoke fun _ t₂ hr => ?_
    obtain ⟨hw₂, hdisk₂, hnot, -⟩ := hw₁.lock (by simp) hr
    have hdisk₂ := hdisk₂.trans hdisk₁
    refine (hw₂.ends_createIn hs List.mem_cons_self hdisk₂ (hw₂.allocated hs hdisk₂) name kind
      device).bind fun r t₃ hr₃ => ?_
    cases r with
    | ok _ =>
      exact Ends.bind (ends_of_forall (Q := fun _ _ => True) fun _ _ => trivial)
        fun _ _ _ _ => nofun
    | error e =>
      obtain ⟨hw₃, hrestored⟩ := hr₃ e rfl
      rw [hdisk₂] at hrestored
      have hkeep := hw₃.spared (h := parent) hs (by simp)
        (hrestored.eq (hw₃.locked_inode List.mem_cons_self).2)
      rw [← zero_add (Pi.single parent 1)] at hw₃
      refine hw₃.ends_releasePut hnot hkeep fun t₄ hw₄ hdisk₄ _ => fun _ _ => ⟨hw₄, ?_⟩
      rw [hdisk₄]
      exact hrestored

/-! ### `link` -/

/-- The end of `linkInParent` that failed: the disk is as it was. -/
theorem ends_linkInParent (hs : Consistent s p) (inode : Handle) (new : List UInt8) :
    Ends p (SysFile.linkInParent inode new) s fun r t =>
      ∀ e, r = .error e → Partway p s t 0 [] ∧ t.disk = s.disk := by
  unfold SysFile.linkInParent
  refine (ends_resolvePathHelper hs new true).bind fun r t₁ hwalked => ?_
  obtain ⟨hdisk₁, hw₁⟩ := hwalked
  cases r with
  | none => exact fun _ _ => ⟨hw₁, hdisk₁⟩
  | some x =>
    obtain ⟨parent, name⟩ := x
    have hw₁ : Partway p s t₁ (Pi.single parent 1) [] := hw₁
    refine ends_invoke fun _ t₂ hr => ?_
    obtain ⟨hw₂, hdisk₂, hnot, -⟩ := hw₁.lock (by simp) hr
    have hdisk₂ := hdisk₂.trans hdisk₁
    have hkeep := hw₂.spared (h := parent) hs (by simp) (by rw [hdisk₂])
    refine ends_invoke fun _ t hr => ?_
    obtain ⟨rfl, rfl⟩ := Outcome.done.inj hr
    refine ends_invoke fun _ t hr => ?_
    obtain ⟨rfl, rfl⟩ := Outcome.done.inj hr
    split
    · rw [← zero_add (Pi.single parent 1)] at hw₂
      exact hw₂.ends_releasePut hnot hkeep fun t₃ hw₃ hdisk₃ _ =>
        fun _ _ => ⟨hw₃, hdisk₃.trans hdisk₂⟩
    refine hw₂.ends_init List.mem_cons_self fun _ => ?_
    refine hw₂.ends_linkEntry List.mem_cons_self (fun e t₃ hw₃ hdisk₃ _ => ?_) fun t₃ _ _ _ => ?_
    · have hdisk₃ := hdisk₃.trans hdisk₂
      have hkeep₃ := hw₃.spared (h := parent) hs (by simp) (by rw [hdisk₃])
      rw [← zero_add (Pi.single parent 1)] at hw₃
      exact hw₃.ends_releasePut hnot hkeep₃ fun t₄ hw₄ hdisk₄ _ =>
        fun _ _ => ⟨hw₄, hdisk₄.trans hdisk₃⟩
    · exact Ends.bind (ends_of_forall (Q := fun _ _ => True) fun _ _ => trivial)
        fun _ _ _ _ => by simp

omit [DecidableEq π] in
/-- Between the calls of `lock` in `link`, the state is consistent: one inode that
the call refers to has another count of links. -/
theorem Partway.consistent (hw : Partway p s₀ s (Pi.single h 1) []) (hs : Consistent s₀ p)
    {d : DiskInode} (hdisk : s.disk = Function.update s₀.disk (s.table h).id d)
    (ht : d.type ≠ .free) (hlinks : d.linkCount < 65536) : Consistent s p where
  coherent g hg hv := ((hw.entry g).coherent hg hv).1
  unique := hw.unique
  cwd := by
    rw [hw.rest]
    change 0 < (s.table (s₀.processes p).currentWorkingDirectory).referenceCount
    rw [(hw.entry _).refs]
    have := hs.cwd
    omega
  allocated g hg := by
    rw [hdisk]
    by_cases hid : (s.table g).id = (s.table h).id
    · rw [hid, Function.update_self]
      exact ht
    · rw [Function.update_of_ne hid]
      have hgh : g ≠ h := fun hgh => hid (by rw [hgh])
      have hk := hw.entry g
      have hg₀ : 0 < (s₀.table g).referenceCount := by
        have := hk.refs
        rw [Pi.single_eq_of_ne hgh] at this
        omega
      rw [hk.id hg₀]
      exact hs.allocated g hg₀
  lasting i hi := by
    refine ⟨hi, ?_⟩
    by_cases hid : i = (s.table h).id
    · exact .inr ⟨h, hw.refs_pos (by simp), hid.symm⟩
    · rw [hdisk, Function.update_of_ne hid] at hi ⊢
      obtain hne | ⟨g, hg, rfl⟩ := (hs.lasting i hi).2
      · exact .inl hne
      · refine .inr ⟨g, ?_, (hw.entry g).id hg⟩
        rw [(hw.entry g).refs]
        omega
  linkCount i := by
    rw [hdisk]
    by_cases hid : i = (s.table h).id
    · rw [hid, Function.update_self]
      exact hlinks
    · rw [Function.update_of_ne hid]
      exact hs.linkCount i
  free i hi := by
    rw [hdisk] at hi ⊢
    by_cases hid : i = (s.table h).id
    · rw [hid, Function.update_self] at hi
      exact absurd hi ht
    · rw [Function.update_of_ne hid] at hi ⊢
      exact hs.free i hi

theorem decrement16_increment16 (n : ℕ) : decrement16 (increment16 n) = n := by
  unfold increment16 decrement16
  by_cases hn : n = 65535
  · simp [hn]
  · simp [hn]

theorem increment16_lt {n : ℕ} (h : n < 65536) : increment16 n < 65536 := by
  unfold increment16
  split <;> omega

theorem ends_linkPaths (hs : Consistent s p) (old new : List UInt8) :
    Ends p (SysFile.linkPaths old new) s fun r t => ∀ e, r = .error e → Undone p s t := by
  unfold SysFile.linkPaths resolvePath
  rw [Program.bind_assoc]
  refine (ends_resolvePathHelper hs old false).bind fun r t₁ hwalked => ?_
  obtain ⟨hdisk₁, hw₁⟩ := hwalked
  cases r with
  | none => exact fun _ _ => ⟨hw₁, .of_eq hdisk₁⟩
  | some x =>
    obtain ⟨inode, name⟩ := x
    have hw₁ : Partway p s t₁ (Pi.single inode 1) [] := hw₁
    refine ends_invoke fun _ t₂ hr => ?_
    obtain ⟨hw₂, hdisk₂, hnot, -⟩ := hw₁.lock (by simp) hr
    have hdisk₂ := hdisk₂.trans hdisk₁
    refine ends_invoke fun _ t hr => ?_
    obtain ⟨rfl, rfl⟩ := Outcome.done.inj hr
    split
    · have hkeep := hw₂.spared (h := inode) hs (by simp) (by rw [hdisk₂])
      rw [← zero_add (Pi.single inode 1)] at hw₂
      exact hw₂.ends_releasePut hnot hkeep fun t₃ hw₃ hdisk₃ _ =>
        fun _ _ => ⟨hw₃, .of_eq (hdisk₃.trans hdisk₂)⟩
    have ht₂ := (hw₂.locked_inode List.mem_cons_self).2
    refine hw₂.ends_setLinkCount List.mem_cons_self fun t₃ hw₃ hdisk₃ hids₃ => ?_
    refine ends_invoke fun _ t₄ hr => ?_
    obtain ⟨hw₄, hdisk₄, hids₄, -⟩ := hw₃.release hnot hr
    have hid₄ : (t₄.table inode).id = (t₂.table inode).id := (hids₄ inode).trans (hids₃ inode)
    have hdisk₄ := hdisk₄.trans hdisk₃
    rw [← hid₄, hdisk₂] at hdisk₄ ht₂
    have hlinks := increment16_lt (hs.linkCount (t₄.table inode).id)
    have hs₄ : Consistent t₄ p := hw₄.consistent hs hdisk₄ ht₂ hlinks
    refine (ends_linkInParent hs₄ inode new).bind fun r t₅ hr₅ => ?_
    cases r with
    | ok _ =>
      exact Ends.bind (ends_of_forall (Q := fun _ _ => True) fun _ _ => trivial)
        fun _ _ _ _ => by simp
    | error e =>
      obtain ⟨hw₅, hdisk₅⟩ := hr₅ e rfl
      have hid₅ : (t₅.table inode).id = (t₄.table inode).id :=
        (hw₅.entry inode).id (hw₄.refs_pos (by simp))
      have hw₅ : Partway p s t₅ (Pi.single inode 1) [] := hw₄.trans hw₅
      refine ends_invoke fun _ t₆ hr => ?_
      obtain ⟨hw₆, hdisk₆, -, hids₆⟩ := hw₅.lock (by simp) hr
      have hdisk₆ := hdisk₆.trans (hdisk₅.trans hdisk₄)
      have hid₆ : (t₆.table inode).id = (t₄.table inode).id := (hids₆ inode).trans hid₅
      refine hw₆.ends_setLinkCount List.mem_cons_self fun t₇ hw₇ hdisk₇ hids₇ => ?_
      -- the link that was counted is taken back
      have hdisk₇ : t₇.disk = s.disk := by
        rw [hdisk₇, hid₆, hdisk₆, Function.update_idem, Function.update_self]
        simp only [decrement16_increment16]
        exact Function.update_eq_self _ _
      have hkeep := hw₇.spared (h := inode) hs (by simp) (by rw [hdisk₇])
      rw [← zero_add (Pi.single inode 1)] at hw₇
      exact hw₇.ends_releasePut hnot hkeep fun t₈ hw₈ hdisk₈ _ =>
        fun _ _ => ⟨hw₈, .of_eq (hdisk₈.trans hdisk₇)⟩

/-! ### `unlink` -/

theorem ends_checkEmpty (inode : Handle) (d : DiskInode) :
    Ends p (SysFile.checkEmpty inode d) s fun _ t => t = s := by
  unfold SysFile.checkEmpty
  split
  · unfold Directory.init
    rw [Program.bind_assoc]
    refine ends_invoke fun _ t hr => ?_
    obtain ⟨rfl, rfl⟩ := Outcome.done.inj hr
    rw [when]
    split
    · exact Ends.bind (Q := fun _ _ => False) ends_panic fun _ _ h => h.elim
    · refine ends_invoke fun _ t hr => ?_
      obtain ⟨rfl, rfl⟩ := Outcome.done.inj hr
      split
      · exact ends_panic
      · exact rfl
  · exact rfl

/-- The tests of `unlink` come before its changes. -/
theorem ends_unlinkChild (directoryInode inode : Handle) (offset : ℕ) :
    Ends p (SysFile.unlinkChild directoryInode inode offset) s fun r t =>
      ∀ e, r = .error e → t = s := by
  unfold SysFile.unlinkChild
  refine ends_invoke fun d t hr => ?_
  obtain ⟨rfl, rfl⟩ := Outcome.done.inj hr
  split
  · exact ends_panic
  refine (ends_checkEmpty inode _).bind fun empty t ht => ?_
  subst ht
  split
  · exact fun _ _ => rfl
  refine ends_invoke fun r t hr => ?_
  cases r with
  | error e => exact ends_panic
  | ok written =>
    change Ends p (if written ≠ entrySize then panic .unlinkWritei else _) t _
    split
    · exact ends_panic
    · refine Ends.bind (ends_of_forall (Q := fun _ _ => True) fun _ _ => trivial) fun _ _ _ => ?_
      exact Ends.bind (ends_of_forall (Q := fun _ _ => True) fun _ _ => trivial)
        fun _ _ _ _ => by simp

theorem Partway.ends_unlinkIn (hw : Partway p s₀ s held locked) (hs : Consistent s₀ p)
    {directoryInode : Handle} (hd : directoryInode ∈ locked) (hdisk : s.disk = s₀.disk)
    (name : Name) :
    Ends p (SysFile.unlinkIn directoryInode name) s fun r t =>
      ∀ e, r = .error e → Partway p s₀ t held locked ∧ t.disk = s₀.disk := by
  unfold SysFile.unlinkIn
  split
  · exact fun _ _ => ⟨hw, hdisk⟩
  split
  · exact fun _ _ => ⟨hw, hdisk⟩
  refine hw.ends_init hd fun _ => ?_
  refine hw.ends_lookupChild ?_ fun c offset t₁ hw₁ hdisk₁ _ _ => ?_
  · exact fun _ _ => ⟨hw, hdisk⟩
  refine ends_invoke fun _ t₂ hr => ?_
  obtain ⟨hw₂, hdisk₂, hnot, -⟩ := hw₁.lock (by simp) hr
  have hdisk₂ := hdisk₂.trans (hdisk₁.trans hdisk)
  refine (ends_unlinkChild directoryInode c offset).bind fun r t₃ hr₃ => ?_
  cases r with
  | ok _ =>
    exact Ends.bind (ends_of_forall (Q := fun _ _ => True) fun _ _ => trivial)
      fun _ _ _ _ => by simp
  | error e =>
    obtain rfl := hr₃ e rfl
    have hkeep := hw₂.spared (h := c) hs (by simp) (by rw [hdisk₂])
    exact hw₂.ends_releasePut hnot hkeep fun t₄ hw₄ hdisk₄ _ =>
      fun _ _ => ⟨hw₄, hdisk₄.trans hdisk₂⟩

/-- `unlink` between `beginOperation` and `endOperation`. -/
theorem ends_unlinkPath (hs : Consistent s p) (path : List UInt8) :
    Ends p (resolvePathParent path >>= fun
      | none => pure (.error SysFile.UnlinkError.failedGetParentDir)
      | some (directoryInode, name) => do
        invoke (.lock directoryInode)
        let r ← SysFile.unlinkIn directoryInode name
        Inode.releasePut directoryInode
        return r) s fun r t => ∀ e, r = .error e → Undone p s t := by
  refine (ends_resolvePathHelper hs path true).bind fun r t₁ ⟨hdisk₁, hw₁⟩ => ?_
  cases r with
  | none => exact fun _ _ => ⟨hw₁, .of_eq hdisk₁⟩
  | some x =>
    obtain ⟨directoryInode, name⟩ := x
    have hw₁ : Partway p s t₁ (Pi.single directoryInode 1) [] := hw₁
    refine ends_invoke fun _ t₂ hr => ?_
    obtain ⟨hw₂, hdisk₂, hnot, -⟩ := hw₁.lock (by simp) hr
    refine (hw₂.ends_unlinkIn hs List.mem_cons_self (hdisk₂.trans hdisk₁) name).bind
      fun r t₃ hr₃ => ?_
    cases r with
    | ok _ =>
      exact Ends.bind (ends_of_forall (Q := fun _ _ => True) fun _ _ => trivial)
        fun _ _ _ _ => nofun
    | error e =>
      obtain ⟨hw₃, hdisk₃⟩ := hr₃ e rfl
      have hkeep := hw₃.spared (h := directoryInode) hs (by simp) (by rw [hdisk₃])
      rw [← zero_add (Pi.single directoryInode 1)] at hw₃
      exact hw₃.ends_releasePut hnot hkeep fun t₄ hw₄ hdisk₄ _ =>
        fun _ _ => ⟨hw₄, .of_eq (hdisk₄.trans hdisk₃)⟩

/-! ### The calls -/

/-- What the caller of a failed operation can see of the file system. -/
structure Unchanged (s t : Kernel π) : Prop where
  type : ∀ i, (t.disk i).type = (s.disk i).type
  content : ∀ i, (t.disk i).content = (s.disk i).content
  linkCount : ∀ i, (t.disk i).linkCount = (s.disk i).linkCount
  /-- Every path leads to the inode it led to. -/
  paths : ∀ start names, resolve t.disk start names = resolve s.disk start names
  references : ∀ h, (t.table h).referenceCount = (s.table h).referenceCount
  inodes : ∀ h, 0 < (s.table h).referenceCount → (t.table h).id = (s.table h).id
  locks : ∀ h, (t.table h).holder = (s.table h).holder
  processes : t.processes = s.processes
  files : t.files = s.files
  depth : t.depth = s.depth

omit [DecidableEq π] in
theorem resolve_congr {disk disk' : InodeId → DiskInode}
    (htype : ∀ i, (disk' i).type = (disk i).type)
    (hcontent : ∀ i, (disk' i).content = (disk i).content) (start : InodeId) (names : List Name) :
    resolve disk' start names = resolve disk start names := by
  have hlookup : lookup disk' = lookup disk := by
    funext i name
    simp only [lookup, FileSystem.child, htype, hcontent]
  rw [resolve, resolve, hlookup]

omit [DecidableEq π] in
theorem Undone.unchanged {t : Kernel π} (hu : Undone p s t) (hs : Consistent s p) :
    Unchanged s t := by
  obtain ⟨hw, hrestored⟩ := hu
  have hinode (i : InodeId) : (t.disk i).type = (s.disk i).type ∧
      (t.disk i).content = (s.disk i).content ∧ (t.disk i).linkCount = (s.disk i).linkCount := by
    obtain heq | ⟨hfree, htype, hcontent, hlinks⟩ := hrestored i
    · rw [heq]
      exact ⟨rfl, rfl, rfl⟩
    · obtain ⟨hc, hl⟩ := hs.free i hfree
      rw [htype, hcontent, hlinks, hfree, hc, hl]
      exact ⟨rfl, rfl, rfl⟩
  have hrest := hw.rest
  exact {
    type := fun i => (hinode i).1
    content := fun i => (hinode i).2.1
    linkCount := fun i => (hinode i).2.2
    paths := resolve_congr (fun i => (hinode i).1) fun i => (hinode i).2.1
    references := fun h => (hw.entry h).refs
    inodes := fun h => (hw.entry h).id
    locks := fun h => (hw.entry h).other List.not_mem_nil
    processes := by rw [hrest]
    files := by rw [hrest]
    depth := by rw [hrest] }

/-- A call inside an operation starts from the same file system. -/
theorem ends_inOperation (hs : Consistent s p) {β : Type} {body : Prog β} {failed : β → Prop}
    (hbody : ∀ s', Consistent s' p → Ends p body s' fun r t => failed r → Undone p s' t) :
    Ends p (SysFile.inOperation body) s fun r t => failed r → Unchanged s t := by
  unfold SysFile.inOperation
  refine ends_invoke fun _ s' hr => ?_
  obtain ⟨-, rfl⟩ := Outcome.done.inj hr
  have hs' : Consistent { s.setDepth p (s.depth p + 1) with
      nested := s.nested || decide (0 < s.depth p) } p :=
    ⟨hs.coherent, hs.unique, hs.cwd, hs.allocated, hs.lasting, hs.linkCount, hs.free⟩
  refine (hbody _ hs').bind fun r t₁ hr₁ => ?_
  refine ends_invoke fun _ t hr => ?_
  obtain ⟨-, rfl⟩ := Outcome.done.inj hr
  intro hfailed
  have hu := (hr₁ hfailed).unchanged hs'
  have hdepth := hu.depth
  refine { hu with depth := ?_ }
  change Function.update t₁.depth p (t₁.depth p - 1) = s.depth
  rw [hdepth]
  simp [Kernel.setDepth]

/-- `mkdir` and `mknod` fail where `create` does. -/
theorem ends_createAndPut (hs : Consistent s p) (path : List UInt8) (kind : InodeType)
    (device : DeviceId) :
    Ends p (SysFile.createAndPut path kind device) s fun r t => r = false → Unchanged s t := by
  refine ends_inOperation hs fun s' hs' => (ends_create hs' path kind device).bind fun r t hr => ?_
  cases r with
  | error e => exact fun _ => hr e rfl
  | ok _ =>
    exact Ends.bind (ends_of_forall (Q := fun _ _ => True) fun _ _ => trivial) fun _ _ _ => nofun

/-- Once `open` has its inode, no error of `create` comes back. -/
theorem openFile_returns (inode : Handle) (mode : SysFile.OpenMode) :
    (SysFile.openFile inode mode).Returns fun r => ∀ e, r ≠ .error (.create e) := by
  unfold SysFile.openFile
  intro d
  change Program.Returns _ (if _ then _ else _)
  split
  · intro _
    refine Returns.bind (p := Inode.put inode) fun _ e => ?_
    simp
  rintro (_ | file)
  · intro _
    refine Returns.bind (p := Inode.put inode) fun _ e => ?_
    simp
  intro _
  refine Returns.bind (p := Program.when _ _) fun _ => ?_
  rintro (_ | fd)
  · refine Returns.bind (p := File.close file) fun _ => ?_
    intro _
    refine Returns.bind (p := Inode.put inode) fun _ e => ?_
    simp
  · intro _ e
    simp

theorem ends_openPath (hs : Consistent s p) (path : Option (List UInt8)) (mode : ℕ) :
    Ends p (SysFile.openPath path mode) s fun r t =>
      (∃ e, r = .error (.create e)) → Unchanged s t := by
  unfold SysFile.openPath
  split
  · rintro ⟨_, he⟩
    cases he
  split
  next err hmode =>
    rintro ⟨e, he⟩
    rw [Except.error.inj he] at hmode
    unfold SysFile.OpenMode.fromUsize at hmode
    split at hmode
    · cases hmode
    · simp only at hmode
      split at hmode <;> cases hmode
  refine ends_inOperation hs fun s' hs' => ?_
  refine Ends.bind (Q := fun r t => ∀ e, r = .error (.create e) → Undone p s' t) ?_
    fun r t hr => ?_
  · unfold SysFile.openInode
    split
    · refine (ends_create hs' _ .file ⟨0, 0⟩).bind fun r t hr => ?_
      cases r with
      | error e => exact fun _ _ => hr e rfl
      | ok _ => exact fun _ => by simp
    · refine ends_iff.mpr fun r t hrun e he => ?_
      refine absurd he (Returns.run (Q := fun r => ∀ e, r ≠ .error (.create e)) ?_ hrun e)
      refine Returns.bind (p := resolvePath _) fun r => ?_
      cases r with
      | none =>
        intro e
        simp
      | some inode =>
        intro _ d
        change Program.Returns _ (if _ then _ else _)
        split
        · refine Returns.bind (p := Inode.releasePut inode) fun _ e => ?_
          simp
        · intro e
          simp
  cases r with
  | error e =>
    rintro ⟨e', he⟩
    exact hr e' (congrArg Except.error (Except.error.inj he))
  | ok inode =>
    refine ends_iff.mpr fun r t hrun hfailed => ?_
    obtain ⟨e, he⟩ := hfailed
    exact absurd he ((openFile_returns inode _).run hrun e)

/-- A directory operation that returns an error leaves the file system as it found
it: the inodes on disk and the paths to them, and the references and the locks. -/
theorem failed_calls_unchanged (hs : Consistent s p) :
    (∀ path kind device e t, (SysFile.create path kind device).run (Kernel.perform p) s =
      .done (.error e) t → Unchanged s t) ∧
    (∀ path t, (SysFile.mkdir path).run (Kernel.perform p) s = .done false t → Unchanged s t) ∧
    (∀ path major minor t, (SysFile.mknod path major minor).run (Kernel.perform p) s =
      .done false t → Unchanged s t) ∧
    (∀ path mode e t, (SysFile.openPath path mode).run (Kernel.perform p) s =
      .done (.error (.create e)) t → Unchanged s t) ∧
    (∀ old new e t, (SysFile.link old new).run (Kernel.perform p) s =
      .done (.error e) t → Unchanged s t) ∧
    ∀ path e t, (SysFile.unlink path).run (Kernel.perform p) s =
      .done (.error e) t → Unchanged s t := by
  have hrefl : Unchanged s s := ⟨fun _ => rfl, fun _ => rfl, fun _ => rfl, fun _ _ => rfl,
    fun _ => rfl, fun _ _ => rfl, fun _ => rfl, rfl, rfl, rfl⟩
  have hcreate (path : List UInt8) (kind : InodeType) (device : DeviceId) (t : Kernel π)
      (hrun : (SysFile.createAndPut path kind device).run (Kernel.perform p) s = .done false t) :
      Unchanged s t := ends_iff.mp (ends_createAndPut hs path kind device) _ t hrun rfl
  refine ⟨fun path kind device e t hrun => ?_, fun path t hrun => ?_,
    fun path major minor t hrun => ?_, fun path mode e t hrun => ?_, fun old new e t hrun => ?_,
    fun path e t hrun => ?_⟩
  · exact (ends_iff.mp (ends_create hs path kind device) _ t hrun e rfl).unchanged hs
  · cases path with
    | none =>
      obtain ⟨-, rfl⟩ := Outcome.done.inj hrun
      exact hrefl
    | some path => exact hcreate _ _ _ _ hrun
  · cases path with
    | none =>
      obtain ⟨-, rfl⟩ := Outcome.done.inj hrun
      exact hrefl
    | some path =>
      unfold SysFile.mknod at hrun
      simp only at hrun
      split at hrun
      · obtain ⟨-, rfl⟩ := Outcome.done.inj hrun
        exact hrefl
      split at hrun
      · obtain ⟨-, rfl⟩ := Outcome.done.inj hrun
        exact hrefl
      · exact hcreate _ _ _ _ hrun
  · exact ends_iff.mp (ends_openPath hs path mode) _ t hrun ⟨e, rfl⟩
  · cases old with
    | none =>
      obtain ⟨-, rfl⟩ := Outcome.done.inj hrun
      exact hrefl
    | some old =>
      cases new with
      | none =>
        obtain ⟨-, rfl⟩ := Outcome.done.inj hrun
        exact hrefl
      | some new =>
        have hends : Ends p (SysFile.link (some old) (some new)) s fun r t =>
            (∃ e, r = .error e) → Unchanged s t :=
          ends_inOperation hs fun s' hs' =>
            (ends_linkPaths hs' old new).mono fun r t hr ⟨e, he⟩ => hr e he
        exact ends_iff.mp hends _ t hrun ⟨e, rfl⟩
  · cases path with
    | none =>
      obtain ⟨-, rfl⟩ := Outcome.done.inj hrun
      exact hrefl
    | some path =>
      have hends : Ends p (SysFile.unlink (some path)) s fun r t =>
          (∃ e, r = .error e) → Unchanged s t :=
        ends_inOperation hs fun s' hs' =>
          (ends_unlinkPath hs' path).mono fun r t hr ⟨e, he⟩ => hr e he
      exact ends_iff.mp hends _ t hrun ⟨e, rfl⟩

/-- `oneFileRoot` on a disk without a free block. -/
def fullDisk : Kernel Unit := { oneFileRoot with space := fun _ => false }

theorem fullDisk_consistent : Consistent fullDisk () where
  coherent := oneFileRoot_tree.coherent
  unique g h hg hh _ := by
    have hzero (k : Handle) (hk : 0 < (fullDisk.table k).referenceCount) : k = 0 := by
      by_contra hne
      simp [fullDisk, oneFileRoot, hne] at hk
    rw [hzero g hg, hzero h hh]
  cwd := by decide
  allocated h _ := show (oneFileRoot.disk .root).type ≠ .free by decide
  lasting id hid := by
    refine ⟨hid, .inl ?_⟩
    change (oneFileRoot.disk id).type ≠ .free at hid
    change (oneFileRoot.disk id).linkCount ≠ 0
    simp only [oneFileRoot] at hid ⊢
    split at hid
    next h =>
      rw [if_pos h]
      decide
    split at hid
    next h h' =>
      rw [if_neg h, if_pos h']
      decide
    · exact absurd rfl hid
  linkCount id := by
    change (oneFileRoot.disk id).linkCount < 65536
    simp only [oneFileRoot]
    split
    · decide
    split <;> decide
  free id hid := by
    change (oneFileRoot.disk id).type = .free at hid
    change (oneFileRoot.disk id).content = [] ∧ (oneFileRoot.disk id).linkCount = 0
    simp only [oneFileRoot] at hid ⊢
    split at hid
    · cases hid
    split at hid
    · cases hid
    next h h' =>
      rw [if_neg h, if_neg h']
      exact ⟨rfl, rfl⟩

/-- A new directory has no block for its first entry, and is gone again. -/
theorem failed_calls_unchanged_full :
    ∃ t, (SysFile.mkdir (some [47, 100])).run (Kernel.perform ()) fullDisk = .done false t ∧
      Unchanged fullDisk t := by
  obtain ⟨t, ht⟩ : ∃ t, (SysFile.mkdir (some [47, 100])).run (Kernel.perform ()) fullDisk =
    .done false t := ⟨_, rfl⟩
  exact ⟨t, ht, (failed_calls_unchanged fullDisk_consistent).2.1 _ t ht⟩

end Zigmaos.FileSystem
