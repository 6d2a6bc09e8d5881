import Zigmaos.InodeTableInvariant
import Zigmaos.SysFile

/-!
# When the inode table runs out of entries

`Inode.get` panics where the inode is not in the table and every entry is
referenced. In all runs, the counts add up what the processes hold and an inode
is in the table once; so a run stays clear of the panic exactly if fewer than
`NINODE` different inodes are referenced at each `get` of another one. The file
table has room for twice as many files.
-/
namespace Zigmaos.InodeTable
open FileSystem Finset

theorem get_stops_iff {π : Type} (k : Kernel π) (id : InodeId) :
    (∃ s, k.get id = .stop .noInodesAvailable s) ↔
      (∀ h, 0 < (k.table h).referenceCount → (k.table h).id ≠ id) ∧
        ∀ h, 0 < (k.table h).referenceCount := by
  unfold Kernel.get
  constructor
  · intro ⟨s, hs⟩
    split at hs
    · cases hs
    next hid =>
      split at hs
      · cases hs
      next hfree =>
        refine ⟨fun h hpos heq => ?_, fun h => ?_⟩
        · have := List.find?_eq_none.mp hid h (List.mem_finRange h)
          simp only [decide_eq_true_eq, not_and] at this
          exact this hpos heq
        · have := List.find?_eq_none.mp hfree h (List.mem_finRange h)
          simp only [decide_eq_true_eq] at this
          omega
  · intro ⟨hid, hpos⟩
    have hnone : (List.finRange nInode).find?
        (fun h => 0 < (k.table h).referenceCount ∧ (k.table h).id = id) = none :=
      List.find?_eq_none.mpr fun h _ => by simpa using hid h
    have hfull : (List.finRange nInode).find? (fun h => (k.table h).referenceCount = 0) = none :=
      List.find?_eq_none.mpr fun h _ => by
        have := hpos h
        simp only [decide_eq_true_eq]
        omega
    rw [hnone, hfull]
    exact ⟨k, rfl⟩

section
variable {π : Type}

/-- The process calls `get` for the inode. -/
def Gets (s : State π) : Event π → InodeId → Prop
  | .get p id, i => s.phase p = .running ∧ 0 < (s.kernel.disk id).linkCount ∧ id = i
  | .step p, i => s.phase p = .allocated i
  | _, _ => False

/-- The panic of `get`. -/
def noInodes (k : Kernel π) (id : InodeId) : Bool :=
  match k.get id with
  | .stop .noInodesAvailable _ => true
  | _ => false

def panics (s : State π) : Event π → Bool
  | .get p id =>
    decide (s.phase p = .running ∧ 0 < (s.kernel.disk id).linkCount) && noInodes s.kernel id
  | .step p =>
    match s.phase p with
    | .allocated id => noInodes s.kernel id
    | _ => false
  | _ => false

end

/-! ## Counting the references -/

variable {π : Type} [DecidableEq π] [Fintype π]

/-- The part of the invariant that every run keeps. -/
structure Counted (s : State π) : Prop where
  unique : ∀ g h, 0 < (s.kernel.table g).referenceCount → 0 < (s.kernel.table h).referenceCount →
    (s.kernel.table g).id = (s.kernel.table h).id → g = h
  count : ∀ h, (s.kernel.table h).referenceCount = ∑ p, s.refs p h
  freeing : ∀ p h, (s.phase p).Frees h → 0 < s.refs p h

/-- The inodes that some process refers to. -/
def State.referenced (s : State π) : Finset InodeId :=
  (univ.filter fun h => ∃ p, 0 < s.refs p h).image fun h => (s.kernel.table h).id

namespace Counted
variable {s s' : State π} {p : π} {h : Handle}

omit [DecidableEq π] in
theorem pos_iff (hs : Counted s) (h : Handle) :
    0 < (s.kernel.table h).referenceCount ↔ ∃ p, 0 < s.refs p h := by
  rw [hs.count, Nat.pos_iff_ne_zero, Ne, sum_eq_zero_iff]
  simp [Nat.pos_iff_ne_zero]

omit [DecidableEq π] in
/-- What touches no count and no number. -/
theorem congr (hs : Counted s)
    (hcount : ∀ g, (s'.kernel.table g).referenceCount = (s.kernel.table g).referenceCount)
    (hid : ∀ g, (s'.kernel.table g).id = (s.kernel.table g).id) (hrefs : s'.refs = s.refs)
    (hfreeing : ∀ q g, (s'.phase q).Frees g → 0 < s.refs q g) : Counted s' where
  unique g h hg hh he := by
    rw [hcount] at hg hh
    rw [hid, hid] at he
    exact hs.unique g h hg hh he
  count g := by rw [hcount, hrefs, hs.count]
  freeing q g hq := by
    rw [hrefs]
    exact hfreeing q g hq

theorem addRef (hs : Counted s) (hpos : 0 < (s.kernel.table h).referenceCount)
    (hkernel : s'.kernel = s.kernel.setEntry h { s.kernel.table h with
      referenceCount := (s.kernel.table h).referenceCount + 1 })
    (hrefs : s'.refs = addRef s.refs p h)
    (hphase : ∀ q g, (s'.phase q).Frees g → (s.phase q).Frees g) : Counted s' := by
  constructor
  case unique =>
    intro g₁ g₂ h₁ h₂ he
    have := hs.unique g₁ g₂
    rw [hkernel] at h₁ h₂ he
    simp only [Kernel.setEntry_table] at h₁ h₂ he
    grind
  case count =>
    intro g
    rw [hkernel, hrefs, sum_addRef, ← hs.count, Kernel.setEntry_table]
    split
    next hgh => rw [hgh]
    · rfl
  case freeing =>
    intro q g hq
    rw [hrefs]
    exact (hs.freeing q g (hphase q g hq)).trans_le (Nat.le_add_right _ _)

theorem get (hs : Counted s) {id : InodeId} {k : Kernel π} (hg : s.kernel.get id = .done h k)
    (hkernel : s'.kernel = k) (hrefs : s'.refs = InodeTable.addRef s.refs p h)
    (hphase : ∀ q g, (s'.phase q).Frees g → (s.phase q).Frees g) : Counted s' := by
  obtain ⟨hpos, -, rfl⟩ | ⟨hzero, hnew, rfl⟩ := Kernel.get_cases hg
  · exact hs.addRef hpos hkernel hrefs hphase
  constructor
  case unique =>
    intro g₁ g₂ h₁ h₂ he
    have := hs.unique g₁ g₂
    have := hnew g₁
    have := hnew g₂
    rw [hkernel] at h₁ h₂ he
    simp only [Kernel.setEntry_table] at h₁ h₂ he
    grind
  case count =>
    intro g
    rw [hkernel, hrefs, sum_addRef, ← hs.count, Kernel.setEntry_table]
    split
    next hgh => rw [hgh, hzero]
    · rfl
  case freeing =>
    intro q g hq
    rw [hrefs]
    exact (hs.freeing q g (hphase q g hq)).trans_le (Nat.le_add_right _ _)

theorem drop (hs : Counted s) (hp : 0 < s.refs p h)
    (hkernel : s'.kernel = s.kernel.setEntry h { s.kernel.table h with
      referenceCount := sub32 (s.kernel.table h).referenceCount 1 })
    (hrefs : s'.refs = dropRef s.refs p h)
    (hphase : ∀ q g, (s'.phase q).Frees g → (s.phase q).Frees g ∧ q ≠ p) : Counted s' := by
  have hpos : 1 ≤ (s.kernel.table h).referenceCount := (hs.pos_iff h).mpr ⟨p, hp⟩
  rw [sub32_of_le hpos] at hkernel
  constructor
  case unique =>
    intro g₁ g₂ h₁ h₂ he
    have := hs.unique g₁ g₂
    rw [hkernel] at h₁ h₂ he
    simp only [Kernel.setEntry_table] at h₁ h₂ he
    grind
  case count =>
    intro g
    rw [hkernel, hrefs, sum_dropRef hp, ← hs.count, Kernel.setEntry_table]
    split
    next hgh => rw [hgh]
    · rfl
  case freeing =>
    intro q g hq
    obtain ⟨hq, hne⟩ := hphase q g hq
    rw [hrefs, dropRef_of_ne (fun hqp => hne hqp.1)]
    exact hs.freeing q g hq

end Counted

omit [DecidableEq π] in
theorem Initial.counted {s : State π} (h : Initial s) : Counted s where
  unique g _ hg := by
    rw [(h.table g).1] at hg
    omega
  count g := by simp [(h.table g).1, h.refs]
  freeing p g hp := by
    rw [h.phase p] at hp
    exact absurd hp not_frees_running

theorem Counted.step {s s' : State π} {e : Event π} (hs : Counted s)
    (he : InodeTable.step s e = some s') : Counted s' := by
  cases e with
  | get p id =>
    simp only [InodeTable.step, Option.ite_none_right_eq_some] at he
    obtain ⟨-, he⟩ := he
    split at he
    next h k hg =>
      cases he
      exact hs.get hg rfl rfl fun _ _ hq => hq
    · cases he
  | duplicate p h =>
    simp only [InodeTable.step, Option.ite_none_right_eq_some] at he
    obtain ⟨⟨-, hp⟩, he⟩ := he
    cases he
    exact hs.addRef ((hs.pos_iff h).mpr ⟨p, hp⟩) rfl rfl fun _ _ hq => hq
  | lock p h =>
    simp only [InodeTable.step, Option.ite_none_right_eq_some] at he
    obtain ⟨-, he⟩ := he
    split at he
    next u k hl =>
      cases he
      obtain ⟨-, -, ⟨-, rfl⟩ | ⟨-, -, rfl⟩⟩ := Kernel.lock_cases hl
      · refine hs.congr (fun g => ?_) (fun g => ?_) rfl hs.freeing <;> grind
      · refine hs.congr (fun g => ?_) (fun g => ?_) rfl hs.freeing <;> grind
    · cases he
  | release p h =>
    simp only [InodeTable.step, Option.ite_none_right_eq_some] at he
    obtain ⟨-, he⟩ := he
    split at he
    next u k hr =>
      cases he
      obtain ⟨-, rfl⟩ := Kernel.release_cases hr
      refine hs.congr (fun g => ?_) (fun g => ?_) rfl hs.freeing <;> grind
    · cases he
  | update p h n =>
    simp only [InodeTable.step, Option.ite_none_right_eq_some] at he
    obtain ⟨-, he⟩ := he
    cases he
    refine hs.congr (fun g => ?_) (fun g => ?_) rfl hs.freeing <;> grind
  | put p h =>
    simp only [InodeTable.step, Option.ite_none_right_eq_some] at he
    obtain ⟨⟨hrun, hp, -⟩, he⟩ := he
    split at he
    next k hput =>
      cases he
      obtain ⟨-, -, -, -, -, rfl⟩ | ⟨hb, -⟩ := Kernel.putBegin_cases hput
      · refine hs.congr (fun g => ?_) (fun g => ?_) rfl (fun q g hq => ?_)
        · grind
        · grind
        · have := hs.freeing q g
          grind
      · cases hb
    next k hput =>
      cases he
      obtain ⟨hb, -⟩ | ⟨-, -, rfl⟩ := Kernel.putBegin_cases hput
      · cases hb
      refine hs.drop hp rfl rfl fun q g hq => ⟨hq, ?_⟩
      intro hqp
      rw [hqp, hrun] at hq
      exact not_frees_running hq
    · cases he
  | alloc p id t =>
    simp only [InodeTable.step, Option.ite_none_right_eq_some] at he
    obtain ⟨-, he⟩ := he
    cases he
    refine hs.congr (fun _ => rfl) (fun _ => rfl) rfl (fun q g hq => ?_)
    have := hs.freeing q g
    grind
  | step p =>
    simp only [InodeTable.step] at he
    split at he
    · cases he
    next h hp =>
      cases he
      refine hs.congr (fun g => ?_) (fun g => ?_) rfl (fun q g hq => ?_)
      · grind
      · grind
      · have := hs.freeing q g
        grind
    next h hp =>
      cases he
      refine hs.congr (fun g => ?_) (fun g => ?_) rfl (fun q g hq => ?_)
      · grind
      · grind
      · have := hs.freeing q g
        grind
    next h hp =>
      cases he
      have hpos : 0 < s.refs p h := hs.freeing p h (by grind)
      refine hs.drop hpos rfl rfl fun q g hq => ?_
      simp only [State.setPhase_phase] at hq
      grind
    next id hp =>
      split at he
      next h k hg =>
        cases he
        refine hs.get hg rfl rfl fun q g hq => ?_
        simp only [State.setPhase_phase] at hq
        grind
      · cases he

/-! ## Running out of entries -/

/-- Where an inode is asked for, it is referenced, or fewer than `NINODE` inodes are. -/
def HasRoom (s : State π) (e : Event π) : Prop :=
  ∀ id, Gets s e id → id ∈ s.referenced ∨ s.referenced.card < nInode

namespace Counted
variable {s : State π}

omit [DecidableEq π] in
theorem card_referenced (hs : Counted s) :
    s.referenced.card = (univ.filter fun h => 0 < (s.kernel.table h).referenceCount).card := by
  have hsame : (univ.filter fun h => ∃ p, 0 < s.refs p h) =
      univ.filter fun h => 0 < (s.kernel.table h).referenceCount :=
    filter_congr fun h _ => (hs.pos_iff h).symm
  rw [State.referenced, hsame]
  refine card_image_of_injOn fun g hg h hh he => ?_
  exact hs.unique g h (by simpa using hg) (by simpa using hh) he

omit [DecidableEq π] in
theorem noInodes_iff (hs : Counted s) (id : InodeId) :
    noInodes s.kernel id = true ↔ ¬(id ∈ s.referenced ∨ s.referenced.card < nInode) := by
  have hstop : noInodes s.kernel id = true ↔ ∃ t, s.kernel.get id = .stop .noInodesAvailable t := by
    unfold noInodes
    split <;> simp_all
  rw [hstop, get_stops_iff, not_or, not_lt, hs.card_referenced]
  refine and_congr ?_ ?_
  · simp only [State.referenced, mem_image, mem_filter, mem_univ, true_and, hs.pos_iff]
    simp
  · have hle := card_le_univ (univ.filter fun h => 0 < (s.kernel.table h).referenceCount)
    have hall := card_eq_iff_eq_univ (univ.filter fun h => 0 < (s.kernel.table h).referenceCount)
    rw [Fintype.card_fin] at hle hall
    rw [← Nat.le_antisymm_iff.trans (and_iff_right hle), hall, filter_eq_self]
    simp

omit [DecidableEq π] in
theorem panics_iff (hs : Counted s) (e : Event π) : panics s e = true ↔ ¬ HasRoom s e := by
  have hone : ∀ {b : Prop} {id : InodeId}, (b ∧ noInodes s.kernel id = true) ↔
      ¬ ∀ i, (b ∧ id = i) → i ∈ s.referenced ∨ s.referenced.card < nInode := by
    intro b id
    rw [hs.noInodes_iff]
    simp
  cases e with
  | get p id =>
    simp only [panics, HasRoom, Gets, Bool.and_eq_true, decide_eq_true_eq, ← and_assoc]
    exact hone
  | step p =>
    simp only [panics, HasRoom, Gets]
    cases s.phase p with
    | allocated id => simp [hs.noInodes_iff]
    | _ => simp
  | _ => simp [panics, HasRoom, Gets]

end Counted

/-- `get` never panics in a run exactly if each call of it for an inode that nothing
refers to comes while fewer than `NINODE` inodes are referenced. -/
theorem never_exhausted_iff {s₀ : State π} (h₀ : Initial s₀) {es : List (Event π)}
    {m : Option (State π)}
    (hrun : Transition.run (Transition.orPanic step panics) (some s₀) es = some m) :
    m ≠ none ↔ ∀ fs e s, fs ++ [e] <+: es →
      Transition.run (Transition.orPanic step panics) (some s₀) fs = some (some s) → HasRoom s e :=
  Transition.no_panic_iff h₀.counted (fun _ _ _ h he => h.step he) (fun _ e h => h.panics_iff e) hrun

/-- File number `n`. -/
def fileId (n : ℕ) : InodeId := ⟨.rootFsDevice, n⟩

/-- Files at all numbers from 2 on, and nothing in the table. -/
def manyFiles : State (Fin 4) where
  kernel := {
    ninodes := 200
    disk := fun id => if 2 ≤ id.number then ⟨.zero, [], .file, 1⟩ else .empty
    table := fun _ => ⟨⟨.zero, 0⟩, 0, none, false, .empty⟩
    files := fun _ => ⟨0, false, false, .none⟩
    processes := fun _ => ⟨0, fun _ => none, false⟩
    space := fun _ => true
    requests := 0
    depth := fun _ => 0
    nested := false }
  refs := fun _ _ => 0
  phase := fun _ => .running
  unlinked := fun _ => false

theorem manyFiles_initial : Initial manyFiles where
  table _ := ⟨rfl, rfl⟩
  refs _ _ := rfl
  phase _ := rfl
  unlinked _ := rfl
  free id := by
    simp only [manyFiles]
    split <;> simp [DiskInode.empty]

/-- The `n`-th file is opened, 13 by each process. -/
def openNth (n : ℕ) : Event (Fin 4) := .get (Fin.ofNat 4 (n / 13)) (fileId (n + 2))

/-- Two files are opened by one process, and each `get` has room. -/
theorem never_exhausted_manyFiles : ∃ m, Transition.run (Transition.orPanic step panics)
      (some manyFiles) [openNth 0, openNth 1] = some m ∧ m ≠ none ∧
    ∀ fs e s, fs ++ [e] <+: [openNth 0, openNth 1] →
      Transition.run (Transition.orPanic step panics) (some manyFiles) fs = some (some s) →
        HasRoom s e := by
  have h : (Transition.run (Transition.orPanic step panics) (some manyFiles)
      [openNth 0, openNth 1]).any Option.isSome = true := by
    decide +kernel
  obtain ⟨m, hm, hsome⟩ := (Option.any_eq_true _ _).mp h
  have hgoes := Option.isSome_iff_ne_none.mp hsome
  exact ⟨m, hm, hgoes, (never_exhausted_iff manyFiles_initial hm).mp hgoes⟩

/-- A file without contents and with one name. -/
def emptyFile : DiskInode := ⟨.zero, [], .file, 1⟩

/-- The root with the one entry "f", for file 60. -/
def rootWithFile : DiskInode :=
  ⟨.zero, (DirectoryEntry.mk 60 1 (102 :: List.replicate 26 0)).toBytes, .directory, 1⟩

/-- Four processes in the root have 49 files open, which fills the inode table. -/
def fullTable : Kernel (Fin 4) where
  ninodes := 200
  disk id := if id = .root then rootWithFile else emptyFile
  table h := if h = 0 then ⟨.root, 4, none, true, rootWithFile⟩
    else ⟨fileId (h + 1), 1, none, true, emptyFile⟩
  files f :=
    if h : f.val < 49 then
      ⟨1, true, false, .inode ⟨f + 1, by change f.val + 1 < 50; omega⟩ 0⟩
    else ⟨0, false, false, .none⟩
  processes p := ⟨0, fun fd =>
    if h : fd.val < 13 ∧ 13 * p.val + fd < 49 then
      some ⟨13 * p + fd, by change 13 * p.val + fd < 100; omega⟩
    else none, false⟩
  space _ := true
  requests := 0
  depth _ := 0
  nested := false

/-- The call of a process panics in `get`. -/
def outOfInodes {α : Type} (p : Fin 4) (call : Prog α) (k : Kernel (Fin 4)) : Bool :=
  match call.run (Kernel.perform p) k with
  | .stop .noInodesAvailable _ => true
  | _ => false

/-- With 50 inodes open, all within the limits of the processes and of the system, the
next `get` panics, and so does `open`. -/
theorem manyFiles_panics :
    (∃ s, Transition.run (Transition.orPanic step panics) (some manyFiles)
        ((List.range 50).map openNth) = some (some s) ∧
      (∀ p, ∑ h, s.refs p h ≤ noFile) ∧ ∑ p, ∑ h, s.refs p h ≤ nFile) ∧
    Transition.run (Transition.orPanic step panics) (some manyFiles)
      ((List.range 51).map openNth) = some none ∧
    outOfInodes 0 (SysFile.openPath (some [slash, 102]) 0) fullTable = true := by
  refine ⟨?_, ?_, by decide +kernel⟩
  · have h : (Transition.run (Transition.orPanic step panics) (some manyFiles)
        ((List.range 50).map openNth)).any (fun m => m.any fun s =>
          decide ((∀ p, ∑ h, s.refs p h ≤ noFile) ∧ ∑ p, ∑ h, s.refs p h ≤ nFile)) = true := by
      decide +kernel
    obtain ⟨m, hm, h⟩ := (Option.any_eq_true _ _).mp h
    obtain ⟨s, rfl, hs⟩ := (Option.any_eq_true _ _).mp h
    exact ⟨s, hm, of_decide_eq_true hs⟩
  · have h : (Transition.run (Transition.orPanic step panics) (some manyFiles)
        ((List.range 51).map openNth)).any Option.isNone = true := by
      decide +kernel
    obtain ⟨m, hm, hnone⟩ := (Option.any_eq_true _ _).mp h
    rw [hm, Option.isNone_iff_eq_none.mp hnone]

end Zigmaos.InodeTable
