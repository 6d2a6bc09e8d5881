import Zigmaos.CreateSafety

/-!
# Whole system calls

Every system call, started by a process that holds nothing, ends with nothing
held. For a call that runs alone the changes it makes are listed as well.
-/
namespace Zigmaos.FileSystem
open DirectoryContent Program Typestate

/-- The typestate after `beginOperation`. -/
def Local.begin (L : Local) : Local := { L with inOperation := true, log := [] }

section
variable {M : Mode} {L L₀ L' : Local} {α : Type}

theorem Local.Idle.clear (hL : L.Idle M.counted) (hz : L.zombie = false) : Clear M L.begin where
  count := hL.count
  held := hL.held
  dying := hL.dying
  fresh := hL.fresh
  pend := hL.pend
  lent := hL.lent
  cwdTaken := hL.cwdTaken.trans hz
  adopted := hL.adopted
  log := rfl

/-- The end of an operation that gave everything back. -/
theorem Local.Grows.idle (hL : L.Idle M.counted) {log : List Effect}
    (hL' : L.begin.Grows M 0 L.begin.held log L') :
    Local.Idle M.counted { L' with inOperation := false, adopted := none } where
  count h := by simpa [Local.begin, hL.count h] using hL'.count h
  held h := by rw [hL'.held]; exact hL.held h
  dying := hL'.dying.trans hL.dying
  fresh := hL'.fresh.trans hL.fresh
  pend hcnt i := by rw [hL'.pend hcnt]; exact hL.pend hcnt i
  fileRefs f := by rw [hL'.fileRefs]; exact hL.fileRefs f
  newFile := hL'.newFile.trans hL.newFile
  lent := hL'.lent.trans hL.lent
  taken := hL'.taken.trans hL.taken
  cwdTaken := hL'.cwdTaken.trans (hL.cwdTaken.trans hL'.zombie.symm)
  adopted := rfl
  inOperation := rfl

/-- The end of a call: nothing is held, and `P` holds of the changes of a call that ran alone. -/
def Ended (M : Mode) (zombie : Bool) (P : α → List Effect → Prop) (r : α) (L : Local) : Prop :=
  L.Idle M.counted ∧ L.zombie = zombie ∧ (M.alone → P r L.log)

theorem safe_inOperation {body : Prog α} {P : α → List Effect → Prop} (hL : L.Idle M.counted)
    (hbody : M.typestate.Safe body L.begin fun r L' => ∃ log,
      L.begin.Grows M 0 L.begin.held log L' ∧ (M.alone → P r log)) :
    M.typestate.Safe (SysFile.inOperation body) L (Ended M L.zombie P) := by
  refine safe_op_bind (fun _ => hL.inOperation) ?_
  rintro - - L₁ rfl
  refine hbody.bind ?_
  rintro r L₂ ⟨log, hL₂, hP⟩
  refine safe_op_bind (fun _ => hL₂.inOperation) ?_
  rintro - - L₃ rfl
  exact fun _ => ⟨hL₂.idle hL, hL₂.zombie, fun ha => by simpa [hL₂.log ha] using hP ha⟩

/-! ### `mkdir` and `mknod` -/

/-- The changes of `create`, and of the `put` of the parent after it. -/
def CreateLog (kind : InodeType) (device : DeviceId) (succeeded : Bool) (log : List Effect) : Prop :=
  ∃ parent es fs, log = es ++ fs ∧ FreedLog none parent es fs ∧
    if succeeded then es = [] ∨ NewLog parent kind device es else FailedLog parent kind device es

/-- The inodes of a list of changes whose link count was set to zero are not `i`. -/
theorem FreedLog.eq_nil {i : InodeId} {log fs : List Effect} (h : FreedLog none i log fs)
    (hlog : ∀ d, .inode i d ∈ log → d.linkCount ≠ 0) : fs = [] := by
  obtain h | ⟨⟨d, hd, hz⟩ | h, -⟩ := h
  · exact h
  · exact absurd hz (hlog d hd)
  · cases h

theorem safe_createAndPut (hL : L.Idle M.counted) (hz : L.zombie = false) {path : List UInt8}
    (hpath : M.orderly → ¬EndsInDots path) {kind : InodeType} (hkind : kind ≠ .free)
    (device : DeviceId) :
    M.typestate.Safe (SysFile.createAndPut path kind device) L
      (Ended M L.zombie fun r log => ∃ log' i fs, log = log' ++ fs ∧
        CreateLog kind device r log' ∧ FreedLog none i log' fs) := by
  have hC := hL.clear hz
  refine safe_inOperation hL ((safe_create hC hpath hkind device).bind ?_)
  rintro (err | c) L₁ hr
  · obtain ⟨parent, es, fs, hL₁, hes⟩ := hr
    refine fun _ => ⟨_, hL₁, fun ha => ⟨es ++ fs, .root, [], by simp, ?_, .inl rfl⟩⟩
    exact ⟨parent, es, fs, rfl, (hes ha).2, by simpa using (hes ha).1⟩
  · obtain ⟨parent, dc, es, fs, hL₁, -, -, hes⟩ := hr
    refine (safe_releasePut (c := 0) hC.tidy (by simpa using hL₁) (by simp)).bind ?_
    rintro - L₂ ⟨fs', hL₂, hfs', -⟩
    rw [update_update_none (hC.held c)] at hL₂
    rw [hC.adopted] at hfs'
    refine fun _ => ⟨_, hL₂, fun ha => ⟨es ++ fs, _, fs', rfl, ?_, hfs' ha⟩⟩
    exact ⟨parent, es, fs, rfl, (hes ha).2, by simpa using (hes ha).1⟩

/-! ### `open` -/

/-- What `openInode` leaves: the inode locked, or nothing. -/
def InodeOpened (M : Mode) (L₀ : Local) (mode : SysFile.OpenMode) :
    Except SysFile.OpenError Handle → Local → Prop
  | .error _, L' => ∃ log, L₀.Grows M 0 L₀.held log L' ∧
      (M.alone → log = [] ∨ mode.create = true ∧ CreateLog .file ⟨0, 0⟩ false log)
  | .ok c, L' => ∃ d log, L₀.Grows M (Pi.single c 1) (Function.update L₀.held c (some d)) log L' ∧
      d.type ≠ .free ∧ (M.alone → log = [] ∨ mode.create = true ∧ CreateLog .file ⟨0, 0⟩ true log)

theorem safe_openInode {L₀ : Local} (hL₀ : Clear M L₀) {path : List UInt8}
    {mode : SysFile.OpenMode} (hpath : M.orderly → mode.create = true → ¬EndsInDots path) :
    M.typestate.Safe (SysFile.openInode path mode) L₀ (InodeOpened M L₀ mode) := by
  unfold SysFile.openInode
  split
  next hcreate =>
    refine (safe_create hL₀ (fun ho => hpath ho hcreate) (by decide) _).bind ?_
    rintro (err | c) L₁ hr
    · obtain ⟨parent, es, fs, hL₁, hes⟩ := hr
      refine fun _ => ⟨_, hL₁, fun ha => .inr ⟨hcreate, parent, es, fs, rfl, (hes ha).2, ?_⟩⟩
      simpa using (hes ha).1
    · obtain ⟨parent, dc, es, fs, hL₁, hfree, -, hes⟩ := hr
      refine fun _ => ⟨dc, _, hL₁, hfree, fun ha => .inr ⟨hcreate, parent, es, fs, rfl, (hes ha).2, ?_⟩⟩
      simpa using (hes ha).1
  next hcreate =>
    refine (safe_resolvePath hL₀.tidy hL₀.held hL₀.fresh hL₀.cwdTaken path).bind ?_
    rintro (_ | c) L₁ hL₁
    · exact fun _ => ⟨_, hL₁, fun _ => .inl hL₀.log⟩
    · have hL₁ : L₀.Grows M (Pi.single c 1) L₀.held L₀.log L₁ := hL₁
      have hc : 0 < L₁.count c := by simp [hL₁.count c]
      refine safe_op_bind (fun _ => ⟨hc, hL₁.dying.trans hL₀.dying, fun _ g d hg => ?_⟩) ?_
      · rw [hL₁.held, hL₀.held g] at hg
        cases hg
      rintro - - L₂ ⟨d, rfl, -, hfree, hkinds, -⟩
      have hL₂ := hL₁.acquire (d := d) hkinds fun f hf => by rw [hL₀.fresh] at hf; cases hf
      have hd : (L₁.acquire c d).held c = some d := by simp [Local.acquire]
      refine safe_diskInode hd ?_
      split
      · refine (safe_releasePut (c := 0) hL₀.tidy (by simpa using hL₂) (by simp)).bind ?_
        rintro - L₃ ⟨fs, hL₃, hfs, -⟩
        rw [update_update_none (hL₀.held c)] at hL₃
        rw [hL₀.adopted] at hfs
        refine fun _ => ⟨_, hL₃, fun ha => .inl ?_⟩
        rw [hL₀.log] at hfs ⊢
        simpa using (hfs ha).eq_nil (by simp)
      · exact fun _ => ⟨d, _, hL₂, hfree, fun _ => .inl hL₀.log⟩

/-- What `openFile` adds to the changes: nothing but the freed inode where it
fails, and a file and a descriptor where it succeeds. -/
def OpenFileLog (log : List Effect) : Except SysFile.OpenError FileDescriptor → List Effect → Prop
  | .error _, es => ∃ i, FreedLog none i log es
  | .ok _, es => ∃ ts, es = [.files, .files] ++ ts ++ [.process] ∧
      (ts = [] ∨ ∃ i, ts = [.truncate i])

/-- The end of `openFile`. -/
def openFileEnd (inode : Handle) (file : FileIndex) :
    Prog (Except SysFile.OpenError FileDescriptor) := do
  match ← invoke (.fileDescriptorAllocate file) with
  | none =>
    File.close file
    invoke (.release inode)
    Inode.put inode
    return .error .outOfSpace
  | some fd =>
    invoke (.release inode)
    return .ok fd

theorem safe_openFile {L₀ : Local} (hL₀ : Clear M L₀) (hnew : L₀.newFile = none)
    (htaken : L₀.taken = none) {c : Handle} {d : DiskInode} {log : List Effect} {L : Local}
    (hL : L₀.Grows M (Pi.single c 1) (Function.update L₀.held c (some d)) log L)
    (mode : SysFile.OpenMode) :
    M.typestate.Safe (SysFile.openFile c mode) L fun r L' => ∃ es,
      L₀.Grows M 0 L₀.held (log ++ es) L' ∧ (M.alone → OpenFileLog log r es) := by
  have hd : L.held c = some d := by simp [hL.held]
  have hc : L.count c = 1 := by simp [hL.count c, hL₀.count c]
  have hdying := hL.dying.trans hL₀.dying
  have hgive : ∀ e, M.typestate.Safe (do
      invoke (.release c)
      Inode.put c
      return .error e : Prog (Except SysFile.OpenError FileDescriptor)) L fun r L' => ∃ es,
      L₀.Grows M 0 L₀.held (log ++ es) L' ∧ (M.alone → OpenFileLog log r es) := by
    intro e
    have := safe_releasePut (c := 0) hL₀.tidy (by simpa using hL) (h := c) (by simp)
    unfold Inode.releasePut at this
    rw [← bind_assoc]
    refine this.bind ?_
    rintro - L₁ ⟨fs, hL₁, hfs, -⟩
    rw [update_update_none (hL₀.held c)] at hL₁
    rw [hL₀.adopted] at hfs
    exact fun _ => ⟨fs, hL₁, fun ha => ⟨_, hfs ha⟩⟩
  refine safe_diskInode hd ?_
  split
  · exact hgive _
  refine safe_op_bind (fun _ => hL.newFile.trans hnew) ?_
  rintro - (_ | f) L₁ hr
  · obtain rfl : L₁ = L := hr
    exact hgive _
  obtain rfl : L₁ = _ := hr
  have hdata : (if d.type = .device then FileData.device c d.device else .inode c 0).inode? = some c := by
    split <;> rfl
  refine safe_op_bind (fun _ => ⟨rfl, hL.lent.trans hL₀.lent, c, hdata, by simp [hc], by simp [hd],
    hL.fresh.trans hL₀.fresh, ?_, hdying⟩) ?_
  · intro hcnt
    have : L₀.pend (L.id c) = 0 := hL₀.pend hcnt _
    rw [← hL.pend hcnt] at this
    exact this
  rintro - - L₂ ⟨c', hc', rfl⟩
  obtain rfl : c = c' := Option.some.inj (hdata.symm.trans hc')
  -- the descriptor takes the file, whether or not the inode has been truncated
  have htail : ∀ d' ts L₃, L₃ = { L with
        count := Function.update L.count c 0
        held := Function.update L₀.held c (some d')
        fileRefs := Function.update L.fileRefs f (L.fileRefs f + 1)
        newFile := none
        lent := some c
        log := L₃.log } → (M.alone → L₃.log = log ++ [.files, .files] ++ ts) →
      (ts = [] ∨ ∃ i, ts = [.truncate i]) →
      M.typestate.Safe (openFileEnd c f) L₃ fun r L' => ∃ es,
        L₀.Grows M 0 L₀.held (log ++ es) L' ∧ (M.alone → OpenFileLog log r es) := by
    intro d' ts L₃ hL₃ hlog hts
    refine safe_op_bind (fun _ => ⟨by rw [hL₃]; simp, by rw [hL₃], by rw [hL₃]; exact hL.taken.trans htaken⟩) ?_
    rintro - (_ | fd) L₄ ⟨hne, hL₄⟩
    · exact absurd rfl hne
    refine safe_op_bind (fun _ => ⟨by rw [hL₄, hL₃]; simp, by rw [hL₄, hL₃]; exact hdying⟩) ?_
    rintro - - L₅ rfl
    refine fun _ => ⟨[.files, .files] ++ ts ++ [.process], ?_, fun _ => ⟨ts, rfl, hts⟩⟩
    subst hL₄
    rw [hL₃]
    exact {
      count := fun g => by
        by_cases hg : g = c
        · subst hg
          simp [Local.unlock, hL₀.count g]
        · simp [Local.unlock, hg, hL.count g]
      id := fun g hg => absurd (hL₀.count g) hg.ne'
      kind := fun g k hg => absurd (hL₀.count g) hg.ne'
      held := by simp [Local.unlock, update_update_none (hL₀.held c)]
      dying := hL.dying
      fresh := hL.fresh
      pend := hL.pend
      fileRefs := by simp [Local.unlock, hL.fileRefs]
      newFile := hnew.symm
      lent := by simp [Local.unlock, hL₀.lent]
      taken := hL.taken
      cwdTaken := hL.cwdTaken
      adopted := hL.adopted
      zombie := hL.zombie
      inOperation := hL.inOperation
      log := fun ha => by simp [Local.unlock, hlog ha] }
  refine Safe.bind (Q := fun _ L₃ => ∃ d' ts, L₃ = { L with
        count := Function.update L.count c 0
        held := Function.update L₀.held c (some d')
        fileRefs := Function.update L.fileRefs f (L.fileRefs f + 1)
        newFile := none
        lent := some c
        log := L₃.log } ∧ (M.alone → L₃.log = log ++ [.files, .files] ++ ts) ∧
      (ts = [] ∨ ∃ i, ts = [.truncate i])) (safe_when (fun htrunc => ?_) fun _ _ => ?_) ?_
  · refine safe_op (fun _ => ⟨d, hd, .inr ⟨hdying, htrunc.2⟩⟩) ?_
    rintro - - L₃ ⟨d', hd', rfl⟩ -
    obtain rfl : d = d' := Option.some.inj (hd.symm.trans hd')
    refine ⟨{ d with content := [] }, [.truncate (L.id c)], ?_, fun ha => ?_, .inr ⟨_, rfl⟩⟩
    · simp [Local.setHeld, Local.dropRef, hc, hL.held, hL.fresh, hL₀.fresh]
    · simp [Local.setHeld, Local.dropRef, hL.log ha]
  · refine ⟨d, [], ?_, fun ha => ?_, .inl rfl⟩
    · simp [Local.dropRef, hc, hL.held, hL.fresh, hL₀.fresh]
    · simp [hL.log ha]
  · rintro - L₃ ⟨d', ts, hL₃, hlog, hts⟩
    exact htail d' ts L₃ hL₃ hlog hts

/-- No inode that the clean-up of a failed `create` changes is the parent. -/
theorem FailedLog.inode_ne {parent : InodeId} {kind : InodeType} {device : DeviceId}
    {es : List Effect} (h : FailedLog parent kind device es) {d : DiskInode} :
    Effect.inode parent d ∉ es := by
  obtain rfl | ⟨id, fs, d₀, d₁, hne, ⟨dots, attempts, rfl, hdots, -, hatt⟩, -, rfl⟩ := h
  · simp
  · have hd : Effect.inode parent d ∉ dots := by
      intro hd
      obtain ⟨offset, -, h | ⟨content, h⟩⟩ := hdots _ hd <;> cases h
    have ha : Effect.inode parent d ∉ attempts := by
      obtain rfl | ⟨offset, rfl⟩ := hatt <;> simp
    simp [hne.symm, hd, ha]

/-- A new inode that is not a directory comes with one entry in its parent. -/
theorem NewLog.eq {parent : InodeId} {kind : InodeType} {device : DeviceId} {es : List Effect}
    (h : NewLog parent kind device es) (hkind : kind ≠ .directory) :
    ∃ id offset content, id ≠ parent ∧
      es = [.alloc id kind, .inode id ⟨device, [], kind, 1⟩, .entry parent offset content] := by
  obtain ⟨id, fs, hne, ⟨dots, offset, content, counts, rfl, -, hnil, -⟩, rfl⟩ := h
  obtain ⟨rfl, rfl⟩ := hnil hkind
  exact ⟨id, offset, content, hne, rfl⟩

theorem CreateLog.file {device : DeviceId} {succeeded : Bool} {log : List Effect}
    (h : CreateLog .file device succeeded log) : ∃ parent,
    if succeeded then log = [] ∨ NewLog parent .file device log
    else FailedLog parent .file device log := by
  obtain ⟨parent, es, fs, rfl, hfs, hes⟩ := h
  refine ⟨parent, ?_⟩
  cases succeeded with
  | false =>
    simp only [Bool.false_eq_true, if_false] at hes ⊢
    have : fs = [] := hfs.eq_nil fun d hd => absurd hd hes.inode_ne
    simpa [this] using hes
  | true =>
    simp only [if_true] at hes ⊢
    have : fs = [] := by
      obtain rfl | hnew := hes
      · exact hfs.eq_nil (by simp)
      · obtain ⟨id, offset, content, hne, rfl⟩ := hnew.eq (by decide)
        exact hfs.eq_nil fun d hd => by simp [hne.symm] at hd
    simpa [this] using hes

/-- The changes of `open`: where it fails at most those of a `create` that
failed or made a new file. -/
def OpenLog (mode : SysFile.OpenMode) (r : Except SysFile.OpenError FileDescriptor)
    (log : List Effect) : Prop :=
  ∃ es fs, log = es ++ fs ∧
    (es = [] ∨ mode.create = true ∧ ∃ parent,
      NewLog parent .file ⟨0, 0⟩ es ∨ FailedLog parent .file ⟨0, 0⟩ es ∧ ∃ e, r = .error e) ∧
    match r with
    | .error _ => fs = []
    | .ok _ => ∃ ts, fs = [.files, .files] ++ ts ++ [.process] ∧ (ts = [] ∨ ∃ i, ts = [.truncate i])

theorem safe_openPath (hL : L.Idle M.counted) (hz : L.zombie = false)
    (hlog : M.alone → L.log = []) {path : Option (List UInt8)} {mode : ℕ}
    (hpath : M.orderly → ∀ p m, path = some p → SysFile.OpenMode.fromUsize mode = .ok m →
      m.create = true → ¬EndsInDots p) :
    M.typestate.Safe (SysFile.openPath path mode) L (Ended M L.zombie fun r log =>
      (log = [] ∧ ∃ e, r = .error e) ∨
        ∃ m, SysFile.OpenMode.fromUsize mode = .ok m ∧ OpenLog m r log) := by
  have hnone : ∀ e, M.typestate.Safe
      (pure (.error e) : Prog (Except SysFile.OpenError FileDescriptor)) L
      (Ended M L.zombie fun r log => (log = [] ∧ ∃ e, r = .error e) ∨
        ∃ m, SysFile.OpenMode.fromUsize mode = .ok m ∧ OpenLog m r log) := by
    exact fun e _ => ⟨hL, rfl, fun ha => .inl ⟨hlog ha, e, rfl⟩⟩
  unfold SysFile.openPath
  cases path with
  | none => exact hnone _
  | some path =>
    simp only
    split
    next e he => exact hnone e
    next m hm =>
      have hC := hL.clear hz
      refine safe_inOperation hL ((safe_openInode hC fun ho hc => hpath ho path m rfl hm hc).bind ?_)
      rintro (e | c) L₁ hr
      · obtain ⟨log, hL₁, hlog₁⟩ := hr
        refine fun _ => ⟨log, hL₁, fun ha => .inr ⟨m, hm, log, [], by simp, ?_, rfl⟩⟩
        obtain h | ⟨hc, h⟩ := hlog₁ ha
        · exact .inl h
        · obtain ⟨parent, h⟩ := h.file
          exact .inr ⟨hc, parent, .inr ⟨by simpa using h, e, rfl⟩⟩
      · obtain ⟨d, log, hL₁, -, hlog₁⟩ := hr
        refine (safe_openFile hC hL.newFile hL.taken hL₁ m).mono ?_
        rintro r L₂ - ⟨es, hL₂, hes⟩
        refine ⟨_, hL₂, fun ha => .inr ⟨m, hm, log, es, rfl, ?_, ?_⟩⟩
        · obtain h | ⟨hc, h⟩ := hlog₁ ha
          · exact .inl h
          · obtain ⟨parent, h⟩ := h.file
            obtain h | h : log = [] ∨ NewLog parent .file ⟨0, 0⟩ log := by simpa using h
            · exact .inl h
            · exact .inr ⟨hc, parent, .inl h⟩
        · have hes := hes ha
          cases r with
          | ok fd => exact hes
          | error e =>
            obtain ⟨i, hes⟩ := hes
            refine hes.eq_nil fun d hd => ?_
            obtain rfl | ⟨-, h⟩ := hlog₁ ha
            · cases hd
            · obtain ⟨parent, h⟩ := h.file
              obtain rfl | h : log = [] ∨ NewLog parent .file ⟨0, 0⟩ log := by simpa using h
              · cases hd
              · obtain ⟨id, offset, content, -, rfl⟩ := h.eq (by decide)
                have : d = ⟨⟨0, 0⟩, [], .file, 1⟩ := by simp at hd; exact hd.2
                simp [this]

/-! ### Changes of one inode -/

/-- The inodes and directory entries that a change is confined to. -/
def Effect.Within (ids : List InodeId) (entries : List (InodeId × ℕ)) : Effect → Prop
  | .alloc i _ | .inode i _ | .truncate i => i ∈ ids
  | .entry i offset _ | .attempt i offset => i ∈ ids ∧ (i, offset) ∈ entries
  | .files | .process => True

theorem Effect.Within.mono {ids ids' : List InodeId} {entries : List (InodeId × ℕ)} {e : Effect}
    (h : e.Within ids entries) (hids : ids ⊆ ids') : e.Within ids' entries := by
  cases e with
  | alloc | inode | truncate => exact hids h
  | entry | attempt => exact ⟨hids h.1, h.2⟩
  | files | process => trivial

theorem FreedLog.within {i : InodeId} {adopted : Option InodeId} {log fs : List Effect}
    (h : FreedLog adopted i log fs) {ids : List InodeId} {entries : List (InodeId × ℕ)}
    (hi : i ∈ ids) : ∀ e ∈ fs, e.Within ids entries := by
  obtain rfl | ⟨-, d, rfl⟩ := h
  · simp
  · simp [Effect.Within, hi]

namespace Local

/-- The same typestate with other pending link counts. -/
def withPend (L : Local) (q : InodeId → ℤ) : Local := { L with pend := q }

variable {c : Handle → ℕ} {held : Handle → Option DiskInode} {log : List Effect} {h : Handle}
  {d d' : DiskInode} {q : InodeId → ℤ}

theorem Grows.withPend (hL : Grows M L₀ c held log L) (q : InodeId → ℤ) :
    Grows M (L₀.withPend q) c held log (L.withPend q) :=
  { hL with pend := fun _ => rfl }

theorem Grows.of_withPend (hL : Grows M (L₀.withPend q) c held log L)
    (hq : M.counted → q = L₀.pend) : Grows M L₀ c held log L :=
  { hL with pend := fun hcnt => (hL.pend hcnt).trans (hq hcnt) }

theorem Grows.setInode (hL : Grows M L₀ c held log L)
    (hq : M.counted → (L.setInode h d d').pend = q) :
    Grows M (L₀.withPend q) c (Function.update held h (some d'))
      (log ++ [.inode (L.id h) d']) (L.setInode h d d') :=
  { hL with
    held := by simp [Local.setInode, Local.setHeld, hL.held]
    pend := hq
    log := fun ha => by simp [Local.setInode, Local.setHeld, hL.log ha] }

theorem Grows.enter {j : ℕ} {e : DirectoryEntry} (types : InodeId → InodeType)
    (hL : Grows M L₀ c held log L) (hfresh : L₀.fresh = none)
    (hq : M.counted → (L.enter h d j e types).pend = q) :
    Grows M (L₀.withPend q) c
      (Function.update held h (some { d with content := splice d.content (entrySize * j) e.toBytes }))
      (log ++ [.entry (L.id h) (entrySize * j) (splice d.content (entrySize * j) e.toBytes)])
      (L.enter h d j e types) :=
  { hL with
    held := by simp [Local.enter, Local.setHeld, hL.held]
    fresh := by simp [Local.enter, Local.withPend, hL.fresh, hfresh]
    pend := hq
    log := fun ha => by simp [Local.enter, Local.setHeld, hL.log ha] }

end Local

theorem Local.Tidy.withPend_zero (hT : L.Tidy M) : (L.withPend 0).Tidy M :=
  { hT with pend := fun _ _ hi => absurd rfl hi }

/-! ### `link` -/

/-- Where `link` has counted the new link of the inode at `c` and entered it nowhere. -/
structure Linking (M : Mode) (B : Local) (c : Handle) : Prop where
  tidy : B.Tidy M
  held : ∀ g, B.held g = none
  fresh : B.fresh = none
  cwdTaken : B.cwdTaken = false
  adopted : B.adopted = none
  count : 0 < B.count c
  kind : ∃ k, B.kind c = some k ∧ k ≠ .directory
  pend : M.counted → B.pend = Function.update (0 : InodeId → ℤ) (B.id c) 1

/-- What `linkInParent` leaves; the inode is entered in directory `p`, or it is not. -/
def InParent (M : Mode) (B : Local) : Except SysFile.LinkError Unit → Local → Prop
  | r, L' => ∃ p offset es, (M.alone → ∀ e ∈ es, e.Within [p] [(p, offset)]) ∧
      match r with
      | .error _ => B.Grows M 0 B.held (B.log ++ es) L'
      | .ok _ => (B.withPend 0).Grows M 0 B.held (B.log ++ es) L'

theorem safe_linkInParent {B : Local} {c : Handle} (hB : Linking M B c) (path : List UInt8) :
    M.typestate.Safe (SysFile.linkInParent c path) B (InParent M B) := by
  unfold SysFile.linkInParent
  refine (safe_resolvePathHelper hB.tidy hB.held hB.fresh hB.cwdTaken path).bind ?_
  rintro (_ | ⟨p, name⟩) L₁ hL₁
  · have hL₁ : B.Grows M 0 B.held B.log L₁ := hL₁
    exact fun _ => ⟨.root, 0, [], by simp, by simpa using hL₁⟩
  obtain ⟨hL₁, -⟩ := hL₁
  have hp : 0 < L₁.count p := by simp [hL₁.count p]
  have hc : 0 < L₁.count c := by
    have := hB.count
    rw [hL₁.count c]
    omega
  refine safe_op_bind (fun _ => ⟨hp, hL₁.dying.trans hB.tidy.dying, fun _ g d hg => ?_⟩) ?_
  · rw [hL₁.held, hB.held g] at hg
    cases hg
  rintro - - L₂ ⟨dp, rfl, -, hfree, hkinds, -⟩
  have hL₂ := hL₁.acquire hkinds fun f hf => by rw [hB.fresh] at hf; cases hf
  have hheld : (L₁.acquire p dp).held p = some dp := by simp [Local.acquire]
  -- whatever has been changed, the lock and the reference of the parent are given up
  have hgive : ∀ {β : Type} {Q : β → Local → Prop} {f : Unit → Prog β} {B' L₃ : Local}
      {o : Option DiskInode} {log : List Effect},
      B'.Tidy M → B'.adopted = none → o ≠ none →
      B'.Grows M (Pi.single p 1) (Function.update B.held p o) log L₃ →
      (∀ L₄ fs, (M.alone → FreedLog none (L₃.id p) log fs) → B'.Grows M 0 B.held (log ++ fs) L₄ →
        M.typestate.Safe (f ()) L₄ Q) →
      M.typestate.Safe (Inode.releasePut p >>= f) L₃ Q := by
    intro β Q f B' L₃ o log hT had ho hL₃ hf
    refine (safe_releasePut (c := 0) hT (by simpa using hL₃) (by simp [ho])).bind ?_
    rintro - L₄ ⟨fs, hL₄, hfs, -⟩
    rw [update_update_none (hB.held p)] at hL₄
    exact hf L₄ fs (had ▸ hfs) hL₄
  refine safe_identify (by simpa [Local.acquire] using hp)
    (safe_identify (by simpa [Local.acquire] using hc) ?_)
  split
  · refine hgive hB.tidy hB.adopted (by simp) hL₂ fun L₄ fs hfs hL₄ _ => ?_
    exact ⟨(L₁.acquire p dp).id p, 0, fs, fun ha => (hfs ha).within (by simp), hL₄⟩
  next hdev =>
  refine (safe_init (Q := fun _ L' => L' = L₁.acquire p dp ∧ dp.type = .directory) hheld
    fun hdir => ⟨rfl, hdir⟩).bind ?_
  rintro - L₂ ⟨rfl, hdir⟩
  obtain ⟨k, hk, hkd⟩ := hB.kind
  have hkc : (L₁.acquire p dp).kind c = some k := hL₂.kind c k hB.count hk
  have hpc : p ≠ c := by
    rintro rfl
    have : (L₁.acquire p dp).kind p = some dp.type := by simp [Local.acquire]
    rw [this] at hkc
    cases hkc
    exact hkd hdir
  have hT₂ : (L₁.acquire p dp).Tidy M := by
    refine ⟨fun g hg => ?_, hL₂.dying.trans hB.tidy.dying, hL₂.lent.trans hB.tidy.lent,
      fun f hf => ?_, fun hcnt i hi => ?_, fun ha i hi => ?_⟩
    · by_cases hgp : g = p
      · subst hgp
        exact hp
      · rw [hL₂.held, Function.update_of_ne hgp] at hg
        exact absurd (hB.held g) hg
    · rw [hL₂.fresh, hB.fresh] at hf
      cases hf
    · rw [hL₂.pend hcnt] at hi
      exact hL₂.owns (hB.tidy.pend hcnt i hi)
    · refine hL₂.owns (hB.tidy.mayFree ha i ?_)
      obtain ⟨d, hd, hz⟩ | had := hi
      · exact .inl ⟨d, by rwa [hL₂.log ha] at hd, hz⟩
      · exact .inr (hL₂.adopted ▸ had)
  -- a directory has "." and ".." already
  have hdots : M.counted → (∀ j, j < slotCount dp.content → (slot dp.content j).inodeNumber ≠ 0 →
      (slot dp.content j).nameSlice ≠ name) → M.Fact (L₁.acquire p dp) → ¬IsDots name := by
    intro hcnt hnone hf hn
    have hform := hf.dotForm hcnt p dp hheld hdir
      (fun f hf => by rw [hL₂.fresh, hB.fresh] at hf; cases hf)
      (by rw [hL₂.dying, hB.tidy.dying]; exact (by simp))
    have htwo := hform.two
    obtain rfl | rfl := hn
    · exact hnone 0 (by omega) hform.dot_live hform.dot_name
    · exact hnone 1 (by omega) hform.dotDot_live hform.dotDot_name
  have hne : M.Fact (L₁.acquire p dp) → (L₁.acquire p dp).id p ≠ (L₁.acquire p dp).id c :=
    fun hf heq => hpc (hf.unique p c hp hc heq)
  have hidc : (L₁.acquire p dp).id c = B.id c := hL₂.id c hB.count
  refine safe_of_fact fun hf => (safe_linkEntry (k := k) hT₂ hheld hdir hp hc ?_ hkc
    (fun _ h => absurd h hkd) fun hcnt hnone hf => ?_).bind ?_
  · rw [not_not.mp hdev]
  · refine ⟨fun h => absurd (.inl h) (hdots hcnt hnone hf),
      fun h => absurd h (hdots hcnt hnone hf), fun _ => ⟨?_, fun h => ?_⟩⟩
    · rw [hL₂.pend hcnt, hB.pend hcnt, ← hidc, Function.update_of_ne (hne hf), Pi.zero_apply]
    · rw [hkc] at h
      cases h
      exact absurd rfl hkd
  · rintro (err | ⟨⟩) L₃ hr
    · obtain ⟨log, hL₃, hlog⟩ := hr
      have hL₃' := hL₂.trans hL₃
      rw [add_zero, hL₂.held] at hL₃'
      refine hgive hB.tidy hB.adopted (by simp) hL₃' fun L₄ fs hfs hL₄ => ?_
      rw [hL₃.id p hp] at hfs
      obtain rfl | ⟨j, -, rfl⟩ := hlog
      · exact fun _ => ⟨(L₁.acquire p dp).id p, 0, fs, fun ha => (hfs ha).within (by simp),
          hL₄.log_congr fun ha => by rw [hL₂.log ha]⟩
      · refine fun _ => ⟨(L₁.acquire p dp).id p, entrySize * j,
          .attempt ((L₁.acquire p dp).id p) (entrySize * j) :: fs, fun ha => ?_,
          hL₄.log_congr fun ha => ?_⟩
        · exact List.forall_mem_cons.mpr ⟨by simp [Effect.Within], (hfs ha).within (by simp)⟩
        · rw [hL₂.log ha, List.append_assoc, List.singleton_append]
    · obtain ⟨j, e, types, -, -, -, hnone, hdead, -, hname, hnumber, htypes, rfl⟩ := hr
      have hL₃ := Local.Grows.enter (h := p) (d := dp) (j := j) (e := e) (q := 0) types hL₂
        hB.fresh fun hcnt => ?_
      · rw [Function.update_idem] at hL₃
        refine hgive hB.tidy.withPend_zero hB.adopted (by simp) hL₃ fun L₄ fs hfs hL₄ _ => ?_
        refine ⟨(L₁.acquire p dp).id p, entrySize * j, .entry ((L₁.acquire p dp).id p) (entrySize * j)
          (splice dp.content (entrySize * j) e.toBytes) :: fs, fun ha => ?_,
          hL₄.log_congr fun ha => ?_⟩
        · exact List.forall_mem_cons.mpr ⟨by simp [Effect.Within], (hfs ha).within (by simp [Local.enter, Local.setHeld])⟩
        · rw [List.append_assoc, List.singleton_append]
      · have hnd := hdots hcnt hnone hf
        have hidc' : (⟨((L₁.acquire p dp).id p).device, e.inodeNumber⟩ : InodeId) = B.id c := by
          rw [hnumber, not_not.mp hdev, ← hidc]
        have htype : types (B.id c) ≠ .directory := by
          rw [← hidc, htypes c k hc hkc]
          exact hkd
        have hlive : e.inodeNumber ≠ 0 := by
          rw [hnumber]
          exact (hf.number c hc).1.ne'
        funext i
        simp only [Local.enter, hL₂.pend hcnt, hB.pend hcnt]
        rw [Making.entryDemand_of_dots fun h => absurd (Making.slotOrEmpty_dead hdead) h]
        simp only [entryDemand, hidc', hname, hnd, htype, Function.update_apply]
        by_cases hi : i = B.id c <;> simp [hi, hlive]

/-- Change the link count of the locked inode at `c` and unlock it. -/
theorem safe_recount {β : Type} {Q : β → Local → Prop} {B L : Local} {c : Handle}
    {cs : Handle → ℕ} {d : DiskInode} {log : List Effect} {f : ℕ → ℕ} {k : Unit → Prog β}
    (hdying : B.dying = none) (hlent : B.lent = none) (hheld : ∀ g, B.held g = none)
    (hL : B.Grows M cs (Function.update B.held c (some d)) log L)
    (hk : ∀ q L', (M.counted → L.pend (L.id c) ≤ d.linkCount) →
      (M.counted → d.linkCount = 65535 → f d.linkCount ≠ 0) →
      q = Function.update B.pend (L.id c) (B.pend (L.id c) + (f d.linkCount - d.linkCount : ℤ)) →
      (B.withPend q).Grows M cs B.held
        (log ++ [.inode (L.id c) { d with linkCount := f d.linkCount }]) L' →
      L'.kind = L.kind → L'.id = L.id → M.typestate.Safe (k ()) L' Q) :
    M.typestate.Safe (do
      Inode.setLinkCount c f
      let u ← invoke (.release c)
      k u) L Q := by
  have hd : L.held c = some d := by simp [hL.held]
  refine safe_of_fact fun hf => (safe_setLinkCount (Q := fun _ L' =>
      L' = L.setInode c d { d with linkCount := f d.linkCount } ∧
      (M.counted → d.linkCount = 65535 → f d.linkCount ≠ 0)) hd (hL.dying.trans hdying)
    fun h => ⟨rfl, h⟩).bind ?_
  rintro - L₁ ⟨rfl, hwrap⟩
  have hq : M.counted → (L.setInode c d { d with linkCount := f d.linkCount }).pend =
      Function.update B.pend (L.id c) (B.pend (L.id c) + (f d.linkCount - d.linkCount : ℤ)) := by
    intro hcnt
    simp [Local.setInode, hL.pend hcnt]
  have hL₁ := hL.setInode hq
  rw [Function.update_idem] at hL₁
  refine safe_op_bind (fun _ => ⟨by simp [Local.setInode, Local.setHeld],
    hL₁.dying.trans hdying⟩) ?_
  rintro - - L₂ rfl
  have hL₂ := hL₁.unlock (h := c) hlent
  rw [update_update_none (hheld c)] at hL₂
  exact hk _ _ (fun hcnt => hf.pend_le hcnt c d hd) hwrap rfl hL₂ rfl rfl

theorem increment16_sub {n : ℕ} (h : n = 65535 → increment16 n ≠ 0) :
    (increment16 n - n : ℤ) = 1 := by
  unfold increment16 at *
  split at h
  next hn => exact absurd rfl (h hn)
  next hn =>
    rw [if_neg hn]
    push_cast
    omega

theorem decrement16_sub {n : ℕ} (h : (1 : ℤ) ≤ n) : (decrement16 n - n : ℤ) = -1 := by
  unfold decrement16
  rw [if_neg (by omega)]
  omega

theorem safe_linkPaths {L₀ : Local} (hL₀ : Clear M L₀) (old new : List UInt8) :
    M.typestate.Safe (SysFile.linkPaths old new) L₀ fun _ L' => ∃ log,
      L₀.Grows M 0 L₀.held log L' ∧
      (M.alone → ∃ c p offset, ∀ e ∈ log, e.Within [c, p] [(p, offset)]) := by
  have hT := hL₀.tidy
  unfold SysFile.linkPaths
  refine (safe_resolvePath hT hL₀.held hL₀.fresh hL₀.cwdTaken old).bind ?_
  rintro (_ | c) L₁ hL₁
  · exact fun _ => ⟨_, hL₁, fun _ => ⟨.root, .root, 0, by simp [hL₀.log]⟩⟩
  have hL₁ : L₀.Grows M (Pi.single c 1) L₀.held L₀.log L₁ := hL₁
  have hc : 0 < L₁.count c := by simp [hL₁.count c]
  -- the reference is given up at the end, with the changes so far
  have hend : ∀ {α : Type} {r : α} {L₂ : Local} {log : List Effect} (p : InodeId) (offset : ℕ),
      L₀.Grows M (Pi.single c 1) L₀.held log L₂ →
      (M.alone → ∀ e ∈ log, e.Within [L₂.id c, p] [(p, offset)]) →
      M.typestate.Safe (do
        Inode.put c
        return r : Prog α) L₂ fun _ L' => ∃ log, L₀.Grows M 0 L₀.held log L' ∧
          (M.alone → ∃ c p offset, ∀ e ∈ log, e.Within [c, p] [(p, offset)]) := by
    intro α r L₂ log p offset hL₂ hlog
    refine (safe_put_grows (c := 0) hT (by simpa using hL₂) fun h => absurd (hL₀.held c) h).bind ?_
    rintro - L₃ ⟨fs, hL₃, hfs, -⟩
    refine fun _ => ⟨_, hL₃, fun ha => ⟨L₂.id c, p, offset, fun e he => ?_⟩⟩
    obtain he | he := List.mem_append.mp he
    · exact hlog ha e he
    · exact (hfs ha).within (by simp) e he
  refine safe_op_bind (fun _ => ⟨hc, hL₁.dying.trans hL₀.dying, fun _ g d hg => ?_⟩) ?_
  · rw [hL₁.held, hL₀.held g] at hg
    cases hg
  rintro - - L₂ ⟨d, rfl, -, -, hkinds, -⟩
  have hL₂ := hL₁.acquire (d := d) hkinds fun f hf => by rw [hL₀.fresh] at hf; cases hf
  have hd : (L₁.acquire c d).held c = some d := by simp [Local.acquire]
  refine safe_diskInode hd ?_
  split
  · refine safe_op_bind (fun _ => ⟨by simp [hd], hL₂.dying.trans hL₀.dying⟩) ?_
    rintro - - L₃ rfl
    have hL₃ := hL₂.unlock (h := c) hL₀.lent
    rw [update_update_none (hL₀.held c), hL₀.log] at hL₃
    exact hend .root 0 hL₃ (by simp)
  next hkd =>
  refine safe_recount hL₀.dying hL₀.lent hL₀.held hL₂ fun q B _ hwrap hq hB hkind hid => ?_
  have hidB : B.id c = L₁.id c := by rw [hid]; rfl
  have hone : M.counted → q = Function.update (0 : InodeId → ℤ) (B.id c) 1 := by
    intro hcnt
    have hzero : L₀.pend = 0 := funext (hL₀.pend hcnt)
    rw [hq, hzero, increment16_sub (hwrap hcnt), hid]
    rfl
  have hlogB : M.alone → B.log = [.inode (B.id c) { d with linkCount := increment16 d.linkCount }] := by
    intro ha
    rw [hB.log ha, hL₀.log, hid]
    rfl
  have hcB : 0 < B.count c := by simp [hB.count c]
  have hheldB : ∀ g, B.held g = none := fun g => by rw [hB.held, hL₀.held]
  have hlinking : Linking M B c := by
    refine ⟨⟨fun g hg => absurd (hheldB g) hg, hB.dying.trans hL₀.dying, hB.lent.trans hL₀.lent,
      fun f hf => ?_, fun hcnt i hi => ?_, fun ha i hi => ?_⟩, hheldB, hB.fresh.trans hL₀.fresh,
      hB.cwdTaken.trans hL₀.cwdTaken, hB.adopted.trans hL₀.adopted, hcB, ⟨d.type, ?_, hkd⟩,
      fun hcnt => (hB.pend hcnt).trans (hone hcnt)⟩
    · rw [hB.fresh] at hf
      exact absurd (hL₀.fresh.symm.trans hf) (by simp)
    · rw [hB.pend hcnt] at hi
      have : i = B.id c := by
        by_contra h
        exact hi (by simp [Local.withPend, hone hcnt, h])
      exact ⟨c, hcB, this.symm⟩
    · obtain ⟨d', hd', -⟩ | had := hi
      · rw [hlogB ha] at hd'
        simp only [List.mem_singleton, Effect.inode.injEq] at hd'
        exact ⟨c, hcB, hd'.1.symm⟩
      · rw [hB.adopted] at had
        exact absurd (hL₀.adopted.symm.trans had) (by simp)
    · rw [hkind]
      simp [Local.acquire]
  refine (safe_linkInParent hlinking new).bind ?_
  rintro (e | ⟨⟩) L₃ ⟨p, offset, es, hes, hL₃⟩
  · have hL₃ : B.Grows M 0 B.held (B.log ++ es) L₃ := hL₃
    have hc₃ : 0 < L₃.count c := by
      rw [hL₃.count c]
      exact Nat.add_pos_left hcB _
    have hG := hB.trans hL₃
    rw [add_zero, hB.held] at hG
    refine safe_op_bind (fun _ => ⟨hc₃, hG.dying.trans hL₀.dying, fun _ g d hg => ?_⟩) ?_
    · rw [hG.held] at hg
      rw [show L₀.held g = none from hL₀.held g] at hg
      cases hg
    rintro - - L₄ ⟨d₂, rfl, -, -, hkinds₂, -⟩
    have hL₄ := hG.acquire (d := d₂) hkinds₂ fun f hf => absurd (hL₀.fresh.symm.trans hf) (by simp)
    refine safe_recount (B := L₀.withPend q) hL₀.dying hL₀.lent hL₀.held hL₄
      fun q' L₅ hle _ hq' hL₅ hkind₅ hid₅ => ?_
    have hid₃ : L₅.id c = B.id c := by
      rw [hid₅]
      exact hL₃.id c hcB
    have hback : M.counted → q' = L₀.pend := by
      intro hcnt
      have hidc : (L₃.acquire c d₂).id c = B.id c := hL₃.id c hcB
      have hone' : (1 : ℤ) ≤ d₂.linkCount := by
        have := hle hcnt
        rw [hL₄.pend hcnt, hidc] at this
        simpa [Local.withPend, hone hcnt] using this
      have hzero : L₀.pend = 0 := funext (hL₀.pend hcnt)
      rw [hq', hidc, decrement16_sub hone']
      simp [Local.withPend, hone hcnt, hzero]
    refine hend p offset (Local.Grows.of_withPend hL₅ hback)
      fun ha e he => ?_
    rw [hlogB ha] at he
    simp only [List.mem_append, List.mem_singleton] at he
    obtain (rfl | he) | rfl := he
    · simp [Effect.Within, hid₃]
    · exact (hes ha e he).mono (by simp)
    · rw [← hid₅, hid₃]
      simp [Effect.Within]
  · have hL₃ : (B.withPend 0).Grows M 0 B.held (B.log ++ es) L₃ := hL₃
    have hG := (hB.withPend 0).trans hL₃
    rw [add_zero, hB.held] at hG
    have hid₃ : L₃.id c = B.id c := hL₃.id c hcB
    have hback : M.counted → (0 : InodeId → ℤ) = L₀.pend := by
      intro hcnt
      exact (funext (hL₀.pend hcnt)).symm
    refine hend p offset (Local.Grows.of_withPend hG hback)
      fun ha e he => ?_
    rw [hlogB ha] at he
    simp only [List.mem_append, List.mem_singleton] at he
    obtain rfl | he := he
    · simp [Effect.Within, hid₃]
    · exact (hes ha e he).mono (by simp)

/-- The changes of a call are confined to three inodes and one directory entry. -/
def FewLog (log : List Effect) : Prop :=
  ∃ ids p offset, ids.length ≤ 3 ∧ ∀ e ∈ log, e.Within ids [(p, offset)]

theorem FewLog.nil : FewLog [] := ⟨[], .root, 0, by simp, by simp⟩

theorem safe_link (hL : L.Idle M.counted) (hz : L.zombie = false) (hlog : M.alone → L.log = [])
    (old new : Option (List UInt8)) :
    M.typestate.Safe (SysFile.link old new) L (Ended M L.zombie fun _ log => FewLog log) := by
  have hnone : ∀ e, M.typestate.Safe (pure (.error e) : Prog (Except SysFile.LinkError Unit)) L
      (Ended M L.zombie fun _ log => FewLog log) :=
    fun e _ => ⟨hL, rfl, fun ha => hlog ha ▸ .nil⟩
  unfold SysFile.link
  split
  · exact hnone _
  · exact hnone _
  · refine safe_inOperation hL ((safe_linkPaths (hL.clear hz) _ _).mono ?_)
    rintro r L' - ⟨log, hL', hlog'⟩
    refine ⟨log, hL', fun ha => ?_⟩
    obtain ⟨c, p, offset, h⟩ := hlog' ha
    exact ⟨[c, p], p, offset, by simp, h⟩

/-! ### `unlink` -/

theorem safe_checkEmpty {c : Handle} {d : DiskInode} (hd : L.held c = some d) :
    M.typestate.Safe (SysFile.checkEmpty c d) L fun r L' => L' = L ∧
      (r = true → d.type = .directory → ∀ k, 2 ≤ k → k < slotCount d.content →
        (slot d.content k).inodeNumber = 0) := by
  unfold SysFile.checkEmpty
  split
  next hdir =>
    refine (safe_init (Q := fun _ L' => L' = L) hd fun _ => rfl).bind ?_
    rintro - L₁ rfl
    refine safe_diskInode hd ?_
    split
    · exact safe_panic
    next empty hempty =>
      refine fun _ => ⟨rfl, fun hr _ k h2 hk => ?_⟩
      rw [hr] at hempty
      exact noneUsed_true hempty h2 hk
  next hdir => exact fun _ => ⟨rfl, fun _ h => absurd h hdir⟩

/-- Where `unlink` has locked the directory at `p` and its child at `c`, `q` being the
links that have no entry any more. -/
def Unlinking (M : Mode) (L₀ : Local) (p c : Handle) (x y : InodeId) (offset : ℕ)
    (q : InodeId → ℤ) (dp d : DiskInode) (L : Local) : Prop :=
  ∃ log, (L₀.withPend q).Grows M (Pi.single p 1 + Pi.single c 1)
      (Function.update (Function.update L₀.held p (some dp)) c (some d)) log L ∧
    (M.alone → ∀ e ∈ log, e.Within [x, y] [(y, offset)]) ∧ L.id c = x ∧ L.id p = y

theorem Unlinking.held {L₀ : Local} {p c : Handle} {x y : InodeId} {offset : ℕ}
    {q : InodeId → ℤ} {dp d : DiskInode} (hcp : c ≠ p)
    (hL : Unlinking M L₀ p c x y offset q dp d L) : L.held p = some dp ∧ L.held c = some d := by
  obtain ⟨log, hL, -⟩ := hL
  simp [hL.held, hcp.symm]

/-- Take back the link of `g`, one of the two locked inodes, that has no entry. -/
theorem safe_uncount {L₀ : Local} {g : Handle} {cs : Handle → ℕ} {held : Handle → Option DiskInode}
    {log : List Effect} {q : InodeId → ℤ} {d : DiskInode} {Q : Unit → Local → Prop}
    (hdying : L₀.dying = none) (hL : (L₀.withPend q).Grows M cs held log L)
    (hg : held g = some d) (hq : q (L.id g) = 1)
    (hQ : ∀ d', (L₀.withPend (Function.update q (L.id g) 0)).Grows M cs
        (Function.update held g (some d')) (log ++ [.inode (L.id g) d'])
        (L.setInode g d d') → d'.type = d.type → Q () (L.setInode g d d')) :
    M.typestate.Safe (Inode.setLinkCount g decrement16) L Q := by
  have hd : L.held g = some d := hL.held ▸ hg
  refine safe_of_fact fun hf => safe_setLinkCount hd (hL.dying.trans hdying) fun _ => ?_
  refine hQ _ (@Local.Grows.setInode M _ (L₀.withPend q) _ _ _ _ _ _ _ hL fun hcnt => ?_) rfl
  have hle : (1 : ℤ) ≤ d.linkCount := by
    have := hf.pend_le hcnt g d hd
    rwa [hL.pend hcnt, show (L₀.withPend q).pend = q from rfl, hq] at this
  simp only [Local.setInode, hL.pend hcnt, decrement16_sub hle]
  simp [Local.withPend, hq]

/-- Removing an entry gives back what it demands. -/
theorem Local.pend_enter_empty {h : Handle} {d : DiskInode} {j : ℕ} {types : InodeId → InodeType}
    (hchild : Child d.content j) (i : InodeId) :
    (L.enter h d j .empty types).pend i = L.pend i +
      ((if i = ⟨(L.id h).device, (slot d.content j).inodeNumber⟩ then 1 else 0) +
        (if i = L.id h ∧ types ⟨(L.id h).device, (slot d.content j).inodeNumber⟩ = .directory
          then 1 else 0)) := by
  have hempty : entryDemand types (L.id h) .empty i = 0 := if_neg fun h => h.1 rfl
  have hslot : entryDemand types (L.id h) (slotOrEmpty d.content j) i =
      (if i = ⟨(L.id h).device, (slot d.content j).inodeNumber⟩ then 1 else 0) +
        (if i = L.id h ∧ types ⟨(L.id h).device, (slot d.content j).inodeNumber⟩ = .directory
          then 1 else 0) := by
    rw [slotOrEmpty, if_pos hchild.1, entryDemand, if_pos hchild.2]
  simp only [Local.enter, hempty, hslot]
  push_cast
  ring

theorem safe_unlinkChild {L₀ : Local} (hL₀ : Clear M L₀) {p c : Handle} (hcp : c ≠ p)
    {dp d : DiskInode} {j : ℕ} {x y : InodeId}
    (hL : Unlinking M L₀ p c x y (entrySize * j) 0 dp d L) (hdir : dp.type = .directory)
    (hchild : Child dp.content j) (hx : x = ⟨y.device, (slot dp.content j).inodeNumber⟩) :
    M.typestate.Safe (SysFile.unlinkChild p c (entrySize * j)) L fun _ L' =>
      ∃ dp' d', Unlinking M L₀ p c x y (entrySize * j) 0 dp' d' L' := by
  obtain ⟨hp, hd⟩ := hL.held hcp
  refine safe_diskInode hd ?_
  split
  · exact safe_panic
  refine (safe_checkEmpty hd).bind ?_
  rintro empty L₁ ⟨rfl, hempty⟩
  split
  · exact fun _ => ⟨dp, d, hL⟩
  next hne =>
  have hempty := hempty (by simpa using hne)
  obtain ⟨log, hG, hlog, rfl, rfl⟩ := hL
  have hdying : L₁.dying = none := hG.dying.trans hL₀.dying
  have hfresh : L₁.fresh = none := hG.fresh.trans hL₀.fresh
  have hcc : 0 < L₁.count c := by simp [hG.count c]
  have hpc : 0 < L₁.count p := by simp [hG.count p]
  refine safe_of_fact fun hf => ?_
  have hne : L₁.id c ≠ L₁.id p := fun h => hcp (hf.unique c p hcc hpc h)
  have hkc : L₁.kind c = some d.type := by
    obtain h | h := hf.held_kind c d hd
    · have := hf.held_free c d hd h
      rw [hdying] at this
      cases this
    · exact h
  have hremovable : M.counted → Mode.Removable L₁ p dp j := by
    intro hcnt
    refine ⟨hchild, c, d, hcp, hd, hx, fun hdc k hk => ?_⟩
    have hform := hf.dotForm hcnt c d hd hdc (fun f h => by rw [hfresh] at h; cases h)
      (by rw [hdying]; exact nofun)
    obtain ⟨hk, hlive, hname⟩ := hk
    obtain rfl | rfl | h2 : k = 0 ∨ k = 1 ∨ 2 ≤ k := by omega
    · exact hname (.inl hform.dot_name)
    · exact hname (.inr hform.dotDot_name)
    · exact hlive (hempty hdc k h2 hk)
  refine safe_op_bind (fun _ => ⟨hdying, dp, j, hp, hdir, rfl, hchild.1.le,
    fun h => absurd h hchild.1.ne, DirectoryEntry.Fits.empty, fun h => absurd rfl h,
    fun _ => hremovable⟩) ?_
  rintro - (err | n) L₂ hr
  · exact safe_panic
  change M.typestate.Safe (if n ≠ entrySize then panic .unlinkWritei else _) _ _
  split
  · exact safe_panic
  obtain ⟨dp', j', hdp', hoff, ⟨-, types, htypes, rfl⟩ | ⟨-, hle, rfl⟩⟩ := hr
  · obtain rfl := Option.some.inj (hp.symm.trans hdp')
    obtain rfl : j = j' := Nat.eq_of_mul_eq_mul_left (by decide) hoff
    -- the entry is gone; its links are taken back one by one
    set q : InodeId → ℤ := fun i => (if i = L₁.id c then 1 else 0) +
      (if i = L₁.id p ∧ d.type = .directory then 1 else 0) with hq
    have hG₁ := Local.Grows.enter (h := p) (d := dp) (j := j) (e := .empty) (q := q) types hG
      hL₀.fresh fun hcnt => ?_
    · rw [Function.update_comm hcp, Function.update_idem] at hG₁
      have hlog₁ : M.alone → ∀ e ∈ log ++ [.entry (L₁.id p) (entrySize * j)
          (splice dp.content (entrySize * j) DirectoryEntry.empty.toBytes)],
          e.Within [L₁.id c, L₁.id p] [(L₁.id p, entrySize * j)] := by
        intro ha e he
        obtain he | he := List.mem_append.mp he
        · exact hlog ha e he
        · obtain rfl := List.mem_singleton.mp he
          simp [Effect.Within]
      have hcount : ∀ {i L₂ log dp₂ d₂ q₂} {d' : DiskInode}, i ∈ [L₁.id c, L₁.id p] →
          (M.alone → ∀ e ∈ log, e.Within [L₁.id c, L₁.id p] [(L₁.id p, entrySize * j)]) →
          (L₀.withPend q₂).Grows M (Pi.single p 1 + Pi.single c 1)
            (Function.update (Function.update L₀.held p (some dp₂)) c (some d₂))
            (log ++ [.inode i d']) L₂ → L₂.id = L₁.id →
          Unlinking M L₀ p c (L₁.id c) (L₁.id p) (entrySize * j) q₂ dp₂ d₂ L₂ := by
        intro i L₂ log dp₂ d₂ q₂ d' hi hlog hL₂ hid
        refine ⟨_, hL₂, fun ha e he => ?_, by rw [hid], by rw [hid]⟩
        obtain he | he := List.mem_append.mp he
        · exact hlog ha e he
        · obtain rfl := List.mem_singleton.mp he
          exact hi
      refine Safe.bind (Q := fun _ L' => ∃ dp', Unlinking M L₀ p c (L₁.id c) (L₁.id p)
        (entrySize * j) (Function.update q (L₁.id p) 0) dp' d L')
        (safe_when (c := d.type = .directory) (fun hdir' => ?_) fun hnd _ => ?_) ?_
      · refine safe_uncount hL₀.dying hG₁ (by simp [hcp.symm]; rfl) ?_ fun d' hL' _ => ?_
        · simp [hq, hdir', hne.symm, Local.enter, Local.setHeld]
        · rw [Function.update_comm hcp, Function.update_idem] at hL'
          exact ⟨d', hcount (by simp [Local.enter, Local.setHeld]) hlog₁ hL' rfl⟩
      · have hsame : Function.update q (L₁.id p) 0 = q := by
          rw [Function.update_eq_self_iff]
          simp [hq, hnd, hne.symm]
        exact ⟨_, _, hsame ▸ hG₁, hlog₁, rfl, rfl⟩
      · rintro - L₂ ⟨dp', log', hG₂, hlog', hidc, hidp⟩
        refine Safe.bind (safe_uncount (Q := fun _ L' => ∃ d', Unlinking M L₀ p c (L₁.id c) (L₁.id p)
          (entrySize * j) 0 dp' d' L') hL₀.dying hG₂ (by simp; rfl) ?_ fun d' hL' _ => ?_) ?_
        · simp [hidc, hne, hq]
        · rw [hidc] at hL'
          rw [Function.update_idem] at hL'
          refine ⟨d', _, Local.Grows.of_withPend hL' ?_, fun ha e he => ?_, hidc, hidp⟩
          · intro _
            funext i
            by_cases hi : i = L₁.id c
            · simp [hi, Local.withPend]
            · by_cases hi' : i = L₁.id p
              · simp [hi', hne.symm, Local.withPend]
              · simp [hi, hi', hq, Local.withPend]
          · obtain he | he := List.mem_append.mp he
            · exact hlog' ha e he
            · obtain rfl := List.mem_singleton.mp he
              simp [Effect.Within]
        · rintro - L₃ hL₃
          exact fun _ => ⟨dp', hL₃⟩
    · funext i
      rw [Local.pend_enter_empty hchild, hG.pend hcnt, ← hx, htypes c _ hcc hkc]
      simp [Local.withPend, hq]
  · obtain rfl := Option.some.inj (hp.symm.trans hdp')
    obtain rfl : j = j' := Nat.eq_of_mul_eq_mul_left (by decide) hoff
    exact absurd hchild.1 hle.not_gt

theorem safe_unlinkIn {L₀ : Local} (hL₀ : Clear M L₀) {p : Handle} {dp : DiskInode}
    (hL : L₀.Grows M (Pi.single p 1) (Function.update L₀.held p (some dp)) L₀.log L) (name : Name) :
    M.typestate.Safe (SysFile.unlinkIn p name) L fun _ L' => ∃ dp' x y offset log,
      L₀.Grows M (Pi.single p 1) (Function.update L₀.held p (some dp')) log L' ∧
      (M.alone → ∀ e ∈ log, e.Within [x, y] [(y, offset)]) := by
  have hsame : ∃ dp' x y offset log,
      L₀.Grows M (Pi.single p 1) (Function.update L₀.held p (some dp')) log L ∧
      (M.alone → ∀ e ∈ log, e.Within [x, y] [(y, offset)]) :=
    ⟨dp, .root, .root, 0, _, hL, by simp [hL₀.log]⟩
  have hp : 0 < L.count p := by simp [hL.count p]
  have hheld : L.held p = some dp := by simp [hL.held]
  unfold SysFile.unlinkIn
  split
  · exact fun _ => hsame
  next hdot =>
  split
  · exact fun _ => hsame
  next hdotDot =>
  refine (safe_init (Q := fun _ L' => L' = L ∧ dp.type = .directory) hheld
    fun hdir => ⟨rfl, hdir⟩).bind ?_
  rintro - L₁ ⟨rfl, hdir⟩
  refine (safe_lookupChild hheld hdir hp).bind ?_
  rintro (_ | ⟨c, offset⟩) L₂ hr
  · obtain ⟨rfl, -⟩ := hr
    exact fun _ => hsame
  obtain ⟨j, hj, rfl, hlive, hname, rfl, hid⟩ := hr
  have hchild : Child dp.content j := ⟨hj, hlive, fun h => h.elim (hname ▸ hdot) (hname ▸ hdotDot)⟩
  have hL₂ := hL.addRef hid
  set x : InodeId := ⟨(L₁.id p).device, (slot dp.content j).inodeNumber⟩ with hx
  refine safe_op_bind (fun _ => ⟨by simp [Local.addRef], hL₂.dying.trans hL₀.dying,
    fun _ g d hg => ?_⟩) ?_
  · rw [hL₂.held] at hg
    obtain rfl : g = p := by
      by_contra h
      rw [Function.update_of_ne h, hL₀.held] at hg
      cases hg
    rw [Function.update_self, Option.some.injEq] at hg
    subst hg
    refine ⟨hdir, .inl ⟨j, hchild, ?_⟩⟩
    by_cases hgc : g = c
    · subst hgc
      simp only [Local.addRef, Function.update_self, hx]
    · simp [Local.addRef, hgc, hx]
  rintro - - L₃ ⟨d, rfl, hnone, -, hkinds, -⟩
  have hcp : c ≠ p := by
    rintro rfl
    rw [hL₂.held] at hnone
    simp at hnone
  have hL₃ := hL₂.acquire (d := d) hkinds fun f hf => by rw [hL₀.fresh] at hf; cases hf
  have hidc : ((L₁.addRef c x).acquire c d).id c = x := by simp [Local.acquire, Local.addRef]
  have hidp : ((L₁.addRef c x).acquire c d).id p = L₁.id p := by
    simp [Local.acquire, Local.addRef, hcp.symm]
  have hU : Unlinking M L₀ p c x (L₁.id p) (entrySize * j) 0 dp d ((L₁.addRef c x).acquire c d) := by
    refine ⟨[], ?_, by simp, hidc, hidp⟩
    refine @Local.Grows.of_withPend M _ (L₀.withPend 0) _ _ _ L₀.pend ?_ fun hcnt => ?_
    · exact hL₃.log_congr fun _ => hL₀.log
    · exact funext (hL₀.pend hcnt)
  refine (safe_unlinkChild hL₀ hcp hU hdir hchild hx).bind ?_
  rintro r L₄ ⟨dp', d', log, hL₄, hlog, hidc', hidp'⟩
  have hL₄ : L₀.Grows M (Pi.single p 1 + Pi.single c 1)
      (Function.update (Function.update L₀.held p (some dp')) c (some d')) log L₄ :=
    hL₄.of_withPend fun hcnt => (funext (hL₀.pend hcnt)).symm
  refine (safe_releasePut hL₀.tidy hL₄ (by simp)).bind ?_
  rintro - L₅ ⟨fs, hL₅, hfs, -⟩
  rw [update_update_none (by simp [hcp, hL₀.held c])] at hL₅
  rw [hidc', hL₀.adopted] at hfs
  refine fun _ => ⟨dp', x, L₁.id p, entrySize * j, _, hL₅, fun ha e he => ?_⟩
  obtain he | he := List.mem_append.mp he
  · exact hlog ha e he
  · exact (hfs ha).within (by simp) e he

theorem safe_unlink (hL : L.Idle M.counted) (hz : L.zombie = false) (hlog : M.alone → L.log = [])
    (path : Option (List UInt8)) :
    M.typestate.Safe (SysFile.unlink path) L (Ended M L.zombie fun _ log => FewLog log) := by
  unfold SysFile.unlink
  split
  · exact fun _ => ⟨hL, rfl, fun ha => hlog ha ▸ .nil⟩
  next path =>
  have hL₀ := hL.clear hz
  have hT := hL₀.tidy
  refine safe_inOperation hL ((safe_resolvePathHelper hT hL₀.held hL₀.fresh hL₀.cwdTaken path).bind ?_)
  rintro (_ | ⟨p, name⟩) L₁ hL₁
  · have hL₁ : L.begin.Grows M 0 L.begin.held L.begin.log L₁ := hL₁
    exact fun _ => ⟨_, hL₁, fun _ => .nil⟩
  obtain ⟨hL₁, -⟩ := hL₁
  have hp : 0 < L₁.count p := by simp [hL₁.count p]
  refine safe_op_bind (fun _ => ⟨hp, hL₁.dying.trans hL₀.dying, fun _ g d hg => ?_⟩) ?_
  · rw [hL₁.held, hL₀.held g] at hg
    cases hg
  rintro - - L₂ ⟨dp, rfl, -, -, hkinds, -⟩
  have hL₂ := hL₁.acquire (d := dp) hkinds fun f hf => by rw [hL₀.fresh] at hf; cases hf
  refine (safe_unlinkIn hL₀ hL₂ name).bind ?_
  rintro r L₃ ⟨dp', x, y, offset, log, hL₃, hlog⟩
  refine (safe_releasePut (c := 0) hT (by simpa using hL₃) (by simp)).bind ?_
  rintro - L₄ ⟨fs, hL₄, hfs, -⟩
  rw [update_update_none (hL₀.held p)] at hL₄
  refine fun _ => ⟨_, hL₄, fun ha => ⟨[x, y, L₃.id p], y, offset, by simp, fun e he => ?_⟩⟩
  obtain he | he := List.mem_append.mp he
  · exact (hlog ha e he).mono (by simp)
  · exact (hfs ha).within (by simp) e he

end

end Zigmaos.FileSystem
