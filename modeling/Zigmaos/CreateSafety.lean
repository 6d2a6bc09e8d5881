import Zigmaos.CallSafety

/-!
# Creating an inode

`create` from the allocation of the inode to its entry in the parent directory:
what is owned, locked and pending at each point, and what the clean-up of a
failure leaves.
-/
namespace Zigmaos.FileSystem
open DirectoryContent Program Typestate

/-- Entries "." and ".." of a new directory, or attempts to write them. -/
def DotsLog (id : InodeId) (es : List Effect) : Prop :=
  ∀ e ∈ es, ∃ offset, offset ≤ entrySize ∧
    (e = .attempt id offset ∨ ∃ content, e = .entry id offset content)

/-- The changes of `linkNew` that succeeded: the entries of a directory, the
entry in the parent and the link count of the parent. -/
def LinkedLog (parent id : InodeId) (kind : InodeType) (es : List Effect) : Prop :=
  ∃ dots offset content counts, es = dots ++ .entry parent offset content :: counts ∧
    DotsLog id dots ∧ (kind ≠ .directory → dots = [] ∧ counts = []) ∧
    ∀ e ∈ counts, ∃ d, e = .inode parent d

/-- The changes of `linkNew` that failed. -/
def UnlinkedLog (parent id : InodeId) (kind : InodeType) (es : List Effect) : Prop :=
  ∃ dots attempts, es = dots ++ attempts ∧ DotsLog id dots ∧ (kind ≠ .directory → dots = []) ∧
    (attempts = [] ∨ ∃ offset, attempts = [.attempt parent offset])

/-- Where `create` has locked the parent and nothing else. -/
structure Parent (M : Mode) (B : Local) (p : Handle) (dp : DiskInode) : Prop where
  tidy : B.Tidy M
  held : ∀ g, B.held g = if g = p then some dp else none
  owned : ∀ g, 0 < B.count g → g = p
  fresh : B.fresh = none
  pend : M.counted → ∀ i, B.pend i = 0
  directory : dp.type = .directory

/-- `L` is `B` with the new inode `id` locked at `c`, whose value is `d` and
whose link count is `n` too high; `es` are the changes since `B`. -/
structure Making (M : Mode) (B : Local) (c : Handle) (id : InodeId) (kind : InodeType)
    (d : DiskInode) (n : ℤ) (es : List Effect) (L : Local) : Prop where
  count : ∀ g, L.count g = B.count g + (Pi.single c 1 : Handle → ℕ) g
  ids : ∀ g, 0 < B.count g → L.id g = B.id g
  newId : L.id c = id
  kinds : ∀ g k, 0 < B.count g → B.kind g = some k → L.kind g = some k
  newKind : L.kind c = some d.type
  held : L.held = Function.update B.held c (some d)
  dying : L.dying = B.dying
  fresh : L.fresh = some ⟨id, kind, false⟩
  pend : M.counted → L.pend = Function.update B.pend id n
  fileRefs : L.fileRefs = B.fileRefs
  newFile : L.newFile = B.newFile
  lent : L.lent = B.lent
  taken : L.taken = B.taken
  cwdTaken : L.cwdTaken = B.cwdTaken
  adopted : L.adopted = B.adopted
  zombie : L.zombie = B.zombie
  inOperation : L.inOperation = B.inOperation
  log : M.alone → L.log = B.log ++ es

section
variable {M : Mode} {B L L' : Local} {p c : Handle} {id : InodeId} {kind : InodeType}
  {dp d : DiskInode} {n : ℤ} {es : List Effect}

theorem Parent.held_self (hB : Parent M B p dp) : B.held p = some dp := by
  rw [hB.held, if_pos rfl]

theorem Parent.count_pos (hB : Parent M B p dp) : 0 < B.count p :=
  hB.tidy.held p (by simp [hB.held_self])

namespace Making

theorem count_pos (hL : Making M B c id kind d n es L) : 0 < L.count c := by
  simp [hL.count c]

theorem held_self (hL : Making M B c id kind d n es L) : L.held c = some d := by
  simp [hL.held]

theorem parent_ne (hL : Making M B c id kind d n es L) (hB : Parent M B p dp) (hpc : p ≠ c)
    (hf : M.Fact L) : B.id p ≠ id := by
  intro heq
  have hp := hB.count_pos
  have hcp := hL.count p
  exact hpc (hf.unique p c (by omega) hL.count_pos (by rw [hL.ids p hp, hL.newId, heq]))

theorem tidy (hL : Making M B c id kind d n es L) (hB : Parent M B p dp)
    (hes : M.alone → ∀ i d', Effect.inode i d' ∈ es → i = id) : L.Tidy M where
  held g hg := by
    by_cases hgc : g = c
    · exact hgc ▸ hL.count_pos
    · rw [hL.held, Function.update_of_ne hgc] at hg
      have := hB.tidy.held g hg
      have := hL.count g
      omega
  dying := hL.dying.trans hB.tidy.dying
  lent := hL.lent.trans hB.tidy.lent
  fresh f hf := by
    rw [hL.fresh] at hf
    cases hf
    exact ⟨c, hL.count_pos, hL.newId⟩
  pend hcnt i hi := by
    rw [hL.pend hcnt] at hi
    by_cases hid : i = id
    · exact ⟨c, hL.count_pos, hid ▸ hL.newId⟩
    · rw [Function.update_of_ne hid] at hi
      exact absurd (hB.pend hcnt i) hi
  mayFree ha i := by
    have hold : B.MayFree i → L.Owns i := by
      intro hi
      obtain ⟨g, hg, rfl⟩ := hB.tidy.mayFree ha i hi
      exact ⟨g, by have := hL.count g; omega, hL.ids g hg⟩
    rintro (⟨d', hd', hz⟩ | had)
    · rw [hL.log ha, List.mem_append] at hd'
      obtain hd' | hd' := hd'
      · exact hold (.inl ⟨d', hd', hz⟩)
      · exact ⟨c, hL.count_pos, by rw [hL.newId, hes ha i d' hd']⟩
    · exact hold (.inr (hL.adopted ▸ had))

/-- What changes nothing but the log keeps the inode in the making. -/
theorem grows (hL : Making M B c id kind d n es L) {fs : List Effect} {log : List Effect}
    (hL' : L.Grows M 0 L.held log L') (hlog : log = L.log ++ fs) :
    Making M B c id kind d n (es ++ fs) L' where
  count g := by simp [hL'.count g, hL.count g]
  ids g hg := by
    have := hL.count g
    rw [hL'.id g (by omega), hL.ids g hg]
  newId := by rw [hL'.id c hL.count_pos, hL.newId]
  kinds g k hg hk := by
    have := hL.count g
    exact hL'.kind g k (by omega) (hL.kinds g k hg hk)
  newKind := hL'.kind c _ hL.count_pos hL.newKind
  held := hL'.held.trans hL.held
  dying := hL'.dying.trans hL.dying
  fresh := hL'.fresh.trans hL.fresh
  pend hcnt := (hL'.pend hcnt).trans (hL.pend hcnt)
  fileRefs := hL'.fileRefs.trans hL.fileRefs
  newFile := hL'.newFile.trans hL.newFile
  lent := hL'.lent.trans hL.lent
  taken := hL'.taken.trans hL.taken
  cwdTaken := hL'.cwdTaken.trans hL.cwdTaken
  adopted := hL'.adopted.trans hL.adopted
  zombie := hL'.zombie.trans hL.zombie
  inOperation := hL'.inOperation.trans hL.inOperation
  log ha := by rw [hL'.log ha, hlog, hL.log ha, List.append_assoc]

/-- `update` of the new inode. -/
theorem setInode (hL : Making M B c id kind d n es L) (d' : DiskInode) (ht : d'.type = d.type) :
    Making M B c id kind d' (n + (d'.linkCount - d.linkCount)) (es ++ [.inode id d'])
      (L.setInode c d d') where
  count := hL.count
  ids := hL.ids
  newId := hL.newId
  kinds := hL.kinds
  newKind := by rw [ht]; exact hL.newKind
  held := by simp [Local.setInode, Local.setHeld, hL.held]
  dying := hL.dying
  fresh := hL.fresh
  pend hcnt := by simp [Local.setInode, hL.newId, hL.pend hcnt]
  fileRefs := hL.fileRefs
  newFile := hL.newFile
  lent := hL.lent
  taken := hL.taken
  cwdTaken := hL.cwdTaken
  adopted := hL.adopted
  zombie := hL.zombie
  inOperation := hL.inOperation
  log ha := by simp [Local.setInode, Local.setHeld, hL.log ha, hL.newId]

theorem entryDemand_of_dots {types : InodeId → InodeType} {i j : InodeId} {e : DirectoryEntry}
    (he : e.inodeNumber ≠ 0 → IsDots e.nameSlice) : entryDemand types i e j = 0 := by
  simp only [entryDemand, ite_eq_right_iff, and_imp]
  exact fun h hn => absurd (he h) hn

theorem slotOrEmpty_dead {content : List UInt8} {j : ℕ}
    (h : j < slotCount content → (slot content j).inodeNumber = 0) :
    (slotOrEmpty content j).inodeNumber = 0 := by
  unfold slotOrEmpty
  split
  next hj => exact h hj
  · rfl

/-- An entry "." or ".." of the new inode. -/
theorem enter (hL : Making M B c id kind d n es L) {j : ℕ} {e : DirectoryEntry}
    (types : InodeId → InodeType) (he : IsDots e.nameSlice)
    (hdead : j < slotCount d.content → (slot d.content j).inodeNumber = 0) :
    Making M B c id kind { d with content := splice d.content (entrySize * j) e.toBytes } n
      (es ++ [.entry id (entrySize * j) (splice d.content (entrySize * j) e.toBytes)])
      (L.enter c d j e types) where
  count := hL.count
  ids := hL.ids
  newId := hL.newId
  kinds := hL.kinds
  newKind := hL.newKind
  held := by simp [Local.enter, Local.setHeld, hL.held]
  dying := hL.dying
  fresh := by simp [Local.enter, hL.fresh, hL.newId]
  pend hcnt := by
    simp only [Local.enter, hL.pend hcnt]
    funext i
    rw [entryDemand_of_dots fun _ => he,
      entryDemand_of_dots fun h => absurd (slotOrEmpty_dead hdead) h]
    simp
  fileRefs := hL.fileRefs
  newFile := hL.newFile
  lent := hL.lent
  taken := hL.taken
  cwdTaken := hL.cwdTaken
  adopted := hL.adopted
  zombie := hL.zombie
  inOperation := hL.inOperation
  log ha := by simp [Local.enter, Local.setHeld, hL.log ha, hL.newId]

end Making

/-- The content of a new directory after its two entries. -/
theorem dotForm_of_entries {e₁ e₂ : DirectoryEntry} (h₁ : e₁.Fits) (h₂ : e₂.Fits)
    (hl₁ : e₁.inodeNumber ≠ 0) (hl₂ : e₂.inodeNumber ≠ 0) (hn₁ : e₁.nameSlice = dot)
    (hn₂ : e₂.nameSlice = dotDot) {content : List UInt8}
    (hc : content = splice (splice [] (entrySize * 0) e₁.toBytes) (entrySize * 1) e₂.toBytes) :
    DotForm content ∧ slot content 1 = e₂ ∧ ∀ j, ¬Child content j := by
  have hb₁ := DirectoryEntry.length_toBytes h₁
  have hb₂ := DirectoryEntry.length_toBytes h₂
  have ha₁ : Aligned (splice [] (entrySize * 0) e₁.toBytes) :=
    aligned_splice hb₁ (Nat.zero_le _) rfl
  have hc₁ : slotCount (splice [] (entrySize * 0) e₁.toBytes) = 1 :=
    slotCount_splice hb₁ (Nat.zero_le _) rfl
  have hs₁ : slot (splice [] (entrySize * 0) e₁.toBytes) 0 = e₁ := by
    rw [slot_splice_self hb₁ (Nat.zero_le _), DirectoryEntry.ofBytes_toBytes h₁]
  have hcount : slotCount content = 2 := by
    rw [hc, slotCount_splice hb₂ (by omega) ha₁, hc₁]
    rfl
  have hs₀ : slot content 0 = e₁ := by
    rw [hc, slot_splice_of_ne hb₂ (by omega) (by omega), hs₁]
  have hs₂ : slot content 1 = e₂ := by
    rw [hc, slot_splice_self hb₂ (by omega), DirectoryEntry.ofBytes_toBytes h₂]
  refine ⟨⟨?_, by omega, by rwa [hs₀], by rwa [hs₀], by rwa [hs₂], by rwa [hs₂],
    fun j hj hlt => by omega⟩, hs₂, ?_⟩
  · rw [hc]
    exact aligned_splice hb₂ (by omega) ha₁
  · rintro j ⟨hj, -, hname⟩
    obtain rfl | rfl : j = 0 ∨ j = 1 := by omega
    · exact hname (.inl (by rw [hs₀, hn₁]))
    · exact hname (.inr (by rw [hs₂, hn₂]))

theorem dotsLog_nil : DotsLog id [] := fun e he => by cases he

theorem DotsLog.append {es fs : List Effect} (h₁ : DotsLog id es) (h₂ : DotsLog id fs) :
    DotsLog id (es ++ fs) := by
  intro e he
  obtain he | he := List.mem_append.mp he
  · exact h₁ e he
  · exact h₂ e he

/-- The new directory once it has its two entries. -/
def HasDots (M : Mode) (B : Local) (p : Handle) (d : DiskInode) : Prop :=
  M.counted → DotForm d.content ∧ (slot d.content 1).inodeNumber = (B.id p).number ∧
    ∀ j, ¬Child d.content j

theorem safe_linkDots (hB : Parent M B p dp) (hpc : p ≠ c)
    (hdev : id.device = (B.id p).device) (hL : Making M B c id kind d n es L)
    (hes : M.alone → ∀ i d', Effect.inode i d' ∈ es → i = id) (hempty : M.counted ∨ M.alone → d.content = []) :
    M.typestate.Safe (SysFile.linkDots p c) L fun r L' => ∃ d' fs,
      Making M B c id kind d' n (es ++ fs) L' ∧ d'.type = d.type ∧ d'.linkCount = d.linkCount ∧
      (M.alone → DotsLog id fs) ∧ (∀ u, r = .ok u → HasDots M B p d') := by
  refine (safe_init (Q := fun _ L' => L' = L ∧ d.type = .directory) hL.held_self
    fun h => ⟨rfl, h⟩).bind ?_
  rintro - L₁ ⟨rfl, hdir⟩
  have hfresh : ∃ f, L₁.fresh = some f ∧ f.id = L₁.id c :=
    ⟨_, hL.fresh, hL.newId.symm⟩
  refine safe_of_fact fun hf => safe_identify hL.count_pos ?_
  have hnum := hf.number c hL.count_pos
  have hattempt : ∀ {j : ℕ}, j ≤ 1 → DotsLog id [.attempt id (entrySize * j)] := by
    intro j hj e he
    refine ⟨entrySize * j, by simp only [entrySize]; omega, .inl (by simpa using he)⟩
  refine (safe_linkEntry (hL.tidy hB hes) hL.held_self hdir hL.count_pos hL.count_pos rfl hL.newKind
    (fun h => absurd (.inl rfl) h) fun _ _ _ => ⟨fun _ => rfl, fun _ => hfresh,
      fun h => absurd (.inl rfl) h⟩).bind ?_
  rintro (err | ⟨⟩) L₂ hr
  · obtain ⟨log, hL₂, rfl | ⟨j, hj, rfl⟩⟩ := hr
    · exact fun _ => ⟨d, [], hL.grows hL₂ (by simp), rfl, rfl, fun _ => dotsLog_nil, by simp⟩
    · rw [hL.newId] at hL₂
      refine fun _ => ⟨d, [_], hL.grows hL₂ rfl, rfl, rfl, fun ha => hattempt ?_, by simp⟩
      rw [hempty (.inr ha)] at hj
      exact hj.trans zero_le_one
  obtain ⟨j, e, types, hj, -, -, -, hdead, hfit, hname, hnumber, -, rfl⟩ := hr
  have hL₂ := hL.enter types (.inl hname) hdead
  have hentry : ∀ {j : ℕ} {content}, j ≤ 1 → DotsLog id [.entry id (entrySize * j) content] := by
    intro j content hj e he
    refine ⟨entrySize * j, by simp only [entrySize]; omega, .inr ⟨content, by simpa using he⟩⟩
  have hlog : M.alone → DotsLog id
      [.entry id (entrySize * j) (splice d.content (entrySize * j) e.toBytes)] := by
    intro ha
    rw [hempty (.inr ha)] at hj
    exact hentry (hj.trans zero_le_one)
  have hes₂ : M.alone → ∀ i d', Effect.inode i d' ∈
      es ++ [.entry id (entrySize * j) (splice d.content (entrySize * j) e.toBytes)] → i = id := by
    intro ha i d' hi
    simp only [List.mem_append, List.mem_singleton, reduceCtorEq, or_false] at hi
    exact hes ha i d' hi
  have hp : 0 < (L₁.enter c d j e types).count p := by
    have := hL₂.count p
    have := hB.count_pos
    omega
  have hpid : (L₁.enter c d j e types).id p = B.id p := hL₂.ids p hB.count_pos
  refine safe_identify hp (safe_of_fact fun hf₂ => ?_)
  have hpnum := hf₂.number p hp
  -- the second entry goes to the slot after the first one
  have hsecond : M.counted ∨ M.alone → ∀ j',
      j' ≤ slotCount (splice d.content (entrySize * j) e.toBytes) → j' ≤ 1 ∧ j = 0 := by
    intro hm j' hj'
    rw [hempty hm] at hj hj'
    obtain rfl : j = 0 := Nat.le_zero.mp hj
    have ha : Aligned ([] : List UInt8) := rfl
    rw [slotCount_splice (DirectoryEntry.length_toBytes hfit) (Nat.zero_le _) ha] at hj'
    exact ⟨hj', rfl⟩
  have hkp : ∃ k, (L₁.enter c d j e types).kind p = some k := by
    obtain hfree | hk := hf₂.held_kind p dp (by rw [hL₂.held, Function.update_of_ne hpc, hB.held_self])
    · rw [hB.directory] at hfree
      cases hfree
    · exact ⟨_, hk⟩
  obtain ⟨k, hkp⟩ := hkp
  have hid : (L₁.enter c d j e types).id p =
      ⟨((L₁.enter c d j e types).id c).device, ((L₁.enter c d j e types).id p).number⟩ := by
    rw [hL₂.newId, hpid, hdev]
  refine (safe_linkEntry (hL₂.tidy hB hes₂) hL₂.held_self hdir hL₂.count_pos hp hid hkp
    (fun h => absurd (.inr rfl) h) fun _ _ _ => ⟨(by intro h; cases h),
      fun _ => ⟨_, hL₂.fresh, hL₂.newId.symm⟩,
      fun h => absurd (.inr rfl) h⟩).bind ?_
  rintro (err | ⟨⟩) L₃ hr
  · obtain ⟨log, hL₃, rfl | ⟨j', hj', rfl⟩⟩ := hr
    · have hsame := hL₂.grows hL₃ (List.append_nil _).symm
      rw [List.append_nil] at hsame
      exact fun _ => ⟨_, _, hsame, rfl, rfl, hlog, by simp⟩
    · rw [hL₂.newId] at hL₃
      have hmore := hL₂.grows hL₃ rfl
      rw [List.append_assoc] at hmore
      refine fun _ => ⟨_, _, hmore, rfl, rfl, fun ha => ?_, by simp⟩
      exact (hlog ha).append (hattempt (hsecond (.inr ha) j' hj').1)
  obtain ⟨j', e', types', hj', -, -, -, hdead', hfit', hname', hnumber', -, rfl⟩ := hr
  have hL₃ := hL₂.enter types' (.inr hname') hdead'
  rw [List.append_assoc] at hL₃
  refine fun _ => ⟨_, _, hL₃, rfl, rfl, fun ha => ?_, fun _ _ hcnt => ?_⟩
  · exact (hlog ha).append (hentry (hsecond (.inr ha) j' hj').1)
  · obtain ⟨hj1, rfl⟩ := hsecond (.inl hcnt) j' hj'
    have hlive : e.inodeNumber ≠ 0 := by rw [hnumber]; exact hnum.1.ne'
    have hlive' : e'.inodeNumber ≠ 0 := by rw [hnumber']; exact hpnum.1.ne'
    have hempty' := hempty (.inl hcnt)
    obtain rfl : j' = 1 := by
      by_contra hne
      obtain rfl : j' = 0 := by omega
      simp only [hempty'] at hdead'
      have ha : Aligned ([] : List UInt8) := rfl
      have hb := DirectoryEntry.length_toBytes hfit
      rw [slotCount_splice hb (Nat.zero_le _) ha, slot_splice_self hb (Nat.zero_le _),
        DirectoryEntry.ofBytes_toBytes hfit] at hdead'
      exact hlive (hdead' (by simp))
    have hc : splice (splice d.content (entrySize * 0) e.toBytes) (entrySize * 1) e'.toBytes =
        splice (splice [] (entrySize * 0) e.toBytes) (entrySize * 1) e'.toBytes := by rw [hempty']
    obtain ⟨hform, hslot, hchild⟩ :=
      dotForm_of_entries hfit hfit' hlive hlive' hname hname' hc
    exact ⟨hform, by rw [hslot, hnumber', hpid], hchild⟩

/-- The entry in the parent makes the new inode one like any other. -/
theorem Making.entered (hL : Making M B c id kind d n es L) (hB : Parent M B p dp)
    {held : Handle → Option DiskInode} {log : List Effect}
    (hL' : L' = { L with
      held := L'.held, fresh := L'.fresh, pend := L'.pend, log := L'.log })
    (hfresh : L'.fresh = none) (hheld : L'.held = held) (hpend : M.counted → L'.pend = B.pend) (hlog : M.alone → L'.log = log) :
    B.Grows M (Pi.single c 1) held log L' := by
  constructor
  case held => exact hheld
  case pend => exact hpend
  case log => exact hlog
  case fresh => exact hfresh.trans hB.fresh.symm
  all_goals rw [hL']
  case count => exact hL.count
  case id => exact hL.ids
  case kind => exact hL.kinds
  case dying => exact hL.dying
  case fileRefs => exact hL.fileRefs
  case newFile => exact hL.newFile
  case lent => exact hL.lent
  case taken => exact hL.taken
  case cwdTaken => exact hL.cwdTaken
  case adopted => exact hL.adopted
  case zombie => exact hL.zombie
  case inOperation => exact hL.inOperation

/-- What `linkNew` leaves, with the new inode entered or still in the making. -/
def LinkedNew (M : Mode) (B : Local) (p c : Handle) (id : InodeId) (kind : InodeType)
    (d : DiskInode) (es : List Effect) : Except SysFile.CreateError Unit → Local → Prop
  | .error _, L' => ∃ d' fs, Making M B c id kind d' 1 (es ++ fs) L' ∧ d'.type = d.type ∧
      d'.linkCount = d.linkCount ∧ (M.alone → UnlinkedLog (B.id p) id kind fs)
  | .ok _, L' => ∃ dp' d' fs, B.Grows M (Pi.single c 1)
        (Function.update (Function.update B.held p (some dp')) c (some d'))
        (B.log ++ (es ++ fs)) L' ∧
      dp'.type = .directory ∧ d'.type = d.type ∧ (kind ≠ .directory → d' = d) ∧
      (M.alone → LinkedLog (B.id p) id kind fs)

theorem safe_linkNew (hB : Parent M B p dp) (hpc : p ≠ c) (hdev : id.device = (B.id p).device)
    (hL : Making M B c id kind d 1 es L) (hes : M.alone → ∀ i d', Effect.inode i d' ∈ es → i = id)
    (hempty : M.counted ∨ M.alone → d.content = []) (hkind : M.counted → d.type = kind)
    (name : Name) :
    M.typestate.Safe (SysFile.linkNew p c name kind) L (LinkedNew M B p c id kind d es) := by
  unfold SysFile.linkNew
  have hfirst : M.typestate.Safe
      (if kind = .directory then SysFile.linkDots p c else pure (.ok ())) L fun r L' =>
      ∃ d' fs, Making M B c id kind d' 1 (es ++ fs) L' ∧ d'.type = d.type ∧
        d'.linkCount = d.linkCount ∧ (kind ≠ .directory → d' = d ∧ fs = []) ∧
        (M.alone → DotsLog id fs) ∧ (∀ u, r = .ok u → kind = .directory → HasDots M B p d') := by
    split
    next hk =>
      refine (safe_linkDots hB hpc hdev hL hes hempty).mono ?_
      rintro r L' - ⟨d', fs, hL', ht, hlc, hlog, hr⟩
      exact ⟨d', fs, hL', ht, hlc, fun h => absurd hk h, hlog, fun u hu _ => hr u hu⟩
    next hk =>
      exact fun _ => ⟨d, [], by simpa using hL, rfl, rfl, fun _ => ⟨rfl, rfl⟩,
        fun _ => dotsLog_nil, fun u hu h => absurd h hk⟩
  refine hfirst.bind ?_
  rintro (err | ⟨⟩) L₂ ⟨d', fs, hL₂, ht, hlc, hfile, hlog, hr⟩
  · refine fun _ => ⟨d', fs, hL₂, ht, hlc, fun ha => ⟨fs, [], by simp, hlog ha, fun hk => ?_,
      .inl rfl⟩⟩
    exact (hfile hk).2
  have hes₂ : M.alone → ∀ i d', Effect.inode i d' ∈ es ++ fs → i = id := by
    intro ha i d₀ hi
    obtain hi | hi := List.mem_append.mp hi
    · exact hes ha i d₀ hi
    · obtain ⟨_, _, h | ⟨_, h⟩⟩ := hlog ha _ hi <;> cases h
  refine safe_identify hL₂.count_pos (safe_of_fact fun hf => ?_)
  have hcp : 0 < L₂.count p := by
    have := hL₂.count p
    have := hB.count_pos
    omega
  have hpid : L₂.id p = B.id p := hL₂.ids p hB.count_pos
  have hheld : L₂.held p = some dp := by
    rw [hL₂.held, Function.update_of_ne hpc, hB.held_self]
  have hne : L₂.id p ≠ id := by rw [hpid]; exact hL₂.parent_ne hB hpc hf
  have hid : id = ⟨(L₂.id p).device, id.number⟩ := by rw [hpid, ← hdev]
  have hnum := hf.number c hL₂.count_pos
  rw [hL₂.newId] at hnum
  -- the parent has its two dot entries, so a name it does not have is neither
  have hdots : M.counted → (∀ j, j < slotCount dp.content → (slot dp.content j).inodeNumber ≠ 0 →
      (slot dp.content j).nameSlice ≠ name) → ¬IsDots name := by
    intro hcnt hnone
    have hform : DotForm dp.content := by
      refine hf.dotForm hcnt p dp hheld hB.directory (fun f hfr => ?_) ?_
      · rw [hL₂.fresh] at hfr
        cases hfr
        exact Ne.symm hne
      · rw [hL₂.dying, hB.tidy.dying]
        simp
    rintro (rfl | rfl)
    · exact hnone 0 (by have := hform.two; omega) hform.dot_live hform.dot_name
    · exact hnone 1 (by have := hform.two; omega) hform.dotDot_live hform.dotDot_name
  refine (safe_linkEntry (hL₂.tidy hB hes₂) hheld hB.directory hcp hL₂.count_pos
    (by rw [hL₂.newId]; exact hid) hL₂.newKind (fun _ _ => ⟨_, hL₂.fresh, hL₂.newId.symm⟩) ?_).bind ?_
  · intro hcnt hnone _
    have hname := hdots hcnt hnone
    refine ⟨fun h => absurd (.inl h) hname, fun h => absurd h hname, fun _ => ⟨?_, fun hk => ?_⟩⟩
    · rw [hL₂.pend hcnt, Function.update_of_ne hne]
      exact hB.pend hcnt _
    · rw [hL₂.newKind, Option.some.injEq, ht, hkind hcnt] at hk
      obtain ⟨h1, h2, h3⟩ := hr _ rfl hk hcnt
      exact ⟨d', hL₂.held_self, h1, by rw [h2, hpid], h3⟩
  rintro (err | ⟨⟩) L₃ hr₃
  · obtain ⟨log, hL₃, rfl | ⟨j, hj, rfl⟩⟩ := hr₃
    · have hsame := hL₂.grows hL₃ (List.append_nil _).symm
      rw [List.append_nil] at hsame
      exact fun _ => ⟨d', fs, hsame, ht, hlc, fun ha => ⟨fs, [], by simp, hlog ha,
        fun hk => (hfile hk).2, .inl rfl⟩⟩
    · have hmore := hL₂.grows hL₃ rfl
      rw [List.append_assoc, hpid] at hmore
      exact fun _ => ⟨d', _, hmore, ht, hlc, fun ha => ⟨fs, _, rfl, hlog ha,
        fun hk => (hfile hk).2, .inr ⟨_, rfl⟩⟩⟩
  obtain ⟨j, e, types, hj, -, -, hnone, hdead, hfit, hname, hnumber, htypes, rfl⟩ := hr₃
  have hlive : e.inodeNumber ≠ 0 := by rw [hnumber, hL₂.newId]; exact hnum.1.ne'
  have hide : id = ⟨(L₂.id p).device, e.inodeNumber⟩ := by rw [hnumber, hL₂.newId]; exact hid
  have hpend : M.counted → ∀ i, (L₂.enter p dp j e types).pend i =
      if kind = .directory ∧ i = L₂.id p then -1 else 0 := by
    intro hcnt i
    have htype : types id = kind := by
      rw [← hL₂.newId, htypes c _ hL₂.count_pos hL₂.newKind, ht, hkind hcnt]
    have hname' : ¬IsDots e.nameSlice := by rw [hname]; exact hdots hcnt hnone
    simp only [Local.enter, hL₂.pend hcnt]
    rw [Making.entryDemand_of_dots fun h => absurd (Making.slotOrEmpty_dead hdead) h]
    simp only [entryDemand, hlive, ne_eq, not_false_eq_true, hname', and_self, if_true, ← hide, htype]
    by_cases hi : i = id
    · subst hi
      simp [Ne.symm hne]
    · rw [Function.update_of_ne hi, hB.pend hcnt]
      by_cases hip : i = L₂.id p <;> by_cases hk : kind = .directory <;> simp [hi, hip, hk, hne]
  have hfresh₃ : (L₂.enter p dp j e types).fresh = none := by
    simp [Local.enter, hL₂.fresh, hlive, ← hide, Ne.symm hne]
  have hheld₃ : ∀ dp', Function.update L₂.held p (some dp') =
      Function.update (Function.update B.held p (some dp')) c (some d') := by
    intro dp'
    rw [hL₂.held, Function.update_comm hpc.symm]
  refine (safe_when (Q := fun _ L' => LinkedNew M B p c id kind d es (.ok ()) L')
    (fun hk => ?_) (fun hk _ => ?_)).bind fun _ L' hL' _ => hL'
  · refine safe_setLinkCount (d := { dp with content := splice dp.content (entrySize * j) e.toBytes })
      (by simp [Local.enter, Local.setHeld]) (hL₂.dying.trans hB.tidy.dying) fun hwrap => ?_
    refine ⟨{ dp with
        content := splice dp.content (entrySize * j) e.toBytes, linkCount := increment16 dp.linkCount },
      d', fs ++ [.entry (B.id p) (entrySize * j) (splice dp.content (entrySize * j) e.toBytes),
        .inode (B.id p) { dp with
          content := splice dp.content (entrySize * j) e.toBytes
          linkCount := increment16 dp.linkCount }],
      ?_, hB.directory, ht, fun h => absurd hk h, fun ha => ?_⟩
    · refine hL₂.entered hB rfl hfresh₃ ?_ (fun hcnt => ?_) fun ha => ?_
      · simp [Local.setInode, Local.enter, Local.setHeld, ← hheld₃]
      · funext i
        have hone : dp.linkCount ≠ 65535 := fun h => hwrap hcnt h (by simp [increment16, h])
        have hidp : (L₂.enter p dp j e types).id p = L₂.id p := rfl
        simp only [Local.setInode, Function.update_apply, hidp, hpend hcnt, hB.pend hcnt]
        by_cases hi : i = L₂.id p
        · simp [hi, hk, increment16, hone]
        · simp [hi]
      · simp [Local.setInode, Local.enter, Local.setHeld, hL₂.log ha, hpid]
    · exact ⟨fs, _, _, [_], rfl, hlog ha, fun h => absurd hk h, by simp⟩
  · refine ⟨{ dp with content := splice dp.content (entrySize * j) e.toBytes }, d',
      fs ++ [.entry (B.id p) (entrySize * j)
      (splice dp.content (entrySize * j) e.toBytes)], ?_, hB.directory, ht,
      fun h => (hfile h).1, fun ha => ⟨fs, _, _, [], rfl, hlog ha, fun h => ⟨(hfile h).2, rfl⟩, by simp⟩⟩
    refine hL₂.entered hB rfl hfresh₃ ?_ (fun hcnt => ?_) fun ha => ?_
    · simp only [Local.enter, Local.setHeld, hheld₃]
    · funext i
      rw [hpend hcnt, hB.pend hcnt]
      simp [hk]
    · simp [Local.enter, Local.setHeld, hL₂.log ha, hpid]

/-- What `alloc` leaves: a reference to a fresh inode, or nothing changed. -/
def Allocated (L : Local) (device : DeviceId) (type : InodeType) : Option Handle → Local → Prop
  | none, L' => L' = L
  | some c, L' => ∃ number,
      L' = { L with
        fresh := some ⟨⟨device, number⟩, type, true⟩
        log := L.log ++ [Effect.alloc ⟨device, number⟩ type] }.addRef c ⟨device, number⟩ ∧
      (0 < L.count c → L.id c = ⟨device, number⟩)

theorem safe_allocFrom {device : DeviceId} {type : InodeType} (htype : type ≠ .free)
    (hfresh : L.fresh = none) (hdying : L.dying = none) (count : ℕ) {number : ℕ} (hpos : 1 ≤ number)
    (hle : number + count ≤ M.ninodes) :
    M.typestate.Safe (Inode.allocFrom device type count number) L (Allocated L device type) := by
  induction count generalizing number with
  | zero => exact fun _ => rfl
  | succ count ih =>
    refine safe_op_bind (fun _ => ⟨htype, hfresh, hdying, hpos, by simp only; omega⟩) ?_
    rintro - r L₁ hr
    cases r with
    | false =>
      obtain rfl : L₁ = L := hr
      exact ih (by omega) (by omega)
    | true =>
      obtain rfl : L₁ = _ := hr
      have := M.ninodes_le
      refine safe_op_bind (fun _ => ⟨hpos, by simp only; omega, fun _ => .inr (.inl ⟨_, rfl, rfl⟩)⟩) ?_
      rintro - c L₂ ⟨rfl, hid⟩
      exact fun _ => ⟨number, rfl, hid⟩

theorem safe_alloc {device : DeviceId} {type : InodeType} (htype : type ≠ .free)
    (hfresh : L.fresh = none) (hdying : L.dying = none) :
    M.typestate.Safe (Inode.alloc device type) L (Allocated L device type) := by
  refine safe_op_bind (fun _ => trivial) ?_
  rintro - n L₁ ⟨rfl, rfl⟩
  by_cases hn : M.ninodes = 0
  · rw [hn]
    exact fun _ => rfl
  · exact safe_allocFrom htype hfresh hdying _ le_rfl (by omega)

/-- A fresh inode once it is locked. -/
theorem Parent.making (hB : Parent M B p dp) (hzero : B.count c = 0) :
    Making M B c id kind d 0 [Effect.alloc id kind]
      (({ B with
          fresh := some ⟨id, kind, true⟩
          log := B.log ++ [Effect.alloc id kind] }.addRef c id).acquire c d) where
  count g := by
    by_cases hg : g = c
    · subst hg
      simp [Local.acquire, Local.addRef]
    · simp [Local.acquire, Local.addRef, hg]
  ids g hg := by
    have hgc : g ≠ c := by
      rintro rfl
      omega
    simp [Local.acquire, Local.addRef, hgc]
  newId := by simp [Local.acquire, Local.addRef]
  kinds g k hg hk := by
    have hgc : g ≠ c := by
      rintro rfl
      omega
    simp [Local.acquire, Local.addRef, hgc, hk]
  newKind := by simp [Local.acquire]
  held := rfl
  dying := rfl
  fresh := by simp [Local.acquire, Local.addRef]
  pend hcnt := by
    funext i
    simp [Local.acquire, Local.addRef, Function.update_apply, hB.pend hcnt]
  fileRefs := rfl
  newFile := rfl
  lent := rfl
  taken := rfl
  cwdTaken := rfl
  adopted := rfl
  zombie := rfl
  inOperation := rfl
  log _ := rfl

/-- The changes of `createNew`: a new inode, entered in its parent. -/
def NewLog (parent : InodeId) (kind : InodeType) (device : DeviceId) (es : List Effect) : Prop :=
  ∃ id fs, id ≠ parent ∧ LinkedLog parent id kind fs ∧
    es = .alloc id kind :: .inode id ⟨device, [], kind, 1⟩ :: fs

/-- The changes of `createNew` that failed: nothing, or the new inode is freed again. -/
def FailedLog (parent : InodeId) (kind : InodeType) (device : DeviceId) (es : List Effect) : Prop :=
  es = [] ∨ ∃ id fs d₀ d₁, id ≠ parent ∧ UnlinkedLog parent id kind fs ∧ d₁.type = .free ∧
    es = .alloc id kind :: .inode id ⟨device, [], kind, 1⟩ ::
      (fs ++ [.inode id d₀, .truncate id, .inode id d₁])

/-- Unlocking and dropping an unlinked inode in the making leaves what was there before. -/
theorem Making.dropped (hL : Making M B c id kind d 0 es L) (hB : Parent M B p dp)
    (hzero : B.count c = 0) (hnone : B.held c = none)
    (hun : ∃ d, Effect.inode id d ∈ es ∧ d.linkCount = 0) (hL' : Dropped M (L.unlock c) c L') :
    ∃ d₁ : DiskInode, d₁.type = .free ∧
      B.Grows M 0 B.held (B.log ++ (es ++ [.truncate id, .inode id d₁])) L' := by
  have hone : L.count c = 1 := by simp [hL.count c, hzero]
  have hfresh : L.fresh.filter (fun f => ¬(f.id = L.id c ∧ L.count c = 1)) = B.fresh := by
    simp [hL.fresh, hB.fresh, hL.newId, hone]
  have hlent : L.lent.filter (· ≠ c) = B.lent := by
    simp [hL.lent, hB.tidy.lent]
  have hdrop : ∀ log, (M.alone → L.log = log) →
      B.Grows M 0 B.held log ((L.unlock c).dropRef c) := by
    intro log hlog
    constructor
    case count =>
      intro g
      by_cases hg : g = c
      · subst hg
        simp [Local.dropRef, Local.unlock, hone, hzero]
      · simp [Local.dropRef, Local.unlock, hL.count g, hg]
    case id => exact hL.ids
    case kind => exact hL.kinds
    case held =>
      simp only [Local.dropRef, Local.unlock, hL.held]
      exact update_update_none hnone
    case dying => exact hL.dying
    case fresh => exact hfresh
    case pend =>
      intro hcnt
      rw [← Function.update_eq_self id B.pend, hB.pend hcnt]
      exact hL.pend hcnt
    case lent => exact hlent
    case log => exact hlog
    all_goals first
      | exact hL.fileRefs
      | exact hL.newFile
      | exact hL.taken
      | exact hL.cwdTaken
      | exact hL.adopted
      | exact hL.zombie
      | exact hL.inOperation
  obtain ⟨d₀, hd₀, hz⟩ := hun
  have hunlinked : M.alone → (L.unlock c).Unlinked ((L.unlock c).id c) := by
    intro ha
    refine ⟨d₀, ?_, hz⟩
    change Effect.inode (L.id c) d₀ ∈ L.log
    rw [hL.log ha, hL.newId]
    exact List.mem_append_right _ hd₀
  rcases hL' with ⟨rfl, hfalse⟩ | ⟨-, -, d₁, -, rfl⟩
  · have halone : ¬M.alone := fun ha =>
      hfalse ha _ hL.fresh hL.newId.symm hone rfl (hunlinked ha)
    exact ⟨{ d with type := .free }, rfl, hdrop _ fun ha => absurd ha halone⟩
  · refine ⟨{ d₁ with content := [], type := .free }, rfl,
      { hdrop L.log (fun _ => rfl) with kind := fun g k hg hk => ?_, log := fun ha => ?_ }⟩
    · have hgc : g ≠ c := by
        rintro rfl
        omega
      simpa [hgc, Local.unlock] using hL.kinds g k hg hk
    · change L.log ++ [.truncate (L.id c), .inode (L.id c) { d₁ with content := [], type := .free }] = _
      rw [hL.log ha, hL.newId, List.append_assoc]

/-- What `createIn` leaves: the inode locked next to its parent, or nothing more than before. -/
def CreatedIn (M : Mode) (B : Local) (p : Handle) (kind : InodeType) (device : DeviceId) :
    Except SysFile.CreateError Handle → Local → Prop
  | .error _, L' => ∃ es, B.Grows M 0 B.held (B.log ++ es) L' ∧
      (M.alone → FailedLog (B.id p) kind device es)
  | .ok c, L' => c ≠ p ∧ ∃ dp' dc es, B.Grows M (Pi.single c 1)
        (Function.update (Function.update B.held p (some dp')) c (some dc)) (B.log ++ es) L' ∧
      dc.type ≠ .free ∧ (kind = .file → M.counted ∨ M.alone → dc.type ≠ .directory) ∧
      (M.alone → es = [] ∨ NewLog (B.id p) kind device es)

theorem safe_createNew (hB : Parent M B p dp) (name : Name) (hkind : kind ≠ .free)
    (device : DeviceId) :
    M.typestate.Safe (SysFile.createNew p name kind device) B (CreatedIn M B p kind device) := by
  refine safe_identify hB.count_pos ((safe_alloc hkind hB.fresh hB.tidy.dying).bind ?_)
  rintro (_ | c) L₁ hr
  · obtain rfl : L₁ = B := hr
    exact fun _ => ⟨[], by simpa using Local.Grows.refl M L₁, fun _ => .inl rfl⟩
  obtain ⟨number, rfl, -⟩ := hr
  set id : InodeId := ⟨(B.id p).device, number⟩ with hid
  refine safe_op_bind (fun _ => ⟨by simp [Local.addRef], hB.tidy.dying, fun _ g d hg => ?_⟩) ?_
  · have hg' : B.held g = some d := hg
    rw [hB.held] at hg'
    split at hg'
    · cases hg'
      exact ⟨hB.directory, .inr ⟨_, rfl, by simp [Local.addRef]⟩⟩
    · cases hg'
  rintro - - L₂ ⟨d, rfl, hnone, hfree, -, hpristine⟩
  have hnone : B.held c = none := hnone
  have hpc : p ≠ c := by
    rintro rfl
    rw [hB.held_self] at hnone
    cases hnone
  have hzero : B.count c = 0 := by
    by_contra h
    exact hpc (hB.owned c (by omega)).symm
  have hd : M.counted ∨ M.alone → d = { DiskInode.empty with type := kind } :=
    fun h => hpristine h _ rfl (by simp [Local.addRef]) rfl
  have hL₂ : Making M B c id kind d 0 [Effect.alloc id kind] _ := hB.making hzero
  have hdying := hL₂.dying.trans hB.tidy.dying
  refine safe_diskInode hL₂.held_self (safe_op_bind (fun _ => ⟨d, hL₂.held_self, rfl,
    .inl ⟨hdying, rfl⟩⟩) ?_)
  rintro - - L₃ ⟨d', hd', rfl, -⟩
  obtain rfl := Option.some.inj (hL₂.held_self.symm.trans hd')
  have hL₃ := hL₂.setInode { d with device := device, linkCount := 1 } rfl
  have hL₃ : Making M B c id kind { d with device := device, linkCount := 1 } 1
      ([Effect.alloc id kind] ++ [.inode id { d with device := device, linkCount := 1 }]) _ :=
    { hL₃ with pend := fun hcnt => by rw [hL₃.pend hcnt, hd (.inl hcnt)]; rfl }
  have hes : M.alone → ∀ i d', Effect.inode i d' ∈
      [Effect.alloc id kind] ++ [.inode id { d with device := device, linkCount := 1 }] → i = id := by
    intro _ i d' hi
    simp only [List.cons_append, List.nil_append, List.mem_cons, reduceCtorEq, Effect.inode.injEq,
      List.not_mem_nil, or_false, false_or] at hi
    exact hi.1
  refine safe_of_fact fun hf => ?_
  have hne := hL₃.parent_ne hB hpc hf
  have hdev : id.device = (B.id p).device := rfl
  refine (safe_linkNew hB hpc hdev hL₃ hes (fun h => by rw [hd h]; rfl)
    (fun h => by rw [hd (.inl h)]) name).bind ?_
  rintro (err | ⟨⟩) L₄ hr
  · obtain ⟨d', fs, hL₄, ht, hlc, hlog⟩ := hr
    have hdy₄ := hL₄.dying.trans hB.tidy.dying
    refine (safe_setLinkCount (Q := fun _ L' => L' = L₄.setInode c d' { d' with linkCount := 0 })
      hL₄.held_self hdy₄ fun _ => rfl).bind ?_
    rintro - L₅ rfl
    have hL₅ := hL₄.setInode { d' with linkCount := 0 } rfl
    unfold Inode.releasePut
    rw [bind_assoc]
    refine safe_op_bind (fun _ => ⟨by simp [hL₅.held_self], hL₅.dying.trans hB.tidy.dying⟩) ?_
    rintro - - L₆ rfl
    refine (safe_put fun _ => ?_).bind fun _ L' hL' _ => ?_
    · refine ⟨hL₅.count_pos, hL₅.dying.trans hB.tidy.dying, fun h => absurd ?_ h, ?_, fun hcnt _ => ?_⟩
      · simp [Local.unlock]
      · simp [Local.unlock, hL₅.lent.trans hB.tidy.lent]
      · change (L₄.setInode c d' { d' with linkCount := 0 }).pend (L₄.id c) = 0
        rw [hL₅.pend hcnt, hL₄.newId, Function.update_self, hlc]
        rfl
    · have hL₅ : Making M B c id kind { d' with linkCount := 0 } 0 _ _ :=
        { hL₅ with pend := fun hcnt => by rw [hL₅.pend hcnt, hlc]; rfl }
      obtain ⟨d₁, hd₁, hgrows⟩ := hL₅.dropped hB hzero hnone ⟨{ d' with linkCount := 0 }, by simp⟩ hL'
      refine ⟨_, hgrows, fun ha => .inr ⟨id, fs, { d' with linkCount := 0 }, d₁, Ne.symm hne,
        hlog ha, hd₁, ?_⟩⟩
      simp [hd (.inr ha), DiskInode.empty]
  · obtain ⟨dp', d', fs, hL₄, -, ht, hfile, hlog⟩ := hr
    refine fun _ => ⟨Ne.symm hpc, dp', d', _, hL₄, by rw [ht]; exact hfree, fun hk hm => ?_,
      fun ha => .inr ⟨id, fs, Ne.symm hne, hlog ha, ?_⟩⟩
    · rw [ht, hd hm, hk]
      simp
    · simp [hd (.inr ha), DiskInode.empty]

theorem safe_createIn (hheld : B.held p = some dp) (hB : dp.type = .directory → Parent M B p dp)
    {name : Name} (hname : M.orderly → ¬IsDots name) (hkind : kind ≠ .free) (device : DeviceId) :
    M.typestate.Safe (SysFile.createIn p name kind device) B (CreatedIn M B p kind device) := by
  refine (safe_init (Q := fun _ L' => L' = B ∧ dp.type = .directory) hheld
    fun h => ⟨rfl, h⟩).bind ?_
  rintro - L₁ ⟨rfl, hdir⟩
  have hB := hB hdir
  refine (safe_lookupChild hheld hdir hB.count_pos).bind ?_
  rintro (_ | ⟨c, offset⟩) L₂ hr
  · obtain ⟨rfl, -⟩ := hr
    exact safe_createNew hB name hkind device
  obtain ⟨j, hj, -, hlive, hslot, rfl, hid⟩ := hr
  have hL₂ := (Local.Grows.refl M L₁).addRef hid
  rw [zero_add] at hL₂
  refine safe_op_bind (fun _ => ⟨by simp [Local.addRef], hB.tidy.dying, fun ho g d hg => ?_⟩) ?_
  · have hg' : L₁.held g = some d := hg
    rw [hB.held] at hg'
    split at hg'
    next hgp =>
      cases hg'
      subst hgp
      refine ⟨hdir, .inl ⟨j, ⟨hj, hlive, by rw [hslot]; exact hname ho⟩, ?_⟩⟩
      by_cases hgc : g = c
      · subst hgc
        simp only [Local.addRef, Function.update_self]
      · simp [Local.addRef, hgc]
    · cases hg'
  rintro - - L₃ ⟨d, rfl, hnone, hfree, hkinds, -⟩
  have hnone' : L₁.held c = none := hnone
  have hcp : c ≠ p := by
    rintro rfl
    rw [hheld] at hnone'
    cases hnone'
  have hL₃ := hL₂.acquire (d := d) hkinds fun f hf => by rw [hB.fresh] at hf; cases hf
  have hd : ((L₁.addRef c ⟨(L₁.id p).device, (slot dp.content j).inodeNumber⟩).acquire c d).held c =
      some d := by simp [Local.acquire]
  refine safe_diskInode hd ?_
  split
  next hfile =>
    refine fun _ => ⟨hcp, dp, d, [], ?_, hfree, fun _ _ hdir => ?_, fun _ => .inl rfl⟩
    · have : Function.update L₁.held p (some dp) = L₁.held := by rw [← hheld, Function.update_eq_self]
      simpa [this] using hL₃
    · rw [hdir] at hfile
      simp at hfile
  next =>
    refine (safe_releasePut (c := 0) hB.tidy (by simpa using hL₃) (by simp)).bind ?_
    rintro - L₄ ⟨fs, hL₄, hfs, hown⟩
    rw [update_update_none hnone'] at hL₄
    refine fun _ => ⟨fs, hL₄, fun ha => ?_⟩
    obtain hnil | ⟨hmay, -⟩ := hfs ha
    · exact .inl hnil
    · exact .inl (hown (hB.tidy.mayFree ha _ hmay))

/-- What `create` leaves of a call that held nothing; `parent` is the directory
whose lock and reference it has given up at the end. -/
def Created (M : Mode) (L₀ : Local) (kind : InodeType) (device : DeviceId) :
    Except SysFile.CreateError Handle → Local → Prop
  | .error _, L' => ∃ parent es fs, L₀.Grows M 0 L₀.held (es ++ fs) L' ∧
      (M.alone → FailedLog parent kind device es ∧ FreedLog none parent es fs)
  | .ok c, L' => ∃ parent dc es fs, L₀.Grows M (Pi.single c 1)
        (Function.update L₀.held c (some dc)) (es ++ fs) L' ∧ dc.type ≠ .free ∧
      (kind = .file → M.counted ∨ M.alone → dc.type ≠ .directory) ∧
      (M.alone → (es = [] ∨ NewLog parent kind device es) ∧ FreedLog none parent es fs)

/-- A directory that is all a call owns and has locked. -/
theorem Clear.parent {L₀ : Local} (hL₀ : Clear M L₀)
    (hB : L₀.Grows M (Pi.single p 1) (Function.update L₀.held p (some dp)) L₀.log B)
    (hdir : dp.type = .directory) : Parent M B p dp := by
  have hcount : ∀ g, B.count g = (Pi.single p 1 : Handle → ℕ) g := fun g => by
    simp [hB.count g, hL₀.count g]
  have hheld : ∀ g, B.held g = if g = p then some dp else none := fun g => by
    rw [hB.held, Function.update_apply, hL₀.held]
  refine ⟨⟨fun g hg => ?_, hB.dying.trans hL₀.dying, hB.lent.trans hL₀.lent, fun f hf => ?_,
    fun hcnt i hi => ?_, fun ha i hi => ?_⟩, hheld, fun g hg => ?_, hB.fresh.trans hL₀.fresh,
    fun hcnt i => ?_, hdir⟩
  · rw [hheld] at hg
    obtain rfl : g = p := by
      by_contra h
      exact hg (if_neg h)
    simp [hcount g]
  · rw [hB.fresh, hL₀.fresh] at hf
    cases hf
  · rw [hB.pend hcnt] at hi
    exact absurd (hL₀.pend hcnt i) hi
  · obtain ⟨d, hd, -⟩ | had := hi
    · rw [hB.log ha, hL₀.log] at hd
      cases hd
    · rw [hB.adopted, hL₀.adopted] at had
      cases had
  · by_contra h
    simp [hcount g, h] at hg
  · rw [hB.pend hcnt]
    exact hL₀.pend hcnt i

/-- The last element of a path is "." or "..". -/
def EndsInDots (path : List UInt8) : Prop :=
  ∃ name, (name, []) ∈ pathElements path ∧ IsDots name

theorem safe_create {L₀ : Local} (hL₀ : Clear M L₀) {path : List UInt8}
    (hpath : M.orderly → ¬EndsInDots path) (hkind : kind ≠ .free) (device : DeviceId) :
    M.typestate.Safe (SysFile.create path kind device) L₀ (Created M L₀ kind device) := by
  have hT := hL₀.tidy
  refine (safe_resolvePathHelper hT hL₀.held hL₀.fresh hL₀.cwdTaken path).bind ?_
  rintro (_ | ⟨p, name⟩) L₁ hL₁
  · refine fun _ => ⟨.root, [], [], ?_, fun _ => ⟨.inl rfl, .inl rfl⟩⟩
    have hL₁ : L₀.Grows M 0 L₀.held L₀.log L₁ := hL₁
    simpa [hL₀.log] using hL₁
  obtain ⟨hL₁, hlast⟩ := hL₁
  have hcount : ∀ g, L₁.count g = (Pi.single p 1 : Handle → ℕ) g := fun g => by
    simp [hL₁.count g, hL₀.count g]
  have hp : 0 < L₁.count p := by simp [hcount p]
  refine safe_op_bind (fun _ => ⟨hp, hL₁.dying.trans hL₀.dying, fun _ g d hg => ?_⟩) ?_
  · rw [hL₁.held, hL₀.held g] at hg
    cases hg
  rintro - - B ⟨dp, rfl, -, -, hkinds, -⟩
  have hB := hL₁.acquire hkinds fun f hf => by rw [hL₀.fresh] at hf; cases hf
  have hheld : (L₁.acquire p dp).held p = some dp := by simp [Local.acquire]
  have hlog : M.alone → ∀ es, (L₁.acquire p dp).log ++ es = es := fun ha es => by
    rw [hB.log ha, hL₀.log, List.nil_append]
  have hname : M.orderly → ¬IsDots name := fun ho h => hpath ho ⟨name, hlast rfl, h⟩
  refine (safe_createIn hheld (hL₀.parent hB) hname hkind device).bind ?_
  rintro (err | c) L₃ hr
  · obtain ⟨es, hG, hes⟩ := hr
    have hL₃ := (hB.trans hG).log_congr fun ha => hlog ha es
    rw [add_comm] at hL₃
    refine (safe_releasePut hT hL₃ (by simp [hheld])).bind ?_
    rintro - L₄ ⟨fs, hL₄, hfs, -⟩
    rw [hB.held, update_update_none (hL₀.held p)] at hL₄
    rw [hG.id p hp, hL₀.adopted] at hfs
    exact fun _ => ⟨_, es, fs, hL₄, fun ha => ⟨hes ha, hfs ha⟩⟩
  · obtain ⟨hcp, dp', dc, es, hG, hfree, hfile, hes⟩ := hr
    have hL₃ := (hB.trans hG).log_congr fun ha => hlog ha es
    rw [add_comm] at hL₃
    refine (safe_releasePut hT hL₃ (by simp [Ne.symm hcp])).bind ?_
    rintro - L₄ ⟨fs, hL₄, hfs, -⟩
    rw [hB.held, Function.update_idem, Function.update_comm hcp, update_update_none (hL₀.held p)] at hL₄
    rw [hG.id p hp, hL₀.adopted] at hfs
    exact fun _ => ⟨_, dc, es, fs, hL₄, hfree, hfile, fun ha => ⟨hes ha, hfs ha⟩⟩

end

end Zigmaos.FileSystem
