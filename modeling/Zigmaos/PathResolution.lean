import Zigmaos.SysFile
import Mathlib.Data.List.TakeWhile

/-!
# Resolving a path

`skipPathElement` gives the components of a path one by one, and
`resolvePathHelper` looks them up one after the other. On a tree that nobody
changes the result is the fold of the lookups, and only the count of the inode
that is returned goes up.
-/
namespace Zigmaos.FileSystem
open Program DirectoryContent

/-! ## Components -/

/-- The maximal runs of bytes that are not slashes. -/
def components (path : List UInt8) : List Name := (path.splitOn slash).filter (· ≠ [])

theorem components_nil : components [] = [] := by simp [components]

theorem components_slash (path : List UInt8) : components (slash :: path) = components path := by
  unfold components
  have h := List.splitOn_append_cons_self (a := slash) [] path
  rw [List.nil_append, List.splitOn_nil] at h
  rw [h]
  simp

theorem components_dropSlashes (path : List UInt8) :
    components (path.dropWhile (· = slash)) = components path := by
  induction path with
  | nil => rfl
  | cons c path ih =>
    by_cases hc : c = slash
    · rw [List.dropWhile_cons_of_pos (by simpa using hc), ih, hc, components_slash]
    · rw [List.dropWhile_cons_of_neg (by simpa using hc)]

/-- The first component, up to a slash or the end. -/
theorem components_run {name : Name} (hne : name ≠ []) (hname : slash ∉ name)
    {rest : List UInt8} (hrest : rest = [] ∨ ∃ r, rest = slash :: r) :
    components (name ++ rest) = name :: components rest := by
  obtain rfl | ⟨r, rfl⟩ := hrest
  · rw [List.append_nil, components_nil, components, List.splitOn_eq_singleton hname]
    simp [hne]
  · rw [components_slash, components,
      List.splitOn_append_cons_self, List.splitOn_eq_singleton hname]
    simp [components, hne]

theorem dropWhile_head {p : UInt8 → Bool} (l : List UInt8) :
    l.dropWhile p = [] ∨ ∃ c r, l.dropWhile p = c :: r ∧ p c = false := by
  induction l with
  | nil => exact .inl rfl
  | cons c l ih =>
    by_cases hc : p c = true
    · rw [List.dropWhile_cons_of_pos hc]
      exact ih
    · rw [List.dropWhile_cons_of_neg hc]
      exact .inr ⟨c, l, rfl, by simpa using hc⟩

/-- The path has no leading slashes. -/
def Stripped (path : List UInt8) : Prop := path = [] ∨ ∃ c r, path = c :: r ∧ c ≠ slash

theorem stripped_dropSlashes (path : List UInt8) : Stripped (path.dropWhile (· = slash)) := by
  obtain h | ⟨c, r, h, hc⟩ := dropWhile_head (p := (· = slash)) path
  · exact .inl h
  · exact .inr ⟨c, r, h, by simpa using hc⟩

theorem skipPathElement_none {path : List UInt8} (h : skipPathElement path = none) :
    components path = [] := by
  unfold skipPathElement at h
  split at h
  next hd => rw [← components_dropSlashes, hd, components_nil]
  · cases h

/-- `skipPathElement` takes the first component and leaves the others. -/
theorem skipPathElement_some {path rest : List UInt8} {name : Name}
    (h : skipPathElement path = some (name, rest)) :
    components path = name :: components rest ∧ Stripped rest ∧ rest.length < path.length := by
  unfold skipPathElement at h
  split at h
  · cases h
  next c r hd =>
    obtain ⟨rfl, rfl⟩ := Prod.mk.inj (Option.some.inj h)
    have hlen := (List.dropWhile_suffix (l := path) (· = slash)).length_le
    have hhead := (stripped_dropSlashes path).resolve_left (by rw [hd]; exact nofun)
    obtain ⟨c', r', hcr, hc⟩ := hhead
    rw [hd] at hcr hlen
    cases hcr
    have hsplit := List.takeWhile_append_dropWhile (p := (· ≠ slash)) (l := c :: r)
    have hname : (c :: r).takeWhile (· ≠ slash) ≠ [] := by
      rw [List.takeWhile_cons_of_pos (by simpa using hc)]
      exact List.cons_ne_nil _ _
    have hslash : slash ∉ (c :: r).takeWhile (· ≠ slash) := by
      intro hm
      have := List.mem_takeWhile_imp hm
      simp at this
    have hrest : (c :: r).dropWhile (· ≠ slash) = [] ∨
        ∃ t, (c :: r).dropWhile (· ≠ slash) = slash :: t := by
      obtain he | ⟨d, t, ht, hd⟩ := dropWhile_head (p := (· ≠ slash)) (c :: r)
      · exact .inl he
      · exact .inr ⟨t, by rw [ht, show d = slash by simpa using hd]⟩
    refine ⟨?_, stripped_dropSlashes _, ?_⟩
    · rw [components_dropSlashes, ← components_dropSlashes path, hd]
      conv_lhs => rw [← hsplit]
      exact components_run hname hslash hrest
    · have h₁ := (List.dropWhile_suffix (l := (c :: r).dropWhile (· ≠ slash)) (· = slash)).length_le
      have h₂ := congrArg List.length hsplit
      have h₃ := List.length_pos_iff.mpr hname
      rw [List.length_append] at h₂
      omega

/-- The elements with the paths after them: the last is the one that leaves nothing. -/
def Chained : List (Name × List UInt8) → Prop
  | [] => True
  | (_, rest) :: elements => (rest = [] ↔ elements = []) ∧ Chained elements

theorem elementsFrom_spec (fuel : ℕ) (path : List UInt8) (h : path.length ≤ fuel) :
    (elementsFrom fuel path).map Prod.fst = components path ∧ Chained (elementsFrom fuel path) := by
  induction fuel generalizing path with
  | zero =>
    obtain rfl := List.length_eq_zero_iff.mp (Nat.le_zero.mp h)
    exact ⟨components_nil.symm, trivial⟩
  | succ fuel ih =>
    rw [elementsFrom]
    cases hs : skipPathElement path with
    | none => exact ⟨(skipPathElement_none hs).symm, trivial⟩
    | some x =>
      obtain ⟨name, rest⟩ := x
      obtain ⟨hcomp, hstripped, hlen⟩ := skipPathElement_some hs
      obtain ⟨hnames, hchained⟩ := ih rest (by omega)
      refine ⟨by rw [List.map_cons, hnames, hcomp], ⟨?_, ?_⟩, hchained⟩
      · rintro rfl
        cases fuel <;> rfl
      · intro he
        obtain hnil | ⟨c, r, hcr, hc⟩ := hstripped
        · exact hnil
        · rw [he, List.map_nil] at hnames
          have hskip : skipPathElement rest ≠ none := by
            unfold skipPathElement
            rw [hcr, List.dropWhile_cons_of_neg (by simpa using hc)]
            exact nofun
          cases hr : skipPathElement rest with
          | none => exact absurd hr hskip
          | some y =>
            have := (skipPathElement_some hr).1
            rw [← hnames] at this
            cases this

theorem pathElements_spec (path : List UInt8) :
    (pathElements path).map Prod.fst = components path ∧ Chained (pathElements path) :=
  elementsFrom_spec path.length path le_rfl

/-! ## Lookups on a tree -/

variable {π : Type}

/-- The inode that `lookupChild` finds in a directory. -/
def child (disk : InodeId → DiskInode) (directory : InodeId) (name : Name) : Option InodeId :=
  match findEntry Panic.dirlookupReadFailed .dirlookupShortRead (disk directory).content name with
  | .ok (some (_, entry)) => some ⟨directory.device, entry.inodeNumber⟩
  | _ => none

/-- `child` where it is a directory. -/
def lookup (disk : InodeId → DiskInode) (id : InodeId) (name : Name) : Option InodeId :=
  if (disk id).type = .directory then child disk id name else none

/-- The fold of the lookups over the names. -/
def resolve (disk : InodeId → DiskInode) (start : InodeId) (names : List Name) : Option InodeId :=
  names.foldlM (lookup disk) start

/-- Where a path starts. -/
def startOf (s : Kernel π) (p : π) (path : List UInt8) : InodeId :=
  if path.head? = some slash then .root
  else (s.table (s.processes p).currentWorkingDirectory).id

/-- An inode that no `put` frees: it has links, or somebody refers to it. -/
def Lasting (s : Kernel π) (id : InodeId) : Prop :=
  (s.disk id).type ≠ .free ∧
    ((s.disk id).linkCount ≠ 0 ∨ ∃ h, 0 < (s.table h).referenceCount ∧ (s.table h).id = id)

/-- The file system below the root and the current directory. -/
structure Tree (s : Kernel π) (p : π) : Prop where
  coherent : ∀ h, 0 < (s.table h).referenceCount → (s.table h).isValid = true →
    (s.table h).diskInode = s.disk (s.table h).id
  cwd : 0 < (s.table (s.processes p).currentWorkingDirectory).referenceCount
  root : Lasting s .root
  start : Lasting s (s.table (s.processes p).currentWorkingDirectory).id
  aligned : ∀ id, Lasting s id → (s.disk id).type = .directory →
    Aligned (s.disk id).content ∧ (s.disk id).content.length < 4294967296
  child : ∀ id name c, Lasting s id → lookup s.disk id name = some c → Lasting s c

/-- What a resolution that started in `s₀` has done to the inode table: it refers
to the entries in `held`, and holds the lock of one of them. -/
structure Walk (p : π) (s₀ s : Kernel π) (held : List Handle) (locked : Option Handle) : Prop where
  refs : ∀ h, (s.table h).referenceCount = (s₀.table h).referenceCount + held.count h
  id : ∀ h, 0 < (s₀.table h).referenceCount → (s.table h).id = (s₀.table h).id
  fresh : ∀ g ∈ held, (s₀.table g).referenceCount = 0 →
    ∀ h, 0 < (s₀.table h).referenceCount → (s₀.table h).id ≠ (s.table g).id
  coherent : ∀ h, 0 < (s.table h).referenceCount → (s.table h).isValid = true →
    (s.table h).diskInode = s₀.disk (s.table h).id
  holder : ∀ h, (s.table h).holder = if locked = some h then some p else (s₀.table h).holder
  free : ∀ h, locked = some h → (s₀.table h).holder = none
  rest : s = { s₀ with table := s.table }

section Operations
variable [DecidableEq π] {p : π} {s₀ s : Kernel π} {held : List Handle} {locked : Option Handle}

omit [DecidableEq π] in
@[simp] theorem setEntry_table (s : Kernel π) (h g : Handle) (e : Inode π) :
    (s.setEntry h e).table g = if g = h then e else s.table g := by
  simp [Kernel.setEntry, Function.update_apply]

omit [DecidableEq π] in
theorem Walk.disk (hw : Walk p s₀ s held locked) : s.disk = s₀.disk := by
  rw [hw.rest]

omit [DecidableEq π] in
theorem Walk.setEntry_rest (hw : Walk p s₀ s held locked) (h : Handle) (e : Inode π) :
    s.setEntry h e = { s₀ with table := (s.setEntry h e).table } := by
  rw [hw.rest]
  rfl

omit [DecidableEq π] in
theorem get_cases (s : Kernel π) (id : InodeId) :
    (∃ h, 0 < (s.table h).referenceCount ∧ (s.table h).id = id ∧ s.get id = .done h (s.setEntry h
      { s.table h with referenceCount := (s.table h).referenceCount + 1 })) ∨
    (∀ g, 0 < (s.table g).referenceCount → (s.table g).id ≠ id) ∧
      ((∃ h, (s.table h).referenceCount = 0 ∧ s.get id = .done h (s.setEntry h
        { s.table h with id := id, referenceCount := 1, isValid := false })) ∨
      (∀ h, 0 < (s.table h).referenceCount) ∧ s.get id = .stop .noInodesAvailable s) := by
  cases hfind : (List.finRange nInode).find?
      (fun h => 0 < (s.table h).referenceCount ∧ (s.table h).id = id) with
  | some h =>
    have hf := List.find?_some hfind
    obtain ⟨hpos, hid⟩ := of_decide_eq_true hf
    exact .inl ⟨h, hpos, hid, by rw [Kernel.get, hfind]⟩
  | none =>
    refine .inr ⟨fun g hg he => ?_, ?_⟩
    · exact List.find?_eq_none.mp hfind g (List.mem_finRange g) (decide_eq_true ⟨hg, he⟩)
    cases hfree : (List.finRange nInode).find? (fun h => (s.table h).referenceCount = 0) with
    | some h =>
      have hf := List.find?_some hfree
      have hzero := of_decide_eq_true hf
      exact .inl ⟨h, hzero, by simp only [Kernel.get, hfind, hfree]⟩
    | none =>
      refine .inr ⟨fun h => ?_, by simp only [Kernel.get, hfind, hfree]⟩
      have := List.find?_eq_none.mp hfree h (List.mem_finRange h)
      simpa [Nat.pos_iff_ne_zero] using this

omit [DecidableEq π] in
/-- The entries of the table that a walk keeps. -/
theorem Walk.start (hc : ∀ h, 0 < (s₀.table h).referenceCount → (s₀.table h).isValid = true →
    (s₀.table h).diskInode = s₀.disk (s₀.table h).id) : Walk p s₀ s₀ [] none where
  refs := fun _ => rfl
  id := fun _ _ => rfl
  fresh := nofun
  coherent := hc
  holder := fun _ => by simp
  free := nofun
  rest := rfl

omit [DecidableEq π] in
/-- One more reference to an entry that is in use. -/
theorem Walk.reference (hw : Walk p s₀ s held locked) {h : Handle}
    (hpos : 0 < (s.table h).referenceCount) :
    Walk p s₀ (s.setEntry h { s.table h with referenceCount := (s.table h).referenceCount + 1 })
      (h :: held) locked := by
  have hid (g : Handle) : ((s.setEntry h { s.table h with
      referenceCount := (s.table h).referenceCount + 1 }).table g).id = (s.table g).id := by
    rw [setEntry_table]
    split
    next hg => rw [hg]
    · rfl
  refine ⟨fun g => ?_, fun g hg => (hid g).trans (hw.id g hg), fun g hg hz k hk => ?_,
    fun g hg hv => ?_, fun g => ?_, hw.free, hw.setEntry_rest _ _⟩
  · rw [setEntry_table, List.count_cons]
    have := hw.refs g
    split
    next hg =>
      subst hg
      simp only [beq_self_eq_true, if_true]
      omega
    next hg =>
      simp only [beq_iff_eq, if_neg (Ne.symm hg)]
      omega
  · rw [hid]
    obtain rfl | hg := List.mem_cons.mp hg
    · refine hw.fresh g ?_ hz k hk
      have := hw.refs g
      exact List.count_pos_iff.mp (by omega)
    · exact hw.fresh g hg hz k hk
  · rw [setEntry_table] at hg hv ⊢
    split
    next he =>
      rw [if_pos he] at hv
      exact hw.coherent h hpos hv
    next he =>
      rw [if_neg he] at hg hv
      exact hw.coherent g hg hv
  · rw [setEntry_table]
    split
    next he =>
      subst he
      exact hw.holder g
    · exact hw.holder g

omit [DecidableEq π] in
/-- `get` of the inode: it is found, or it takes an entry that is not in use. -/
theorem Walk.get (hw : Walk p s₀ s held locked) (id : InodeId) :
    (∃ h s', s.get id = .done h s' ∧ Walk p s₀ s' (h :: held) locked ∧ (s'.table h).id = id ∧
      ∀ g ∈ held, (s'.table g).id = (s.table g).id) ∨
    s.get id = .stop .noInodesAvailable s ∧
      ∀ h, 0 < (s₀.table h).referenceCount + held.count h := by
  obtain ⟨h, hpos, hid, heq⟩ | ⟨habsent, ⟨h, hzero, heq⟩ | ⟨hfull, heq⟩⟩ := get_cases s id
  · refine .inl ⟨h, _, heq, hw.reference hpos, by simpa using hid, fun g _ => ?_⟩
    rw [setEntry_table]
    split
    next he => rw [he]
    · rfl
  · have hcount := hw.refs h
    have hne (g : Handle) (hg : 0 < (s.table g).referenceCount) : g ≠ h := by
      rintro rfl
      omega
    have hin (g : Handle) (hg : g ∈ held) : g ≠ h := by
      refine hne g ?_
      have := hw.refs g
      have := List.count_pos_iff.mpr hg
      omega
    refine .inl ⟨h, _, heq, ⟨fun g => ?_, fun g hg => ?_, fun g hg hz k hk => ?_,
      fun g hg hv => ?_, fun g => ?_, hw.free, hw.setEntry_rest _ _⟩, by simp,
      fun g hg => by simp [hin g hg]⟩
    · rw [setEntry_table, List.count_cons]
      have := hw.refs g
      by_cases he : g = h
      · subst he
        simp only [if_true, beq_self_eq_true]
        omega
      · simp only [if_neg he, beq_iff_eq, if_neg (Ne.symm he)]
        omega
    · have hg' : g ≠ h := by
        rintro rfl
        omega
      rw [setEntry_table, if_neg hg']
      exact hw.id g hg
    · have hk' : 0 < (s.table k).referenceCount := by
        rw [hw.refs k]
        omega
      rw [setEntry_table]
      obtain rfl | hg := List.mem_cons.mp hg
      · rw [if_pos rfl, ← hw.id k hk]
        exact habsent k hk'
      · rw [if_neg (hin g hg)]
        exact hw.fresh g hg hz k hk
    · rw [setEntry_table] at hg hv ⊢
      by_cases he : g = h
      · rw [if_pos he] at hv
        cases hv
      · rw [if_neg he] at hg hv ⊢
        exact hw.coherent g hg hv
    · rw [setEntry_table]
      by_cases he : g = h
      · subst he
        rw [if_pos rfl]
        exact hw.holder g
      · rw [if_neg he]
        exact hw.holder g
  · refine .inr ⟨heq, fun h => ?_⟩
    rw [← hw.refs h]
    exact hfull h

omit [DecidableEq π] in
/-- `lock` of an entry that the walk refers to. -/
theorem Walk.lock (hw : Walk p s₀ s held none) {cur : Handle} (hcur : cur ∈ held)
    (ht : (s₀.disk (s.table cur).id).type ≠ .free) :
    (∃ s', s.lock p cur = .done () s' ∧ Walk p s₀ s' held (some cur) ∧
      (s'.table cur).diskInode = s₀.disk (s.table cur).id ∧
      ∀ g, (s'.table g).id = (s.table g).id) ∨
    s.lock p cur = .block ∧ (s₀.table cur).holder ≠ none := by
  have hpos : 1 ≤ (s.table cur).referenceCount := by
    have := hw.refs cur
    have := List.count_pos_iff.mpr hcur
    omega
  have hholder : (s.table cur).holder = (s₀.table cur).holder := by simpa using hw.holder cur
  unfold Kernel.lock
  simp only [if_neg (show ¬ (s.table cur).referenceCount < 1 by omega), hholder]
  by_cases hfree : (s₀.table cur).holder = none
  swap
  · exact .inr ⟨if_pos hfree, hfree⟩
  left
  rw [if_neg (not_not.mpr hfree)]
  -- the entry after `lock` has the inode as it is on the disk
  have hwalk (e : Inode π) (hid : e.id = (s.table cur).id)
      (hrefs : e.referenceCount = (s.table cur).referenceCount) (hh : e.holder = some p)
      (hd : e.diskInode = s₀.disk (s.table cur).id) :
      Walk p s₀ (s.setEntry cur e) held (some cur) ∧
        ((s.setEntry cur e).table cur).diskInode = s₀.disk (s.table cur).id ∧
        ∀ g, ((s.setEntry cur e).table g).id = (s.table g).id := by
    have hids (g : Handle) : ((s.setEntry cur e).table g).id = (s.table g).id := by
      rw [setEntry_table]
      split
      next he => rw [hid, he]
      · rfl
    refine ⟨⟨fun g => ?_, fun g hg => (hids g).trans (hw.id g hg), fun g hg hz k hk => ?_,
      fun g hg hv => ?_, fun g => ?_, fun g hg => ?_, hw.setEntry_rest _ _⟩, by simpa using hd,
      hids⟩
    · rw [setEntry_table]
      split
      next he => rw [hrefs, he, hw.refs]
      · exact hw.refs g
    · rw [hids]
      exact hw.fresh g hg hz k hk
    · rw [hids]
      rw [setEntry_table] at hg hv ⊢
      by_cases he : g = cur
      · rw [if_pos he, he]
        exact hd
      · rw [if_neg he] at hg hv ⊢
        exact hw.coherent g hg hv
    · rw [setEntry_table]
      by_cases he : g = cur
      · rw [if_pos he, if_pos (by rw [he])]
        exact hh
      · rw [if_neg he, if_neg (fun h => he (Option.some.inj h).symm)]
        simpa using hw.holder g
    · obtain rfl := Option.some.inj hg
      exact hfree
  by_cases hv : (s.table cur).isValid = true
  · rw [if_pos hv]
    have hd := hw.coherent cur hpos hv
    exact ⟨_, rfl, hwalk _ rfl rfl rfl hd⟩
  · have ht' : (s.disk (s.table cur).id).type ≠ .free := by
      rw [hw.disk]
      exact ht
    rw [if_neg hv, if_neg ht']
    exact ⟨_, rfl, hwalk _ rfl rfl rfl (by rw [hw.disk])⟩

/-- `release` of the lock that the walk holds. -/
theorem Walk.release {cur : Handle} (hw : Walk p s₀ s held (some cur)) (hcur : cur ∈ held) :
    ∃ s', s.release p cur = .done () s' ∧ Walk p s₀ s' held none ∧
      ∀ g, (s'.table g).id = (s.table g).id := by
  have hpos : 1 ≤ (s.table cur).referenceCount := by
    have := hw.refs cur
    have := List.count_pos_iff.mpr hcur
    omega
  have hholder : (s.table cur).holder = some p := by simpa using hw.holder cur
  have hids (g : Handle) : ((s.setEntry cur { s.table cur with holder := none }).table g).id =
      (s.table g).id := by
    rw [setEntry_table]
    split
    next he => rw [he]
    · rfl
  refine ⟨s.setEntry cur { s.table cur with holder := none }, ?_,
    ⟨fun g => ?_, fun g hg => (hids g).trans (hw.id g hg), fun g hg hz k hk => ?_,
      fun g hg hv => ?_, fun g => ?_, nofun, hw.setEntry_rest _ _⟩, hids⟩
  · unfold Kernel.release
    simp only [hholder, ne_eq, not_true_eq_false, if_false]
    rw [if_neg (by omega)]
  · rw [setEntry_table]
    split
    next he => rw [he, hw.refs]
    · exact hw.refs g
  · rw [hids]
    exact hw.fresh g hg hz k hk
  · rw [hids]
    rw [setEntry_table] at hg hv ⊢
    by_cases he : g = cur
    · rw [if_pos he] at hg hv ⊢
      rw [he]
      exact hw.coherent cur hg hv
    · rw [if_neg he] at hg hv ⊢
      exact hw.coherent g hg hv
  · rw [setEntry_table]
    by_cases he : g = cur
    · rw [if_pos he, he]
      exact (hw.free cur rfl).symm
    · rw [if_neg he]
      have := hw.holder g
      rw [if_neg (fun h => he (Option.some.inj h).symm)] at this
      exact this

omit [DecidableEq π] in
/-- `put` drops the reference; the inode lasts, so that it is not freed. -/
theorem Walk.put (hw : Walk p s₀ s held none) {cur : Handle} (hcur : cur ∈ held)
    (hl : Lasting s₀ (s.table cur).id) :
    ∃ s', s.putBegin p cur = .done false s' ∧ Walk p s₀ s' (held.erase cur) none ∧
      ∀ g, (s'.table g).id = (s.table g).id := by
  have hcount := hw.refs cur
  have hin := List.count_pos_iff.mpr hcur
  have hkeep : ¬ ((s.table cur).referenceCount = 1 ∧ (s.table cur).isValid = true ∧
      (s.table cur).diskInode.linkCount = 0) := by
    rintro ⟨hone, hv, hlinks⟩
    rw [hw.coherent cur (by omega) hv] at hlinks
    obtain hne | ⟨k, hk, hid⟩ := hl.2
    · exact hne hlinks
    · exact hw.fresh cur hcur (by omega) k hk hid
  have hsub : sub32 (s.table cur).referenceCount 1 = (s.table cur).referenceCount - 1 :=
    sub32_of_le (by omega)
  have hids (g : Handle) : ((s.setEntry cur { s.table cur with
      referenceCount := sub32 (s.table cur).referenceCount 1 }).table g).id = (s.table g).id := by
    rw [setEntry_table]
    split
    next he => rw [he]
    · rfl
  refine ⟨s.setEntry cur { s.table cur with
      referenceCount := sub32 (s.table cur).referenceCount 1 }, ?_,
    ⟨fun g => ?_, fun g hg => (hids g).trans (hw.id g hg), fun g hg hz k hk => ?_,
      fun g hg hv => ?_, fun g => ?_, nofun, hw.setEntry_rest _ _⟩, hids⟩
  · unfold Kernel.putBegin
    simp only [if_neg hkeep]
  · rw [setEntry_table, List.count_erase]
    by_cases he : g = cur
    · subst he
      simp only [if_true, beq_self_eq_true, hsub]
      omega
    · simp only [if_neg he, beq_iff_eq, if_neg (Ne.symm he)]
      exact hw.refs g
  · rw [hids]
    exact hw.fresh g (List.mem_of_mem_erase hg) hz k hk
  · rw [hids]
    rw [setEntry_table] at hg hv ⊢
    by_cases he : g = cur
    · rw [if_pos he] at hg hv ⊢
      rw [he]
      exact hw.coherent cur (by omega) hv
    · rw [if_neg he] at hg hv ⊢
      exact hw.coherent g hg hv
  · rw [setEntry_table]
    by_cases he : g = cur
    · rw [if_pos he, he]
      exact hw.holder cur
    · rw [if_neg he]
      exact hw.holder g

/-! ## The programs -/

variable {α : Type} {Q : α → Kernel π → Prop} {E : Panic → Prop} {B : Prop}

theorem post_invoke_done {o : Op} {r : o.Result} {s' : Kernel π} {f : o.Result → Prog α}
    (hr : Kernel.perform p o s = .done r s') (hf : Post (Kernel.perform p) (f r) s' Q E B) :
    Post (Kernel.perform p) (invoke o >>= f) s Q E B := by
  change Post (Kernel.perform p) (Program.call (F := interface) o f) s Q E B
  rw [Post, run_call, hr]
  exact hf

theorem post_invoke_block {o : Op} {f : o.Result → Prog α}
    (hr : Kernel.perform p o s = .block) (hB : B) :
    Post (Kernel.perform p) (invoke o >>= f) s Q E B := by
  change Post (Kernel.perform p) (Program.call (F := interface) o f) s Q E B
  rw [Post, run_call, hr]
  exact hB

theorem post_invoke_stop {o : Op} {reason : Panic} {s' : Kernel π} {f : o.Result → Prog α}
    (hr : Kernel.perform p o s = .stop reason s') (hE : E reason) :
    Post (Kernel.perform p) (invoke o >>= f) s Q E B := by
  change Post (Kernel.perform p) (Program.call (F := interface) o f) s Q E B
  rw [Post, run_call, hr]
  exact hE

theorem Walk.post_put (hw : Walk p s₀ s held none) {cur : Handle} (hcur : cur ∈ held)
    (hl : Lasting s₀ (s.table cur).id) {f : Unit → Prog α}
    (hf : ∀ s', Walk p s₀ s' (held.erase cur) none → (∀ g, (s'.table g).id = (s.table g).id) →
      Post (Kernel.perform p) (f ()) s' Q E B) :
    Post (Kernel.perform p) (Inode.put cur >>= f) s Q E B := by
  obtain ⟨s', hput, hw', hids⟩ := hw.put hcur hl
  rw [Inode.put, Program.bind_assoc]
  exact post_invoke_done (o := .putBegin cur) hput (hf s' hw' hids)

theorem Walk.post_releasePut {cur : Handle} (hw : Walk p s₀ s held (some cur)) (hcur : cur ∈ held)
    (hl : Lasting s₀ (s.table cur).id) {f : Unit → Prog α}
    (hf : ∀ s', Walk p s₀ s' (held.erase cur) none → (∀ g, (s'.table g).id = (s.table g).id) →
      Post (Kernel.perform p) (f ()) s' Q E B) :
    Post (Kernel.perform p) (Inode.releasePut cur >>= f) s Q E B := by
  obtain ⟨s₁, hrelease, hw₁, hids₁⟩ := hw.release hcur
  rw [Inode.releasePut, Program.bind_assoc]
  refine post_invoke_done (o := .release cur) hrelease ?_
  refine hw₁.post_put hcur (by rw [hids₁]; exact hl) fun s' hw' hids => ?_
  exact hf s' hw' (fun g => (hids g).trans (hids₁ g))

/-- The lookup of a name in a directory that the walk has locked. -/
theorem Walk.post_lookupChild {cur : Handle} (ht : Tree s₀ p)
    (hw : Walk p s₀ s [cur] (some cur))
    (hd : (s.table cur).diskInode = s₀.disk (s.table cur).id)
    (hl : Lasting s₀ (s.table cur).id) (hdir : (s₀.disk (s.table cur).id).type = .directory)
    {name : Name} {f : Option (Handle × ℕ) → Prog α}
    (hnone : FileSystem.child s₀.disk (s.table cur).id name = none →
      Post (Kernel.perform p) (f none) s Q E B)
    (hsome : ∀ next offset s', Walk p s₀ s' [next, cur] (some cur) →
      (s'.table cur).id = (s.table cur).id →
      FileSystem.child s₀.disk (s.table cur).id name = some (s'.table next).id →
      Post (Kernel.perform p) (f (some (next, offset))) s' Q E B)
    (hE : (∃ g, ∀ h, h ≠ g → 0 < (s₀.table h).referenceCount) → E .noInodesAvailable) :
    Post (Kernel.perform p) (Directory.lookupChild cur name >>= f) s Q E B := by
  obtain ⟨haligned, hlength⟩ := ht.aligned _ hl hdir
  rw [Directory.lookupChild, Program.bind_assoc]
  refine post_invoke_done (o := .diskInode cur) rfl ?_
  rw [hd]
  have hchild : FileSystem.child s₀.disk (s.table cur).id name =
      match findEntry Panic.dirlookupReadFailed .dirlookupShortRead
        (s₀.disk (s.table cur).id).content name with
      | .ok (some (_, entry)) => some ⟨(s.table cur).id.device, entry.inodeNumber⟩
      | _ => none := rfl
  obtain ⟨r, hr⟩ := scan_total Panic.dirlookupReadFailed .dirlookupShortRead
    (fun e => e.inodeNumber ≠ 0 && e.matchesName name) haligned hlength
    (scanFuel (s₀.disk (s.table cur).id).content) 0 .empty
  obtain ⟨offset, entry, found⟩ := r
  rw [Nat.mul_zero] at hr
  cases found with
  | false =>
    have hfind : findEntry Panic.dirlookupReadFailed .dirlookupShortRead
        (s₀.disk (s.table cur).id).content name = .ok none := by
      rw [findEntry, hr]
    rw [hfind] at hchild ⊢
    exact hnone hchild
  | true =>
    have hfind : findEntry Panic.dirlookupReadFailed .dirlookupShortRead
        (s₀.disk (s.table cur).id).content name = .ok (some (offset, entry)) := by
      rw [findEntry, hr]
    rw [hfind] at hchild ⊢
    simp only [Program.bind_assoc]
    refine post_invoke_done (o := .identify cur) rfl ?_
    obtain ⟨next, s', hget, hw', hid, hids⟩ | ⟨hget, hfull⟩ :=
      hw.get ⟨(s.table cur).id.device, entry.inodeNumber⟩
    · refine post_invoke_done (o := .get _) hget ?_
      exact hsome next offset s' hw' (hids cur (List.mem_singleton_self cur)) (by rw [hchild, hid])
    · refine post_invoke_stop (o := .get _) hget (hE ⟨cur, fun h hne => ?_⟩)
      have := hfull h
      rw [List.count_singleton, beq_eq_false_iff_ne.mpr (Ne.symm hne)] at this
      simpa using this

/-- What the loop of `resolvePathHelper` comes to, and the last name. -/
def walkTarget (disk : InodeId → DiskInode) (returnParent : Bool) :
    InodeId → Name → List Name → Option (InodeId × Name)
  | id, name, [] => if returnParent then none else some (id, name)
  | id, _, name :: names =>
    if (disk id).type = .directory then
      if returnParent ∧ names = [] then some (id, name)
      else (FileSystem.child disk id name).bind fun c => walkTarget disk returnParent c name names
    else none

/-- The walk has come to what was expected, and refers to nothing else. -/
def Reached (p : π) (s₀ : Kernel π) (expected : Option (InodeId × Name))
    (r : Option (Handle × Name)) (s : Kernel π) : Prop :=
  match r with
  | none => expected = none ∧ Walk p s₀ s [] none
  | some (h, name) => expected = some ((s.table h).id, name) ∧ Walk p s₀ s [h] none

/-- A panic: every entry of the inode table but one is in use. -/
def TableFull (s₀ : Kernel π) (reason : Panic) : Prop :=
  reason = .noInodesAvailable ∧ ∃ g, ∀ h, h ≠ g → 0 < (s₀.table h).referenceCount

/-- The walk waits for a lock. -/
def Blocked (s₀ : Kernel π) : Prop := ∃ h, (s₀.table h).holder ≠ none

/-- The walk once the child is looked up. -/
def walkOn (returnParent : Bool) (elements : List (Name × List UInt8)) (name : Name) (cur : Handle)
    (r : Option (Handle × ℕ)) : Prog (Option (Handle × Name)) :=
  match r with
  | none => do
    Inode.releasePut cur
    return none
  | some (next, _) => do
    Inode.releasePut cur
    walk returnParent elements name next

theorem walk_spec (ht : Tree s₀ p) (returnParent : Bool) {elements : List (Name × List UInt8)}
    (hc : Chained elements) (name : Name) {cur : Handle} (hw : Walk p s₀ s [cur] none)
    (hl : Lasting s₀ (s.table cur).id) :
    Post (Kernel.perform p) (walk returnParent elements name cur) s
      (Reached p s₀ (walkTarget s₀.disk returnParent (s.table cur).id name
        (elements.map Prod.fst))) (TableFull s₀) (Blocked s₀) := by
  induction elements generalizing s cur name with
  | nil =>
    rw [walk]
    cases returnParent with
    | true =>
      refine hw.post_put (List.mem_singleton_self cur) hl fun s' hw' _ => ?_
      rw [List.erase_cons_head] at hw'
      exact ⟨rfl, hw'⟩
    | false => exact ⟨rfl, hw⟩
  | cons x elements ih =>
    obtain ⟨name', rest⟩ := x
    obtain ⟨hlast, hchained⟩ := hc
    have hmem := List.mem_singleton_self cur
    rw [walk]
    obtain ⟨s₁, hlock, hw₁, hd₁, hids₁⟩ | ⟨hblock, hholder⟩ := hw.lock hmem hl.1
    swap
    · exact post_invoke_block (o := .lock cur) hblock ⟨cur, hholder⟩
    refine post_invoke_done (o := .lock cur) hlock ?_
    refine post_invoke_done (o := .diskInode cur) rfl ?_
    have hid₁ := hids₁ cur
    have hl₁ : Lasting s₀ (s₁.table cur).id := hid₁ ▸ hl
    rw [← hid₁] at hd₁
    rw [List.map_cons, walkTarget, hd₁, ← hid₁]
    by_cases hdir : (s₀.disk (s₁.table cur).id).type = .directory
    swap
    · rw [if_pos hdir, if_neg hdir]
      refine hw₁.post_releasePut hmem hl₁ fun s' hw' _ => ?_
      rw [List.erase_cons_head] at hw'
      exact ⟨rfl, hw'⟩
    rw [if_neg (not_not.mpr hdir), if_pos hdir]
    have hiff : (returnParent && decide (rest.length = 0)) = true ↔
        (returnParent = true ∧ elements.map Prod.fst = []) := by
      rw [Bool.and_eq_true, decide_eq_true_eq, List.length_eq_zero_iff, hlast, List.map_eq_nil_iff]
    by_cases hparent : returnParent = true ∧ elements.map Prod.fst = []
    · rw [if_pos (hiff.mpr hparent), if_pos hparent]
      obtain ⟨s₂, hrelease, hw₂, hids₂⟩ := hw₁.release hmem
      refine post_invoke_done (o := .release cur) hrelease ?_
      exact ⟨by rw [hids₂], hw₂⟩
    rw [if_neg (fun h => hparent (hiff.mp h)), if_neg hparent]
    have hinit : Post (Kernel.perform p) (Directory.init cur >>= fun _ =>
        Directory.lookupChild cur name' >>= walkOn returnParent elements name' cur) s₁
        (Reached p s₀ ((FileSystem.child s₀.disk (s₁.table cur).id name').bind fun c =>
          walkTarget s₀.disk returnParent c name' (elements.map Prod.fst)))
        (TableFull s₀) (Blocked s₀) := by
      rw [Directory.init, Program.bind_assoc]
      refine post_invoke_done (o := .diskInode cur) rfl ?_
      rw [hd₁, when, if_neg (not_not.mpr hdir), pure_eq, done_bind]
      refine hw₁.post_lookupChild ht hd₁ hl₁ hdir (fun hnone => ?_)
        (fun next offset s₂ hw₂ hid₂ hsome => ?_) (fun h => ⟨rfl, h⟩)
      · rw [hnone]
        refine hw₁.post_releasePut hmem hl₁ fun s' hw' _ => ?_
        rw [List.erase_cons_head] at hw'
        exact ⟨rfl, hw'⟩
      · rw [hsome]
        have hnext : Lasting s₀ (s₂.table next).id := by
          refine ht.child _ name' _ hl₁ ?_
          rw [lookup, if_pos hdir]
          exact hsome
        refine hw₂.post_releasePut (List.mem_cons_of_mem _ hmem) (by rw [hid₂]; exact hl₁)
          fun s₃ hw₃ hids₃ => ?_
        have herase : [next, cur].erase cur = [next] := by
          by_cases he : next = cur
          · rw [he, List.erase_cons_head]
          · rw [List.erase_cons_tail (by simpa using he), List.erase_cons_head]
        rw [herase] at hw₃
        have hgoal := ih hchained name' hw₃ (by rw [hids₃]; exact hnext)
        rw [hids₃] at hgoal
        exact hgoal
    exact hinit

/-! ## Paths -/

/-- All components but the last lead to a directory. -/
def resolveParent (disk : InodeId → DiskInode) (start : InodeId) (names : List Name) :
    Option (InodeId × Name) := do
  let name ← names.getLast?
  let parent ← resolve disk start names.dropLast
  if (disk parent).type = .directory then some (parent, name) else none

omit [DecidableEq π] in
theorem resolve_cons (disk : InodeId → DiskInode) (start : InodeId) (name : Name)
    (names : List Name) : resolve disk start (name :: names) =
      (lookup disk start name).bind fun c => resolve disk c names := by
  simp [resolve]

theorem walkTarget_false (disk : InodeId → DiskInode) (names : List Name) (id : InodeId)
    (name : Name) : (walkTarget disk false id name names).map Prod.fst = resolve disk id names := by
  induction names generalizing id name with
  | nil => rfl
  | cons name' names ih =>
    rw [walkTarget, resolve_cons, lookup]
    by_cases hdir : (disk id).type = .directory
    · rw [if_pos hdir, if_pos hdir, if_neg (by simp)]
      cases FileSystem.child disk id name' with
      | none => rfl
      | some c => exact ih c name'
    · rw [if_neg hdir, if_neg hdir]
      rfl

theorem walkTarget_true (disk : InodeId → DiskInode) (names : List Name) (id : InodeId)
    (name : Name) : walkTarget disk true id name names = resolveParent disk id names := by
  induction names generalizing id name with
  | nil => rfl
  | cons name' names ih =>
    rw [walkTarget]
    cases names with
    | nil =>
      simp [resolveParent, resolve]
    | cons name'' names =>
      have hstep : resolveParent disk id (name' :: name'' :: names) =
          (lookup disk id name').bind fun c => resolveParent disk c (name'' :: names) := by
        simp only [resolveParent, List.getLast?_cons_cons, List.dropLast_cons_cons, resolve_cons,
          Option.bind_eq_bind]
        cases lookup disk id name' with
        | none => simp
        | some c => rfl
      rw [hstep, lookup]
      by_cases hdir : (disk id).type = .directory
      · rw [if_pos hdir, if_pos hdir, if_neg (by simp)]
        cases FileSystem.child disk id name' with
        | none => rfl
        | some c => exact ih c name'
      · rw [if_neg hdir, if_neg hdir]
        rfl

/-- Only the count of the entry that is returned has gone up, and no lock is taken. -/
structure OneMore (s s' : Kernel π) (r : Option Handle) : Prop where
  refs : ∀ h, (s'.table h).referenceCount =
    (s.table h).referenceCount + if r = some h then 1 else 0
  id : ∀ h, 0 < (s.table h).referenceCount → (s'.table h).id = (s.table h).id
  holder : ∀ h, (s'.table h).holder = (s.table h).holder
  rest : s' = { s with table := s'.table }

omit [DecidableEq π] in
theorem Reached.oneMore {expected : Option (InodeId × Name)} {r : Option (Handle × Name)}
    (h : Reached p s₀ expected r s) : OneMore s₀ s (r.map Prod.fst) := by
  cases r with
  | none =>
    obtain ⟨-, hw⟩ := h
    exact ⟨fun g => by simpa using hw.refs g, hw.id, fun g => by simpa using hw.holder g, hw.rest⟩
  | some x =>
    obtain ⟨-, hw⟩ := h
    refine ⟨fun g => ?_, hw.id, fun g => by simpa using hw.holder g, hw.rest⟩
    rw [hw.refs, List.count_singleton]
    simp

omit [DecidableEq π] in
theorem Reached.target {expected : Option (InodeId × Name)} {r : Option (Handle × Name)}
    (h : Reached p s₀ expected r s) :
    r.map (fun x => ((s.table x.1).id, x.2)) = expected := by
  cases r with
  | none => exact h.1.symm
  | some x => exact h.1.symm

theorem helper_spec (ht : Tree s₀ p) {path : List UInt8} (hne : path ≠ []) (returnParent : Bool) :
    Post (Kernel.perform p) (resolvePathHelper path returnParent) s₀
      (Reached p s₀ (walkTarget s₀.disk returnParent (startOf s₀ p path) []
        (components path))) (TableFull s₀) (Blocked s₀) := by
  have hstart := Walk.start (p := p) ht.coherent
  obtain ⟨helements, hchained⟩ := pathElements_spec path
  cases path with
  | nil => exact absurd rfl hne
  | cons c path =>
    rw [resolvePathHelper, ← helements]
    by_cases hc : c = slash
    · have hroot : startOf s₀ p (c :: path) = .root := by simp [startOf, hc]
      rw [if_pos hc, hroot]
      obtain ⟨h, s', hget, hw, hid, -⟩ | ⟨hget, hfull⟩ := hstart.get .root
      · refine post_invoke_done (o := .get .root) hget ?_
        have hgoal := walk_spec ht returnParent hchained [] hw (by rw [hid]; exact ht.root)
        rw [hid] at hgoal
        exact hgoal
      · exact post_invoke_stop (o := .get .root) hget ⟨rfl, 0, fun h _ => by simpa using hfull h⟩
    · have hcwd : startOf s₀ p (c :: path) =
          (s₀.table (s₀.processes p).currentWorkingDirectory).id := by simp [startOf, hc]
      rw [if_neg hc, hcwd]
      refine post_invoke_done (o := .duplicateCurrentWorkingDirectory) rfl ?_
      have hw := hstart.reference ht.cwd
      have hgoal := walk_spec ht returnParent hchained [] hw (by simpa using ht.start)
      simpa using hgoal

/-- A path is resolved by looking up its components one after the other; what is
left is one reference to the inode that is returned. A resolution that does not
end waits for a lock that was held before, or needs an entry of the inode table
when at most one is not in use. -/
theorem path_resolution (ht : Tree s₀ p) (path : List UInt8) :
    (pathElements path).map Prod.fst = components path ∧
    (∀ rest, match skipPathElement rest with
      | none => components rest = []
      | some (name, rest') => components rest = name :: components rest') ∧
    Post (Kernel.perform p) (resolvePath path) s₀ (fun r s => OneMore s₀ s r ∧
      r.map (fun h => (s.table h).id) = if path = [] then none
        else resolve s₀.disk (startOf s₀ p path) (components path))
      (TableFull s₀) (Blocked s₀) ∧
    Post (Kernel.perform p) (resolvePathParent path) s₀ (fun r s => OneMore s₀ s (r.map Prod.fst) ∧
      r.map (fun x => ((s.table x.1).id, x.2)) =
        resolveParent s₀.disk (startOf s₀ p path) (components path))
      (TableFull s₀) (Blocked s₀) ∧
    ∀ parent name, resolveParent s₀.disk (startOf s₀ p path) (components path) =
        some (parent, name) →
      resolve s₀.disk (startOf s₀ p path) (components path) = lookup s₀.disk parent name := by
  have hnil : OneMore s₀ s₀ none :=
    ⟨fun h => by simp, fun _ _ => rfl, fun _ => rfl, rfl⟩
  refine ⟨(pathElements_spec path).1, fun rest => ?_, ?_, ?_, ?_⟩
  · split
    next h => exact skipPathElement_none h
    next name rest' h => exact (skipPathElement_some h).1
  · by_cases hpath : path = []
    · subst hpath
      exact ⟨hnil, rfl⟩
    · rw [resolvePath]
      refine (helper_spec ht hpath false).bind fun r s hr => ?_
      refine ⟨hr.oneMore, ?_⟩
      have htarget := congrArg (Option.map Prod.fst) hr.target
      rw [walkTarget_false] at htarget
      rw [if_neg hpath, ← htarget, Option.map_map, Option.map_map]
      rfl
  · by_cases hpath : path = []
    · subst hpath
      exact ⟨hnil, rfl⟩
    · refine (helper_spec ht hpath true).mono fun r s hr => ⟨hr.oneMore, ?_⟩
      rw [hr.target, walkTarget_true]
  · intro parent name h
    generalize components path = names at h ⊢
    obtain ⟨last, hlast, h⟩ := Option.bind_eq_some_iff.mp h
    obtain ⟨id, hid, h⟩ := Option.bind_eq_some_iff.mp h
    split at h
    · cases h
      rw [← List.dropLast_append_getLast? _ hlast, resolve, List.foldlM_append]
      rw [resolve] at hid
      rw [hid]
      simp
    · cases h

end Operations

/-- A root directory with one file `a`, and one process in it. -/
def oneFileRoot : Kernel Unit where
  ninodes := 200
  disk id :=
    if id = .root then
      ⟨.zero, (DirectoryEntry.empty.withName [97] 2).toBytes, .directory, 1⟩
    else if id = ⟨.rootFsDevice, 2⟩ then ⟨.zero, [1, 2, 3], .file, 1⟩
    else .empty
  table h := ⟨.root, if h = 0 then 1 else 0, none, false, .empty⟩
  files _ := ⟨0, false, false, .none⟩
  processes _ := ⟨0, fun _ => none, false⟩
  space _ := true
  requests := 0
  depth _ := 0
  nested := false

theorem oneFileRoot_tree : Tree oneFileRoot () where
  coherent h _ hv := by cases hv
  cwd := by decide
  root := ⟨by decide, .inl (by decide)⟩
  start := ⟨by decide, .inl (by decide)⟩
  aligned id _ hdir := by
    have hroot : id = .root := by
      by_contra hne
      simp only [oneFileRoot, if_neg hne] at hdir
      split at hdir <;> cases hdir
    subst hroot
    exact ⟨by unfold Aligned; decide, by decide⟩
  child id name c _ hc := by
    unfold lookup at hc
    split at hc
    next hdir =>
      have hroot : id = .root := by
        by_contra hne
        simp only [oneFileRoot, if_neg hne] at hdir
        split at hdir <;> cases hdir
      subst hroot
      unfold FileSystem.child at hc
      split at hc
      next offset entry hfind =>
        obtain ⟨j, hj, -, rfl, -, -⟩ := findEntry_some hfind
        have hone : slotCount (oneFileRoot.disk .root).content = 1 := by decide
        obtain rfl : j = 0 := by omega
        obtain rfl := Option.some.inj hc
        exact ⟨by decide, .inl (by decide)⟩
      · cases hc
    · cases hc

/-- The file is found from the root, through any slashes. -/
theorem path_resolution_file :
    Post (Kernel.perform ()) (resolvePath [47, 47, 97, 47]) oneFileRoot (fun r s =>
      OneMore oneFileRoot s r ∧ r.map (fun h => (s.table h).id) = some ⟨.rootFsDevice, 2⟩)
      (TableFull oneFileRoot) (Blocked oneFileRoot) := by
  have h := (path_resolution oneFileRoot_tree [47, 47, 97, 47]).2.2.1
  have htarget : resolve oneFileRoot.disk (startOf oneFileRoot () [47, 47, 97, 47])
      (components [47, 47, 97, 47]) = some ⟨.rootFsDevice, 2⟩ := by
    decide +kernel
  rw [htarget] at h
  exact h

end Zigmaos.FileSystem
