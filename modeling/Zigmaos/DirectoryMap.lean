import Zigmaos.SysFile
import Zigmaos.Transition

/-!
# A directory is a finite map

What the calls of `directory.zig` do to the content of one directory, whose lock
they hold, over any history of links and erasures. The map from names to inode
numbers that the history describes is kept beside the content.
-/
namespace Zigmaos.DirectoryContent
open FileSystem (Panic WriteError maxFileSize)
open LittleEndian (readLE_congr)
open FileSystem.Directory (LinkEntryError)

/-- `Inode.write` of an entry; `space` tells whether a block can be had for it. -/
def writeEntry (content : List UInt8) (space : Bool) (offset : ℕ) (e : DirectoryEntry) :
    Except WriteError ℕ × List UInt8 :=
  if content.length < offset then (.error .outOfInodeRange, content)
  else if 4294967296 ≤ offset + entrySize then (.error .offsetOverflows, content)
  else if maxFileSize < offset + entrySize then (.error .fileOverflow, content)
  else if offset + entrySize ≤ content.length ∨ space then
    (.ok entrySize, splice content offset e.toBytes)
  else (.ok 0, content)

def lookupChild (content : List UInt8) (name : Name) : Except Panic (Option (ℕ × DirectoryEntry)) :=
  findEntry .dirlookupReadFailed .dirlookupShortRead content name

def linkEntry (content : List UInt8) (space : Bool) (name : Name) (number : ℕ) :
    Except Panic (Except LinkEntryError Unit × List UInt8) :=
  if maxEntryNameLength < name.length then .ok (.error .nameToLong, content)
  else
    match lookupChild content name with
    | .error reason => .error reason
    | .ok (some _) => .ok (.error .alreadyExists, content)
    | .ok none =>
      match findFree Panic.linkEntryReadFailed .linkEntryShortRead content with
      | .error reason => .error reason
      | .ok (offset, entry) =>
        match writeEntry content space offset (entry.withName name number) with
        | (.error e, content') => .ok (.error (.write e), content')
        | (.ok written, content') =>
          if written ≠ entrySize then .ok (.error .writeMalformed, content')
          else .ok (.ok (), content')

def isEmpty (content : List UInt8) : Except Panic Bool :=
  noneUsed .isEmptyReadFailed .isEmptyShortRead content

/-- What `unlink` does to the directory of the name it removes. -/
def eraseEntry (content : List UInt8) (space : Bool) (name : Name) : Except Panic (List UInt8) :=
  match lookupChild content name with
  | .error reason => .error reason
  | .ok none => .ok content
  | .ok (some (offset, _)) =>
    match writeEntry content space offset .empty with
    | (.error _, _) => .error .unlinkWriteFailed
    | (.ok written, content') => if written ≠ entrySize then .error .unlinkWritei else .ok content'

/-- The root directory of a new image: entries appended one by one, and the size
rounded up past the last block. -/
def mkfsRoot (root : ℕ) (files : List (Name × ℕ)) : List UInt8 :=
  let entries := ((dot, root) :: (dotDot, root) :: files).map fun f =>
    (DirectoryEntry.empty.withName f.1 f.2).toBytes
  let content := entries.flatten
  content ++ List.replicate ((content.length / 1024 + 1) * 1024 - content.length) 0

/-! ### Histories -/

structure Directory where
  content : List UInt8
  /-- The number last linked under each name and not erased since. -/
  map : Name → Option ℕ

inductive Event
  | link (name : Name) (number : ℕ) (space : Bool)
  | erase (name : Name) (space : Bool)
  deriving DecidableEq

/-- A name comes from a path and is not empty; a number comes from an inode and is not 0. -/
def step (d : Directory) : Event → Option Directory
  | .link name number space =>
    if name = [] ∨ number = 0 ∨ 2 ^ 32 ≤ number then none
    else
      match linkEntry d.content space name number with
      | .error _ => none
      | .ok (.error _, content) => some { d with content := content }
      | .ok (.ok _, content) =>
        some ⟨content, Function.update d.map name (some number)⟩
  | .erase name space =>
    if IsDots name then none
    else
      match eraseEntry d.content space name with
      | .error _ => none
      | .ok content => some ⟨content, Function.update d.map name none⟩

/-- The map of a list of entries with distinct names. -/
def mapOf (entries : List (Name × ℕ)) : Name → Option ℕ := fun name => entries.lookup name

/-- A directory made by `create`, or the root directory of an image. -/
inductive Initial : Directory → Prop
  | created {content₁ content₂ : List UInt8} {space₁ space₂ : Bool} {number parent : ℕ}
      (hnumber : 0 < number ∧ number < 2 ^ 32) (hparent : 0 < parent ∧ parent < 2 ^ 32)
      (hdot : linkEntry [] space₁ dot number = .ok (.ok (), content₁))
      (hdotDot : linkEntry content₁ space₂ dotDot parent = .ok (.ok (), content₂)) :
      Initial ⟨content₂, mapOf [(dot, number), (dotDot, parent)]⟩
  | image {root : ℕ} {files : List (Name × ℕ)} (hroot : 0 < root ∧ root < 2 ^ 32)
      (hdistinct : (files.map Prod.fst).Nodup)
      (hfiles : ∀ f ∈ files, 1 ≤ f.1.length ∧ f.1.length ≤ maxEntryNameLength ∧ ¬IsDots f.1 ∧
        0 < f.2 ∧ f.2 < 2 ^ 32)
      (hsize : (mkfsRoot root files).length ≤ maxFileSize) :
      Initial ⟨mkfsRoot root files, mapOf ((dot, root) :: (dotDot, root) :: files)⟩

/-! ### Contents and maps -/

/-- Slot `j` binds `name` to `number`. -/
def Binds (content : List UInt8) (j : ℕ) (name : Name) (number : ℕ) : Prop :=
  j < slotCount content ∧ (slot content j).inodeNumber = number ∧ number ≠ 0 ∧
    (slot content j).nameSlice = name

/-- The live entries of the content are the bindings of the map, one for each name. -/
structure Represents (content : List UInt8) (map : Name → Option ℕ) : Prop where
  aligned : Aligned content
  size : content.length ≤ maxFileSize
  length : ∀ j name number, Binds content j name number →
    1 ≤ name.length ∧ name.length ≤ maxEntryNameLength
  distinct : ∀ j k name number number', Binds content j name number →
    Binds content k name number' → j = k
  bound : ∀ name number, map name = some number ↔ ∃ j, Binds content j name number

variable {content : List UInt8} {map : Name → Option ℕ} {name : Name} {number : ℕ}

theorem binds_of_live {j : ℕ} (hj : j < slotCount content)
    (hlive : (slot content j).inodeNumber ≠ 0) :
    Binds content j (slot content j).nameSlice (slot content j).inodeNumber :=
  ⟨hj, rfl, hlive, rfl⟩

theorem Binds.eq {j : ℕ} {name' : Name} {number' : ℕ} (h : Binds content j name number)
    (h' : Binds content j name' number') : name = name' ∧ number = number' :=
  ⟨h.2.2.2.symm.trans h'.2.2.2, h.2.1.symm.trans h'.2.1⟩

/-- The bindings after an entry has been written at slot `j`. -/
theorem binds_splice {j k : ℕ} {e : DirectoryEntry} (ha : Aligned content)
    (hj : j ≤ slotCount content) (he : e.Fits) :
    Binds (splice content (entrySize * j) e.toBytes) k name number ↔
      if k = j then e.inodeNumber = number ∧ number ≠ 0 ∧ e.nameSlice = name
      else Binds content k name number := by
  have hb := DirectoryEntry.length_toBytes he
  rw [Binds, slotCount_splice hb hj ha]
  split
  next hk =>
    subst hk
    rw [slot_splice_self hb hj, DirectoryEntry.ofBytes_toBytes he]
    simp
  next hk =>
    constructor
    · rintro ⟨hlt, h⟩
      have hlt : k < slotCount content := by omega
      rw [slot_splice_of_ne hb hlt hk] at h
      exact ⟨hlt, h⟩
    · rintro ⟨hlt, h⟩
      rw [slot_splice_of_ne hb hlt hk]
      exact ⟨by omega, h⟩

namespace Represents

theorem length_lt (h : Represents content map) : content.length < 4294967296 :=
  h.size.trans_lt (by decide)

theorem map_eq_none_iff (h : Represents content map) :
    map name = none ↔ ∀ j number, ¬Binds content j name number := by
  constructor
  · intro hn j number hb
    rw [(h.bound name number).mpr ⟨j, hb⟩] at hn
    cases hn
  · intro hn
    by_contra hne
    obtain ⟨number, hs⟩ := Option.ne_none_iff_exists'.mp hne
    obtain ⟨j, hb⟩ := (h.bound name number).mp hs
    exact hn j number hb

/-- A new binding in a slot that holds none. -/
theorem insert (h : Represents content map) {j : ℕ} {e : DirectoryEntry}
    (hj : j ≤ slotCount content) (he : e.Fits) (hname : e.nameSlice = name)
    (hnumber : e.inodeNumber = number) (hpos : number ≠ 0) (hlen : 1 ≤ name.length)
    (hlong : name.length ≤ maxEntryNameLength) (hnew : map name = none)
    (hdead : j < slotCount content → (slot content j).inodeNumber = 0)
    (hroom : entrySize * j + entrySize ≤ maxFileSize) :
    Represents (splice content (entrySize * j) e.toBytes)
      (Function.update map name (some number)) := by
  have hb := DirectoryEntry.length_toBytes he
  have hnone := h.map_eq_none_iff.mp hnew
  have hbinds : ∀ {k name' number'}, Binds (splice content (entrySize * j) e.toBytes) k name' number' ↔
      if k = j then e.inodeNumber = number' ∧ number' ≠ 0 ∧ e.nameSlice = name'
      else Binds content k name' number' := binds_splice h.aligned hj he
  -- a binding of the name in the new content is the new one
  have hself : ∀ {k number'}, Binds (splice content (entrySize * j) e.toBytes) k name number' →
      k = j := by
    intro k number' hk
    rw [hbinds] at hk
    split at hk
    next heq => exact heq
    · exact absurd hk (hnone k number')
  have hother : ∀ {k name' number'}, name' ≠ name →
      (Binds (splice content (entrySize * j) e.toBytes) k name' number' ↔
        Binds content k name' number') := by
    intro k name' number' hne
    rw [hbinds]
    split
    next heq =>
      subst heq
      constructor
      · rintro ⟨-, -, h'⟩
        exact absurd (h'.symm.trans hname) hne
      · rintro ⟨hlt, h', hpos', -⟩
        exact absurd ((h'.symm.trans (hdead hlt))) hpos'
    · rfl
  refine ⟨aligned_splice hb hj h.aligned, ?_, ?_, ?_, ?_⟩
  · rw [length_splice (by simp only [slotCount, entrySize] at *; omega), hb]
    exact max_le h.size hroom
  · intro k name' number' hk
    by_cases hne : name' = name
    · exact hne ▸ ⟨hlen, hlong⟩
    · exact h.length k name' number' ((hother hne).mp hk)
  · intro k l name' number' number'' hk hl
    by_cases hne : name' = name
    · subst hne
      rw [hself hk, hself hl]
    · exact h.distinct k l name' number' number'' ((hother hne).mp hk) ((hother hne).mp hl)
  · intro name' number'
    by_cases hne : name' = name
    · subst hne
      rw [Function.update_self]
      constructor
      · intro heq
        obtain rfl := Option.some.inj heq
        exact ⟨j, hbinds.mpr (by rw [if_pos rfl]; exact ⟨hnumber, hpos, hname⟩)⟩
      · rintro ⟨k, hk⟩
        obtain rfl := hself hk
        rw [hbinds, if_pos rfl] at hk
        rw [← hk.1, hnumber]
    · rw [Function.update_of_ne hne, h.bound]
      exact exists_congr fun k => (hother hne).symm

/-- An empty entry written over a binding removes it. -/
theorem erase (h : Represents content map) {j : ℕ} (hj : Binds content j name number) :
    Represents (splice content (entrySize * j) DirectoryEntry.empty.toBytes)
      (Function.update map name none) := by
  have he := DirectoryEntry.Fits.empty
  have hb := DirectoryEntry.length_toBytes he
  have hle := hj.1.le
  have hbinds : ∀ {k name' number'},
      Binds (splice content (entrySize * j) DirectoryEntry.empty.toBytes) k name' number' ↔
        name' ≠ name ∧ Binds content k name' number' := by
    intro k name' number'
    rw [binds_splice h.aligned hle he]
    split
    next hk =>
      subst hk
      constructor
      · rintro ⟨h0, hne, -⟩
        exact absurd h0.symm hne
      · rintro ⟨hne, hk⟩
        exact absurd (hk.eq hj).1 hne
    next hk =>
      refine ⟨fun h' => ⟨?_, h'⟩, fun h' => h'.2⟩
      rintro rfl
      exact hk (h.distinct _ _ _ _ _ h' hj)
  refine ⟨aligned_splice hb hle h.aligned, ?_, fun k name' number' hk => ?_,
    fun k l name' number' number'' hk hl => ?_, fun name' number' => ?_⟩
  · have hlt := lt_slotCount.mp hj.1
    rw [length_splice (by simp only [entrySize] at *; omega), hb]
    refine max_le h.size (le_trans ?_ h.size)
    simp only [entrySize] at *
    omega
  · exact h.length k name' number' (hbinds.mp hk).2
  · exact h.distinct k l name' number' number'' (hbinds.mp hk).2 (hbinds.mp hl).2
  · by_cases hne : name' = name
    · subst hne
      simp [hbinds]
    · rw [Function.update_of_ne hne, h.bound]
      exact exists_congr fun k => by rw [hbinds]; simp [hne]

end Represents

/-! ### The calls on a content that represents a map -/

theorem findEntry_total {ρ : Type} (readFailed shortRead : ρ) (ha : Aligned content)
    (hs : content.length < 4294967296) (name : Name) :
    ∃ r, findEntry readFailed shortRead content name = .ok r := by
  obtain ⟨⟨offset, e, b⟩, hr⟩ := scan_total readFailed shortRead
    (fun e => e.inodeNumber ≠ 0 && e.matchesName name) ha hs (scanFuel content) 0 .empty
  unfold findEntry
  rw [mul_zero] at hr
  rw [hr]
  cases b
  · exact ⟨_, rfl⟩
  · exact ⟨_, rfl⟩

theorem findFree_total {ρ : Type} (readFailed shortRead : ρ) (ha : Aligned content)
    (hs : content.length < 4294967296) : ∃ r, findFree readFailed shortRead content = .ok r := by
  obtain ⟨⟨offset, e, b⟩, hr⟩ := scan_total readFailed shortRead
    (fun e => e.inodeNumber = 0) ha hs (scanFuel content) 0 .empty
  unfold findFree
  rw [mul_zero] at hr
  rw [hr]
  exact ⟨_, rfl⟩

theorem noneUsed_total {ρ : Type} (readFailed shortRead : ρ) (ha : Aligned content)
    (hs : content.length < 4294967296) : ∃ r, noneUsed readFailed shortRead content = .ok r := by
  obtain ⟨⟨offset, e, b⟩, hr⟩ := scan_total readFailed shortRead
    (fun e => e.inodeNumber ≠ 0) ha hs (scanFuel content) 2 .empty
  unfold noneUsed
  rw [Nat.mul_comm] at hr
  rw [hr]
  exact ⟨_, rfl⟩

/-- A used slot after the first two. -/
theorem noneUsed_false {ρ : Type} {readFailed shortRead : ρ}
    (h : noneUsed readFailed shortRead content = .ok false) :
    ∃ j, 2 ≤ j ∧ j < slotCount content ∧ (slot content j).inodeNumber ≠ 0 := by
  unfold noneUsed at h
  split at h
  · cases h
  next used hs =>
    rw [Except.ok.injEq, Bool.not_eq_false'] at h
    subst h
    rw [Nat.mul_comm] at hs
    obtain ⟨j, h2, -, -, htrue, -, -⟩ := scan_ok (k := 2) hs (lt_scanFuel content 2)
    obtain ⟨hj, rfl, hf⟩ := htrue rfl
    exact ⟨j, h2, hj, by simpa using hf⟩

namespace Represents

theorem lookupChild_none (h : Represents content map) (hn : map name = none) :
    lookupChild content name = .ok none := by
  obtain ⟨r, hr⟩ := findEntry_total Panic.dirlookupReadFailed .dirlookupShortRead
    h.aligned h.length_lt name
  cases r with
  | none => exact hr
  | some r =>
    obtain ⟨j, hj, -, he, hlive, hname⟩ := findEntry_some hr
    rw [he] at hlive hname
    exact absurd (hname ▸ binds_of_live hj hlive) (h.map_eq_none_iff.mp hn j _)

theorem lookupChild_some (h : Represents content map) (hs : map name = some number) :
    ∃ j, Binds content j name number ∧
      lookupChild content name = .ok (some (entrySize * j, slot content j)) := by
  obtain ⟨r, hr⟩ := findEntry_total Panic.dirlookupReadFailed .dirlookupShortRead
    h.aligned h.length_lt name
  obtain ⟨j, hj⟩ := (h.bound name number).mp hs
  cases r with
  | none =>
    have hlive : (slot content j).inodeNumber ≠ 0 := by
      rw [hj.2.1]
      exact hj.2.2.1
    exact absurd hj.2.2.2 (findEntry_none hr hj.1 hlive)
  | some r =>
    obtain ⟨offset, e⟩ := r
    obtain ⟨k, hk, rfl, rfl, hlive, hname⟩ := findEntry_some hr
    have hkj : k = j := h.distinct k j name _ number (hname ▸ binds_of_live hk hlive) hj
    subst hkj
    exact ⟨k, hj, hr⟩

/-- A name that is bound nowhere is written to the slot that is found. -/
theorem linkEntry_free (h : Represents content map) (hlong : name.length ≤ maxEntryNameLength)
    (hnew : map name = none) {offset : ℕ} {entry : DirectoryEntry}
    (hr : findFree Panic.linkEntryReadFailed .linkEntryShortRead content = .ok (offset, entry))
    (space : Bool) (number : ℕ) : linkEntry content space name number =
      match writeEntry content space offset (entry.withName name number) with
      | (.error e, content') => .ok (.error (.write e), content')
      | (.ok written, content') =>
        if written ≠ entrySize then .ok (.error .writeMalformed, content')
        else .ok (.ok (), content') := by
  rw [linkEntry, if_neg (by omega)]
  simp only [h.lookupChild_none hnew, hr]

/-- A name that is bound nowhere is entered in the first slot that is not used,
or no room is left for it. -/
theorem linkEntry_new (h : Represents content map) (hpos : 0 < number) (hlt : number < 2 ^ 32)
    (hlen : 1 ≤ name.length) (hlong : name.length ≤ maxEntryNameLength) (hnew : map name = none)
    (space : Bool) :
    (∃ j content', linkEntry content space name number = .ok (.ok (), content') ∧
      j ≤ slotCount content ∧ (∀ k, k < j → (slot content k).inodeNumber ≠ 0) ∧
      (j < slotCount content → (slot content j).inodeNumber = 0) ∧
      slotCount content' = max (slotCount content) (j + 1) ∧
      (∀ k, k < slotCount content → k ≠ j → slot content' k = slot content k) ∧
      Represents content' (Function.update map name (some number))) ∨
    ((∀ k, k < slotCount content → (slot content k).inodeNumber ≠ 0) ∧
      (space = false ∨ maxFileSize < content.length + entrySize) ∧
      ∃ e, linkEntry content space name number = .ok (.error e, content) ∧
        e ≠ .nameToLong ∧ e ≠ .alreadyExists) := by
  obtain ⟨⟨offset, entry⟩, hr⟩ := findFree_total Panic.linkEntryReadFailed .linkEntryShortRead
    h.aligned h.length_lt
  obtain ⟨j, hj, rfl, hfit, hbefore, hdead, -⟩ := findFree_ok hr
  have hfit' := hfit.withName hlong hlt
  have hsize := h.size
  have hal := h.aligned
  have hcount : entrySize * slotCount content = content.length := by
    simp only [Aligned, slotCount, entrySize] at *
    omega
  have hlink := h.linkEntry_free hlong hnew hr space number
  by_cases hroom : entrySize * j + entrySize ≤ maxFileSize ∧
      (entrySize * j + entrySize ≤ content.length ∨ space = true)
  · left
    have hwrite : writeEntry content space (entrySize * j) (entry.withName name number) =
        (.ok entrySize, splice content (entrySize * j) (entry.withName name number).toBytes) := by
      have hmax : maxFileSize = 274432 := rfl
      have hentry : entrySize = 32 := rfl
      have hle : entrySize * j ≤ content.length := hcount ▸ Nat.mul_le_mul_left _ hj
      unfold writeEntry
      rw [if_neg (by omega), if_neg (by omega), if_neg (by omega), if_pos hroom.2]
    rw [hwrite] at hlink
    have hb := DirectoryEntry.length_toBytes hfit'
    refine ⟨j, _, by simpa using hlink, hj, hbefore, hdead, slotCount_splice hb hj hal,
      fun k hk hne => slot_splice_of_ne hb hk hne, ?_⟩
    exact h.insert hj hfit' (by simp) rfl hpos.ne' hlen hlong hnew hdead hroom.1
  · right
    have hend : j = slotCount content := by
      by_contra hne
      have := lt_slotCount.mp (show j < slotCount content by omega)
      exact hroom ⟨by simp only [entrySize] at *; omega, .inl (by simp only [entrySize] at *; omega)⟩
    rw [hend] at hroom hlink hbefore
    rw [hcount] at hroom hlink
    refine ⟨hbefore, ?_, ?_⟩
    · by_contra hc
      push Not at hc
      exact hroom ⟨hc.2, .inr (by simpa using hc.1)⟩
    · unfold writeEntry at hlink
      rw [if_neg (lt_irrefl _)] at hlink
      by_cases h1 : 4294967296 ≤ content.length + entrySize
      · rw [if_pos h1] at hlink
        exact ⟨_, hlink, by simp, by simp⟩
      rw [if_neg h1] at hlink
      by_cases h2 : maxFileSize < content.length + entrySize
      · rw [if_pos h2] at hlink
        exact ⟨_, hlink, by simp, by simp⟩
      rw [if_neg h2, if_neg fun h3 => hroom ⟨by omega, h3⟩] at hlink
      exact ⟨.writeMalformed, by simpa [entrySize] using hlink, by simp, by simp⟩

theorem linkEntry_exists (h : Represents content map) (hlong : name.length ≤ maxEntryNameLength)
    (hs : map name ≠ none) (space : Bool) :
    linkEntry content space name number = .ok (.error .alreadyExists, content) := by
  obtain ⟨n, hn⟩ := Option.ne_none_iff_exists'.mp hs
  obtain ⟨j, -, hj⟩ := h.lookupChild_some hn
  rw [linkEntry, if_neg (by omega)]
  simp only [hj]

theorem linkEntry_long (hlong : maxEntryNameLength < name.length) (space : Bool) :
    linkEntry content space name number = .ok (.error .nameToLong, content) := by
  rw [linkEntry, if_pos hlong]

/-- Erasing never fails, whether or not the name is bound. -/
theorem eraseEntry (h : Represents content map) (name : Name) (space : Bool) :
    ∃ content', eraseEntry content space name = .ok content' ∧
      Represents content' (Function.update map name none) ∧
      (∀ j, j < slotCount content → (slot content j).nameSlice ≠ name →
        slot content' j = slot content j) ∧ slotCount content' = slotCount content := by
  cases hn : map name with
  | none =>
    refine ⟨content, ?_, ?_, fun _ _ _ => rfl, rfl⟩
    · simp only [DirectoryContent.eraseEntry, h.lookupChild_none hn]
    · rwa [← hn, Function.update_eq_self]
  | some number =>
    obtain ⟨j, hj, hl⟩ := h.lookupChild_some hn
    have hlt := lt_slotCount.mp hj.1
    have hsize := h.size
    have hb := DirectoryEntry.length_toBytes DirectoryEntry.Fits.empty
    have hwrite : writeEntry content space (entrySize * j) .empty =
        (.ok entrySize, splice content (entrySize * j) DirectoryEntry.empty.toBytes) := by
      have hmax : maxFileSize = 274432 := rfl
      have hentry : entrySize = 32 := rfl
      rw [Nat.mul_succ] at hlt
      unfold writeEntry
      rw [if_neg (by omega), if_neg (by omega), if_neg (by omega), if_pos (.inl hlt)]
    refine ⟨splice content (entrySize * j) DirectoryEntry.empty.toBytes, ?_, h.erase hj,
      fun k hk hne => slot_splice_of_ne hb hk ?_, ?_⟩
    · simp only [DirectoryContent.eraseEntry, hl, hwrite, ne_eq, not_true_eq_false, if_false]
    · rintro rfl
      exact hne hj.2.2.2
    · rw [slotCount_splice hb hj.1.le h.aligned]
      have := hj.1
      omega

end Represents

/-! ### Directories as they are made -/

/-- Entries 0 and 1 are "." and "..". -/
def DotsFirst (content : List UInt8) : Prop :=
  (∃ number, Binds content 0 dot number) ∧ ∃ number, Binds content 1 dotDot number

theorem represents_nil : Represents [] fun _ => none where
  aligned := rfl
  size := Nat.zero_le _
  length _ _ _ h := absurd h.1 (Nat.not_lt_zero _)
  distinct _ _ _ _ _ h := absurd h.1 (Nat.not_lt_zero _)
  bound _ _ := ⟨nofun, fun ⟨_, h⟩ => absurd h.1 (Nat.not_lt_zero _)⟩

theorem slot_append_left {bytes : List UInt8} {k : ℕ} (hk : k < slotCount content) :
    slot (content ++ bytes) k = slot content k := by
  rw [lt_slotCount] at hk
  simp only [slot, entrySize] at *
  rw [List.drop_append_of_le_length (by omega), List.take_append_of_le_length]
  rw [List.length_drop]
  omega

theorem splice_end (bytes : List UInt8) (ha : Aligned content) :
    splice content (entrySize * slotCount content) bytes = content ++ bytes := by
  have hlen : entrySize * slotCount content = content.length := by
    simp only [Aligned, slotCount, entrySize] at *
    omega
  rw [splice, hlen, List.take_length, List.drop_of_length_le (by omega), List.append_nil]

/-- The bytes of a list of entries written one after another. -/
def entriesBytes (entries : List (Name × ℕ)) : List UInt8 :=
  (entries.map fun f => (DirectoryEntry.empty.withName f.1 f.2).toBytes).flatten

theorem mapOf_eq_none {entries : List (Name × ℕ)} {name : Name}
    (h : name ∉ entries.map Prod.fst) : mapOf entries name = none := by
  rw [mapOf, List.lookup_eq_none_iff]
  intro p hp
  rw [bne_iff_ne]
  rintro rfl
  exact h (List.mem_map_of_mem hp)

theorem mapOf_append_singleton {entries : List (Name × ℕ)} {f : Name × ℕ} {name : Name}
    (hf : f.1 ∉ entries.map Prod.fst) :
    mapOf (entries ++ [f]) name = Function.update (mapOf entries) f.1 (some f.2) name := by
  obtain ⟨key, value⟩ := f
  rw [mapOf, List.lookup_append]
  by_cases hname : name = key
  · subst hname
    rw [show entries.lookup name = none from mapOf_eq_none hf]
    simp
  · rw [Function.update_of_ne hname, mapOf, List.lookup_cons, beq_eq_false_iff_ne.mpr hname]
    simp

/-- The entries of a new root directory are a map from the first slot on. -/
theorem represents_entries {entries : List (Name × ℕ)} (hdistinct : (entries.map Prod.fst).Nodup)
    (hvalid : ∀ f ∈ entries, 1 ≤ f.1.length ∧ f.1.length ≤ maxEntryNameLength ∧
      0 < f.2 ∧ f.2 < 2 ^ 32)
    (hsize : entrySize * entries.length ≤ maxFileSize) :
    Represents (entriesBytes entries) (mapOf entries) ∧
      slotCount (entriesBytes entries) = entries.length ∧
      ∀ i (h : i < entries.length), Binds (entriesBytes entries) i entries[i].1 entries[i].2 := by
  induction entries using List.reverseRecOn with
  | nil => exact ⟨represents_nil, rfl, fun i h => absurd h (Nat.not_lt_zero _)⟩
  | append_singleton entries f ih =>
    rw [List.map_append, List.nodup_append] at hdistinct
    obtain ⟨hnodup, -, hnew⟩ := hdistinct
    have hnew : f.1 ∉ entries.map Prod.fst := fun h => hnew _ h _ (by simp) rfl
    rw [List.length_append, List.length_singleton, Nat.mul_succ] at hsize
    obtain ⟨hrep, hcount, hslots⟩ := ih hnodup
      (fun g hg => hvalid g (List.mem_append_left _ hg)) (by omega)
    obtain ⟨hlen, hlong, hpos, hlt⟩ := hvalid f (by simp)
    have hfit : (DirectoryEntry.empty.withName f.1 f.2).Fits :=
      DirectoryEntry.Fits.empty.withName hlong hlt
    have hbytes : entriesBytes (entries ++ [f]) =
        splice (entriesBytes entries) (entrySize * slotCount (entriesBytes entries))
          (DirectoryEntry.empty.withName f.1 f.2).toBytes := by
      rw [splice_end _ hrep.aligned]
      simp [entriesBytes]
    have hnone : mapOf entries f.1 = none := mapOf_eq_none hnew
    have hmap : mapOf (entries ++ [f]) = Function.update (mapOf entries) f.1 (some f.2) :=
      funext fun name => mapOf_append_singleton hnew
    have hb := DirectoryEntry.length_toBytes hfit
    rw [hbytes, hmap]
    refine ⟨hrep.insert le_rfl hfit (by simp) rfl hpos.ne' hlen hlong hnone
      (fun h => absurd h (lt_irrefl _)) (by rw [hcount]; exact hsize), ?_, fun i hi => ?_⟩
    · rw [slotCount_splice hb le_rfl hrep.aligned, hcount, List.length_append]
      simp
    · rw [binds_splice hrep.aligned le_rfl hfit, hcount]
      split
      next heq =>
        subst heq
        simp [hpos.ne']
      next hne =>
        rw [List.length_append, List.length_singleton] at hi
        have hi' : i < entries.length := by omega
        rw [List.getElem_append_left hi']
        exact hslots i hi'

/-- Zeros after the last entry add no binding. -/
theorem binds_append_zeros {n j : ℕ} (ha : Aligned content) :
    Binds (content ++ List.replicate n 0) j name number ↔ Binds content j name number := by
  have hlen : entrySize * slotCount content = content.length := by
    simp only [Aligned, slotCount, entrySize] at *
    omega
  by_cases hj : j < slotCount content
  · have hj' : j < slotCount (content ++ List.replicate n 0) := by
      rw [lt_slotCount] at *
      rw [List.length_append]
      omega
    simp only [Binds, slot_append_left hj, hj, hj']
  · constructor
    · rintro ⟨-, hnum, hne, -⟩
      have hle : content.length ≤ entrySize * j := hlen ▸ Nat.mul_le_mul_left _ (by omega)
      exact absurd (hnum.symm.trans (slot_append_zeros hle)) hne
    · rintro ⟨hlt, -⟩
      exact absurd hlt hj

theorem Represents.append_zeros (h : Represents content map) {n : ℕ} (hn : n % entrySize = 0)
    (hsize : content.length + n ≤ maxFileSize) :
    Represents (content ++ List.replicate n 0) map where
  aligned := by
    have := h.aligned
    simp only [Aligned, entrySize, List.length_append, List.length_replicate] at *
    omega
  size := by simpa using hsize
  length j name number hj := h.length j name number ((binds_append_zeros h.aligned).mp hj)
  distinct j k name number number' hj hk := h.distinct j k name number number'
    ((binds_append_zeros h.aligned).mp hj) ((binds_append_zeros h.aligned).mp hk)
  bound name number := by
    rw [h.bound]
    exact exists_congr fun j => (binds_append_zeros h.aligned).symm

theorem linkEntry_ok (h : Represents content map) {space : Bool} {content' : List UInt8}
    (hpos : 0 < number) (hlt : number < 2 ^ 32) (hlen : 1 ≤ name.length)
    (hlink : linkEntry content space name number = .ok (.ok (), content')) :
    map name = none ∧ Represents content' (Function.update map name (some number)) ∧
      ∃ j, j ≤ slotCount content ∧ (∀ k, k < j → (slot content k).inodeNumber ≠ 0) ∧
        (j < slotCount content → (slot content j).inodeNumber = 0) ∧
        slotCount content' = max (slotCount content) (j + 1) ∧
        ∀ k, k < slotCount content → k ≠ j → slot content' k = slot content k := by
  by_cases hlong : maxEntryNameLength < name.length
  · rw [Represents.linkEntry_long hlong] at hlink
    cases hlink
  by_cases hnew : map name = none
  · obtain ⟨j, content'', hr, hj, hbefore, hdead, hcount, hslots, hrep⟩ | ⟨-, -, e, hr, -⟩ :=
      h.linkEntry_new hpos hlt hlen (by omega) hnew space
    · rw [hlink] at hr
      obtain rfl : content' = content'' := by simpa using hr
      exact ⟨hnew, hrep, j, hj, hbefore, hdead, hcount, hslots⟩
    · rw [hlink] at hr
      cases hr
  · rw [h.linkEntry_exists (by omega) hnew] at hlink
    cases hlink

/-- A binding survives what leaves its slot as it is. -/
theorem Binds.congr {j : ℕ} {content' : List UInt8} (h : Binds content j name number)
    (hcount : slotCount content ≤ slotCount content') (hslot : slot content' j = slot content j) :
    Binds content' j name number :=
  ⟨h.1.trans_le hcount, by rw [hslot]; exact h.2.1, h.2.2.1, by rw [hslot]; exact h.2.2.2⟩

theorem Initial.represents {d : Directory} (h : Initial d) :
    Represents d.content d.map ∧ DotsFirst d.content := by
  cases h with
  | @created content₁ content₂ space₁ space₂ number parent hnumber hparent hdot hdotDot =>
    obtain ⟨-, hrep₁, j, hj, -, -, hcount₁, -⟩ :=
      linkEntry_ok represents_nil hnumber.1 hnumber.2 (by decide) hdot
    have hzero : slotCount ([] : List UInt8) = 0 := rfl
    have hone : slotCount content₁ = 1 := by omega
    obtain ⟨k, hk⟩ := (hrep₁.bound dot number).mp (Function.update_self ..)
    obtain rfl : k = 0 := by have := hk.1; omega
    obtain ⟨-, hrep₂, j', hj', hbefore, hdead, hcount₂, hslots⟩ :=
      linkEntry_ok hrep₁ hparent.1 hparent.2 (by decide) hdotDot
    have hlive : (slot content₁ 0).inodeNumber ≠ 0 := by
      rw [hk.2.1]
      exact hk.2.2.1
    have hj' : j' = 1 := by
      by_contra hne
      obtain rfl : j' = 0 := by omega
      exact hlive (hdead (by omega))
    subst hj'
    have hdotBinds : Binds content₂ 0 dot number :=
      hk.congr (by omega) (hslots 0 (by omega) (by decide))
    obtain ⟨l, hl⟩ := (hrep₂.bound dotDot parent).mp (Function.update_self ..)
    have hl1 : l = 1 := by
      have := hl.1
      by_contra hne
      obtain rfl : l = 0 := by omega
      exact absurd (hl.eq hdotBinds).1 (by decide)
    subst hl1
    refine ⟨?_, ⟨_, hdotBinds⟩, ⟨_, hl⟩⟩
    have hmap : mapOf [(dot, number), (dotDot, parent)] =
        Function.update (Function.update (fun _ => none) dot (some number)) dotDot (some parent) := by
      rw [show [(dot, number), (dotDot, parent)] = [(dot, number)] ++ [(dotDot, parent)] from rfl]
      funext name
      rw [mapOf_append_singleton (by simp [dot, dotDot])]
      congr 1
      funext name
      rw [show [(dot, number)] = [] ++ [(dot, number)] from rfl, mapOf_append_singleton (by simp)]
      rfl
    rw [hmap]
    exact hrep₂
  | @image root files hroot hdistinct hfiles hsize =>
    set entries := (dot, root) :: (dotDot, root) :: files with hentries
    have hroots : mkfsRoot root files = entriesBytes entries ++ List.replicate
        (((entriesBytes entries).length / 1024 + 1) * 1024 - (entriesBytes entries).length) 0 := rfl
    have hdots : ∀ f ∈ files, f.1 ≠ dot ∧ f.1 ≠ dotDot := fun f hf =>
      ⟨fun h => (hfiles f hf).2.2.1 (.inl h), fun h => (hfiles f hf).2.2.1 (.inr h)⟩
    have hnodup : (entries.map Prod.fst).Nodup := by
      simp only [hentries, List.map_cons, List.nodup_cons, List.mem_cons, List.mem_map, not_or,
        not_exists, not_and]
      exact ⟨⟨by decide, fun f hf => (hdots f hf).1⟩, fun f hf => (hdots f hf).2, hdistinct⟩
    have hvalid : ∀ f ∈ entries, 1 ≤ f.1.length ∧ f.1.length ≤ maxEntryNameLength ∧
        0 < f.2 ∧ f.2 < 2 ^ 32 := by
      intro f hf
      simp only [hentries, List.mem_cons] at hf
      obtain rfl | rfl | hf := hf
      · exact ⟨show 1 ≤ dot.length by decide, show dot.length ≤ _ by decide, hroot⟩
      · exact ⟨show 1 ≤ dotDot.length by decide, show dotDot.length ≤ _ by decide, hroot⟩
      · obtain ⟨h1, h2, -, h3⟩ := hfiles f hf
        exact ⟨h1, h2, h3⟩
    have hlength : (entriesBytes entries).length = entrySize * entries.length := by
      rw [entriesBytes, List.length_flatten, List.map_map]
      have : ∀ f ∈ entries, (List.length ∘ fun f : Name × ℕ =>
          (DirectoryEntry.empty.withName f.1 f.2).toBytes) f = entrySize := by
        intro f hf
        exact DirectoryEntry.length_toBytes (DirectoryEntry.Fits.empty.withName (hvalid f hf).2.1
          (hvalid f hf).2.2.2)
      rw [List.map_congr_left this, List.map_const', List.sum_replicate, smul_eq_mul, Nat.mul_comm]
    have hfit : entrySize * entries.length ≤ maxFileSize := by
      refine le_trans ?_ hsize
      rw [hroots, List.length_append, hlength]
      omega
    obtain ⟨hrep, -, hslots⟩ := represents_entries hnodup hvalid hfit
    have hpad : (((entriesBytes entries).length / 1024 + 1) * 1024 - (entriesBytes entries).length) %
        entrySize = 0 := by
      have := hrep.aligned
      simp only [Aligned, entrySize] at *
      omega
    rw [hroots] at hsize ⊢
    rw [List.length_append, List.length_replicate] at hsize
    refine ⟨hrep.append_zeros hpad hsize, ⟨root, ?_⟩, ⟨root, ?_⟩⟩
    · exact (binds_append_zeros hrep.aligned).mpr (hslots 0 (by simp [hentries]))
    · exact (binds_append_zeros hrep.aligned).mpr (hslots 1 (by simp [hentries]))

/-! ### Every history -/

section
variable {d d' : Directory} {e : Event}

theorem invariant_step (h : Represents d.content d.map ∧ DotsFirst d.content)
    (he : step d e = some d') : Represents d'.content d'.map ∧ DotsFirst d'.content := by
  obtain ⟨hrep, ⟨n₀, h₀⟩, ⟨n₁, h₁⟩⟩ := h
  cases e with
  | link name number space =>
    simp only [step] at he
    split at he
    · cases he
    next hvalid =>
      push Not at hvalid
      have hlen : 1 ≤ name.length := List.length_pos_iff.mpr hvalid.1
      split at he
      · cases he
      next hr =>
        cases he
        by_cases hlong : maxEntryNameLength < name.length
        · rw [Represents.linkEntry_long hlong] at hr
          cases hr
          exact ⟨hrep, ⟨n₀, h₀⟩, ⟨n₁, h₁⟩⟩
        by_cases hnew : d.map name = none
        · obtain ⟨j, content', hr', -⟩ | ⟨-, -, e, hr', -⟩ := hrep.linkEntry_new
            (by omega) hvalid.2.2 hlen (by omega) hnew space
          · rw [hr'] at hr
            cases hr
          · rw [hr'] at hr
            cases hr
            exact ⟨hrep, ⟨n₀, h₀⟩, ⟨n₁, h₁⟩⟩
        · rw [hrep.linkEntry_exists (by omega) hnew] at hr
          cases hr
          exact ⟨hrep, ⟨n₀, h₀⟩, ⟨n₁, h₁⟩⟩
      next hr =>
        cases he
        obtain ⟨-, hrep', j, -, -, hdead, hcount, hslots⟩ :=
          linkEntry_ok hrep (by omega) hvalid.2.2 hlen hr
        have hkeep : ∀ {k name' n}, Binds d.content k name' n → k ≠ j := by
          rintro k name' n hk rfl
          exact hk.2.2.1 (hk.2.1.symm.trans (hdead hk.1))
        exact ⟨hrep', ⟨n₀, h₀.congr ((le_max_left _ _).trans hcount.ge) (hslots 0 h₀.1 (hkeep h₀))⟩,
          ⟨n₁, h₁.congr ((le_max_left _ _).trans hcount.ge) (hslots 1 h₁.1 (hkeep h₁))⟩⟩
  | erase name space =>
    simp only [step] at he
    split at he
    · cases he
    next hdots =>
      obtain ⟨content', hr, hrep', hslots, hcount⟩ := hrep.eraseEntry name space
      rw [hr] at he
      cases he
      refine ⟨hrep', ⟨n₀, h₀.congr hcount.ge (hslots 0 h₀.1 ?_)⟩,
        ⟨n₁, h₁.congr hcount.ge (hslots 1 h₁.1 ?_)⟩⟩
      · rw [h₀.2.2.2]
        exact fun h => hdots (.inl h.symm)
      · rw [h₁.2.2.2]
        exact fun h => hdots (.inr h.symm)

theorem invariant_run {es : List Event} {d₀ d : Directory} (hinit : Initial d₀)
    (h : Transition.run step d₀ es = some d) :
    Represents d.content d.map ∧ DotsFirst d.content :=
  Transition.run_induction (P := fun _ d => Represents d.content d.map ∧ DotsFirst d.content)
    hinit.represents (fun _ _ _ _ _ hs he => invariant_step hs he) es d h

/-- "is empty" means that only "." and ".." are bound. -/
theorem isEmpty_iff (hrep : Represents content map) (hdots : DotsFirst content) :
    ∃ b, isEmpty content = .ok b ∧ (b = true ↔ ∀ name, map name ≠ none → IsDots name) := by
  obtain ⟨⟨n₀, h₀⟩, ⟨n₁, h₁⟩⟩ := hdots
  obtain ⟨b, hb⟩ := noneUsed_total Panic.isEmptyReadFailed .isEmptyShortRead
    hrep.aligned hrep.length_lt
  refine ⟨b, hb, ?_⟩
  cases b with
  | true =>
    refine ⟨fun _ name hname => ?_, fun _ => rfl⟩
    obtain ⟨n, hn⟩ := Option.ne_none_iff_exists'.mp hname
    obtain ⟨j, hj⟩ := (hrep.bound name n).mp hn
    obtain rfl | rfl | h2 : j = 0 ∨ j = 1 ∨ 2 ≤ j := by omega
    · exact .inl (hj.eq h₀).1
    · exact .inr (hj.eq h₁).1
    · exact absurd (hj.2.1.symm.trans (noneUsed_true hb h2 hj.1)) hj.2.2.1
  | false =>
    refine ⟨nofun, fun hall => ?_⟩
    obtain ⟨j, h2, hj, hlive⟩ := noneUsed_false hb
    have hbinds := binds_of_live hj hlive
    have hname := (hrep.bound _ _).mpr ⟨j, hbinds⟩
    -- the slots of "." and ".." come before slot `j`
    have hj2 : j = 0 ∨ j = 1 := by
      obtain hdot | hdotDot := hall _ (by rw [hname]; nofun)
      · exact .inl (hrep.distinct j 0 _ _ _ hbinds (hdot ▸ h₀))
      · exact .inr (hrep.distinct j 1 _ _ _ hbinds (hdotDot ▸ h₁))
    omega

end

end Zigmaos.DirectoryContent
