import Zigmaos.DirectoryEntry

/-!
# The content of a directory

A directory is a file of 32-byte entries. The three loops of `directory.zig`
read them in order up to the first one they look for; here they are one scan
over the bytes of the directory, whose lock the caller holds. The slots of a
content are its entries by position, and every result about a scan is stated
over slots.
-/
namespace Zigmaos.DirectoryContent

def dot : Name := [46]
def dotDot : Name := [46, 46]

def IsDots (name : Name) : Prop := name = dot ∨ name = dotDot

instance (name : Name) : Decidable (IsDots name) := inferInstanceAs (Decidable (_ ∨ _))

/-- `Inode.read` to a kernel address: the bytes read, or `error.OffsetOverflows`. -/
def read (content : List UInt8) (offset count : ℕ) : Option (List UInt8) :=
  if content.length < offset then some []
  else if 4294967296 ≤ offset + count then none
  else some ((content.drop offset).take count)

section Scan
variable {ρ : Type} (readFailed shortRead : ρ) (found : DirectoryEntry → Bool)
  (content : List UInt8)

/-- Read entries from `offset` on up to one that is `found`: where the loop
ended, the entry it read last, and whether that one is found. -/
def scan : (fuel offset : ℕ) → DirectoryEntry → Except ρ (ℕ × DirectoryEntry × Bool)
  | 0, offset, entry => .ok (offset, entry, false)
  | fuel + 1, offset, entry =>
    if offset < content.length then
      match read content offset entrySize with
      | none => .error readFailed
      | some bytes =>
        if bytes.length ≠ entrySize then .error shortRead
        else if found (.ofBytes bytes) then .ok (offset, .ofBytes bytes, true)
        else scan fuel (offset + entrySize) (.ofBytes bytes)
    else .ok (offset, entry, false)

end Scan

/-- Enough fuel for a scan of `content`. -/
def scanFuel (content : List UInt8) : ℕ := content.length / entrySize + 1

/-- The loop of `lookupChild`. -/
def findEntry {ρ : Type} (readFailed shortRead : ρ) (content : List UInt8) (name : Name) :
    Except ρ (Option (ℕ × DirectoryEntry)) :=
  match scan readFailed shortRead (fun e => e.inodeNumber ≠ 0 && e.matchesName name) content
      (scanFuel content) 0 .empty with
  | .error r => .error r
  | .ok (offset, entry, true) => .ok (some (offset, entry))
  | .ok (_, _, false) => .ok none

/-- The loop of `linkEntry` that looks for an empty entry. The entry it read
last is the one that is overwritten and written back. -/
def findFree {ρ : Type} (readFailed shortRead : ρ) (content : List UInt8) :
    Except ρ (ℕ × DirectoryEntry) :=
  match scan readFailed shortRead (fun e => e.inodeNumber = 0) content
      (scanFuel content) 0 .empty with
  | .error r => .error r
  | .ok (offset, entry, _) => .ok (offset, entry)

/-- The loop of `isEmpty`, which starts after the first two entries. -/
def noneUsed {ρ : Type} (readFailed shortRead : ρ) (content : List UInt8) : Except ρ Bool :=
  match scan readFailed shortRead (fun e => e.inodeNumber ≠ 0) content
      (scanFuel content) (2 * entrySize) .empty with
  | .error r => .error r
  | .ok (_, _, used) => .ok (!used)

/-! ### Slots -/

def slotCount (content : List UInt8) : ℕ := content.length / entrySize

def slot (content : List UInt8) (k : ℕ) : DirectoryEntry :=
  .ofBytes ((content.drop (entrySize * k)).take entrySize)

/-- The contents that directory writes lead to: whole entries only. -/
def Aligned (content : List UInt8) : Prop := content.length % entrySize = 0

/-- Overwrite bytes from `offset` on, extending the content where needed. -/
def splice (content : List UInt8) (offset : ℕ) (bytes : List UInt8) : List UInt8 :=
  content.take offset ++ bytes ++ content.drop (offset + bytes.length)

theorem length_splice {content bytes : List UInt8} {offset : ℕ} (h : offset ≤ content.length) :
    (splice content offset bytes).length = max content.length (offset + bytes.length) := by
  simp only [splice, List.length_append, List.length_take, List.length_drop]
  omega

theorem lt_slotCount {content : List UInt8} {k : ℕ} :
    k < slotCount content ↔ entrySize * (k + 1) ≤ content.length := by
  simp only [slotCount, entrySize]
  omega

theorem fits_slot {content : List UInt8} {k : ℕ} (h : k < slotCount content) :
    (slot content k).Fits := by
  rw [lt_slotCount] at h
  refine DirectoryEntry.fits_ofBytes ?_
  simp only [List.length_take, List.length_drop, entrySize] at *
  omega

theorem slotCount_splice {content bytes : List UInt8} {j : ℕ} (hb : bytes.length = entrySize)
    (hj : j ≤ slotCount content) (ha : Aligned content) :
    slotCount (splice content (entrySize * j) bytes) = max (slotCount content) (j + 1) := by
  simp only [slotCount, Aligned, entrySize] at *
  rw [length_splice (by omega), hb]
  omega

theorem aligned_splice {content bytes : List UInt8} {j : ℕ} (hb : bytes.length = entrySize)
    (hj : j ≤ slotCount content) (ha : Aligned content) :
    Aligned (splice content (entrySize * j) bytes) := by
  simp only [slotCount, Aligned, entrySize] at *
  rw [length_splice (by omega), hb]
  omega

theorem slot_splice_self {content bytes : List UInt8} {j : ℕ} (hb : bytes.length = entrySize)
    (hj : j ≤ slotCount content) :
    slot (splice content (entrySize * j) bytes) j = .ofBytes bytes := by
  have hlen : (content.take (entrySize * j)).length = entrySize * j := by
    simp only [slotCount, entrySize, List.length_take] at *
    omega
  unfold slot splice
  rw [List.append_assoc, List.drop_left' hlen, List.take_append_of_le_length (by omega),
    List.take_of_length_le (by omega)]

theorem slot_splice_of_ne {content bytes : List UInt8} {j k : ℕ} (hb : bytes.length = entrySize)
    (hk : k < slotCount content) (h : k ≠ j) :
    slot (splice content (entrySize * j) bytes) k = slot content k := by
  unfold slot
  congr 1
  rw [lt_slotCount] at hk
  simp only [entrySize] at *
  apply List.ext_getElem?
  intro i
  by_cases hi : i < 32
  · simp only [List.getElem?_take, hi, if_true, List.getElem?_drop, splice, List.append_assoc,
      List.getElem?_append, List.length_take]
    by_cases hlt : k < j
    · rw [if_pos (by omega), if_pos (by omega)]
    · rw [if_neg (by omega), if_neg (by omega)]
      congr 1
      omega
  · simp [hi]

/-- Zeros behind a content are dead entries. -/
theorem slot_append_zeros {content : List UInt8} {n j : ℕ} (h : content.length ≤ entrySize * j) :
    (slot (content ++ List.replicate n 0) j).inodeNumber = 0 := by
  have hzero : ∀ i, (((content ++ List.replicate n 0).drop (entrySize * j)).take
      entrySize).getD i 0 = 0 := by
    intro i
    rw [List.getD_eq_getElem?_getD, List.getElem?_take, List.getElem?_drop]
    split
    · rw [List.getElem?_append_right (by omega), List.getElem?_replicate]
      split <;> rfl
    · rfl
  simp only [slot, DirectoryEntry.ofBytes]
  rw [LittleEndian.readLE_congr (g := fun _ => 0) fun i _ => hzero i]
  rfl

/-- Where a scan that ended normally stopped: at slot `j`, with no slot before
it found. -/
theorem scan_ok {ρ : Type} {readFailed shortRead : ρ} {found : DirectoryEntry → Bool}
    {content : List UInt8} {fuel k offset : ℕ} {entry e : DirectoryEntry} {b : Bool}
    (h : scan readFailed shortRead found content fuel (entrySize * k) entry = .ok (offset, e, b))
    (hfuel : content.length < entrySize * (k + fuel)) :
    ∃ j, k ≤ j ∧ offset = entrySize * j ∧
      (∀ i, k ≤ i → i < j → i < slotCount content ∧ found (slot content i) = false) ∧
      (b = true → j < slotCount content ∧ e = slot content j ∧ found e = true) ∧
      (b = false → slotCount content ≤ j ∧ content.length ≤ entrySize * j) ∧
      (e = entry ∨ e.Fits) := by
  induction fuel generalizing k entry with
  | zero =>
    rw [scan] at h
    cases h
    refine ⟨k, le_rfl, rfl, fun i hi hj => absurd hj (by omega), by simp, fun _ => ?_, .inl rfl⟩
    simp only [slotCount, entrySize] at *
    omega
  | succ fuel ih =>
    rw [scan] at h
    split at h
    next hlt =>
      split at h
      · cases h
      next bytes hbytes =>
        split at h
        · cases h
        next hlen =>
          have hlen : bytes.length = entrySize := not_not.mp hlen
          have heq : bytes = (content.drop (entrySize * k)).take entrySize := by
            unfold read at hbytes
            split at hbytes
            · omega
            split at hbytes
            · cases hbytes
            exact (Option.some.inj hbytes).symm
          have hslot : DirectoryEntry.ofBytes bytes = slot content k := by rw [heq]; rfl
          have hk : k < slotCount content := by
            rw [heq, List.length_take, List.length_drop] at hlen
            rw [lt_slotCount]
            simp only [entrySize] at *
            omega
          split at h
          next hf =>
            cases h
            exact ⟨k, le_rfl, rfl, fun i hi hj => absurd hj (by omega),
              fun _ => ⟨hk, hslot, hf⟩, by simp, .inr (hslot ▸ fits_slot hk)⟩
          next hf =>
            obtain ⟨j, hkj, hoff, hbefore, htrue, hfalse, hfit⟩ := ih (k := k + 1) h
              (by simp only [entrySize] at *; omega)
            refine ⟨j, by omega, hoff, fun i hi hj => ?_, htrue, hfalse, .inr ?_⟩
            · by_cases hik : i = k
              · subst hik
                exact ⟨hk, by rw [← hslot]; exact Bool.eq_false_iff.mpr hf⟩
              · exact hbefore i (by omega) hj
            · obtain rfl | hfit := hfit
              · exact hslot ▸ fits_slot hk
              · exact hfit
    next hge =>
      cases h
      refine ⟨k, le_rfl, rfl, fun i hi hj => absurd hj (by omega), by simp, fun _ => ?_, .inl rfl⟩
      simp only [slotCount, entrySize] at *
      omega

/-- Where there are only whole entries, no read of a scan fails. -/
theorem scan_total {ρ : Type} (readFailed shortRead : ρ) (found : DirectoryEntry → Bool)
    {content : List UInt8} (ha : Aligned content) (hs : content.length < 4294967296)
    (fuel k : ℕ) (entry : DirectoryEntry) :
    ∃ r, scan readFailed shortRead found content fuel (entrySize * k) entry = .ok r := by
  induction fuel generalizing k entry with
  | zero => exact ⟨_, rfl⟩
  | succ fuel ih =>
    rw [scan]
    split
    next hlt =>
      simp only [Aligned, entrySize] at ha hlt
      have hread : read content (entrySize * k) entrySize =
          some ((content.drop (entrySize * k)).take entrySize) := by
        unfold read
        rw [if_neg (by simp only [entrySize]; omega), if_neg (by simp only [entrySize]; omega)]
      have hlen : ((content.drop (entrySize * k)).take entrySize).length = entrySize := by
        simp only [List.length_take, List.length_drop, entrySize]
        omega
      simp only [hread, hlen, ne_eq, not_true_eq_false, if_false]
      split
      · exact ⟨_, rfl⟩
      · exact ih (k + 1) _
    · exact ⟨_, rfl⟩

theorem lt_scanFuel (content : List UInt8) (k : ℕ) :
    content.length < entrySize * (k + scanFuel content) := by
  simp only [scanFuel, entrySize]
  omega

/-- A live entry with the name, at the offset the scan reports. -/
theorem findEntry_some {ρ : Type} {readFailed shortRead : ρ} {content : List UInt8} {name : Name}
    {offset : ℕ} {e : DirectoryEntry}
    (h : findEntry readFailed shortRead content name = .ok (some (offset, e))) :
    ∃ j, j < slotCount content ∧ offset = entrySize * j ∧ e = slot content j ∧
      e.inodeNumber ≠ 0 ∧ e.nameSlice = name := by
  unfold findEntry at h
  split at h
  · cases h
  next hs =>
    cases h
    obtain ⟨j, -, hoff, -, htrue, -, -⟩ := scan_ok (k := 0) hs (lt_scanFuel content 0)
    obtain ⟨hj, he, hf⟩ := htrue rfl
    simp only [DirectoryEntry.matchesName, ne_eq, decide_not, Bool.and_eq_true,
      Bool.not_eq_eq_eq_not, Bool.not_true, decide_eq_false_iff_not, decide_eq_true_eq] at hf
    exact ⟨j, hj, hoff, he, hf.1, hf.2.symm⟩
  · cases h

theorem findEntry_none {ρ : Type} {readFailed shortRead : ρ} {content : List UInt8} {name : Name}
    (h : findEntry readFailed shortRead content name = .ok none) {k : ℕ}
    (hk : k < slotCount content) (hlive : (slot content k).inodeNumber ≠ 0) :
    (slot content k).nameSlice ≠ name := by
  unfold findEntry at h
  split at h
  · cases h
  · cases h
  next hs =>
    obtain ⟨j, -, -, hbefore, -, hfalse, -⟩ := scan_ok (k := 0) hs (lt_scanFuel content 0)
    have := (hbefore k (by omega) (by have := (hfalse rfl).1; omega)).2
    rintro rfl
    simp [DirectoryEntry.matchesName, hlive] at this

/-- The slot a new entry goes to: a dead one, or the one past the last. -/
theorem findFree_ok {ρ : Type} {readFailed shortRead : ρ} {content : List UInt8} {offset : ℕ}
    {e : DirectoryEntry} (h : findFree readFailed shortRead content = .ok (offset, e)) :
    ∃ j, j ≤ slotCount content ∧ offset = entrySize * j ∧ e.Fits ∧
      (∀ i, i < j → (slot content i).inodeNumber ≠ 0) ∧
      (j < slotCount content → (slot content j).inodeNumber = 0) ∧
      (j = slotCount content → Aligned content) := by
  unfold findFree at h
  split at h
  · cases h
  next b hs =>
    cases h
    obtain ⟨j, -, hoff, hbefore, htrue, hfalse, hfit⟩ := scan_ok (k := 0) hs (lt_scanFuel content 0)
    have hj : j ≤ slotCount content := by
      by_contra hlt
      exact absurd (hbefore (slotCount content) (by omega) (by omega)).1 (lt_irrefl _)
    refine ⟨j, hj, hoff, ?_, fun i hi => ?_, fun hlt => ?_, fun heq => ?_⟩
    · obtain rfl | hfit := hfit
      · exact DirectoryEntry.Fits.empty
      · exact hfit
    · simpa using (hbefore i (by omega) hi).2
    · cases b with
      | true => obtain ⟨-, rfl, hf⟩ := htrue rfl; simpa using hf
      | false => have := (hfalse rfl).1; omega
    · cases b with
      | true => have := (htrue rfl).1; omega
      | false =>
        have := (hfalse rfl).2
        simp only [Aligned, slotCount, entrySize] at *
        omega

theorem noneUsed_true {ρ : Type} {readFailed shortRead : ρ} {content : List UInt8}
    (h : noneUsed readFailed shortRead content = .ok true) {k : ℕ} (h2 : 2 ≤ k)
    (hk : k < slotCount content) : (slot content k).inodeNumber = 0 := by
  unfold noneUsed at h
  split at h
  · cases h
  next used hs =>
    rw [Except.ok.injEq, Bool.not_eq_true'] at h
    subst h
    rw [Nat.mul_comm] at hs
    obtain ⟨j, -, -, hbefore, -, hfalse, -⟩ := scan_ok (k := 2) hs (lt_scanFuel content 2)
    simpa using (hbefore k h2 (by have := (hfalse rfl).1; omega)).2

end Zigmaos.DirectoryContent
