import Zigmaos.Log

/-!
# Crash atomicity of the redo log

Each loop of the log copies blocks one after another, so the writes it issues are
an indexed list. `commit` issues the log copies, the header, the home copies and
the cleared header; recovery issues the home copies its header asks for and the
cleared header. A stop leaves either an idle disk or a disk that still holds the
whole transaction in its log area, and recovery keeps this disjunction.
-/
namespace Zigmaos.Log
open AtomicWrites

namespace Machine

/-- Every buffer that is not pinned agrees with the disk. -/
def Settled (m : Machine) : Prop := ∀ b, m.view b = m.disk b ∨ 0 < m.pins b

section Buffers
variable (m : Machine) (b : ℕ)

@[simp] theorem disk_getBuffer : (m.getBuffer b).disk = m.disk := rfl
@[simp] theorem pins_getBuffer : (m.getBuffer b).pins = m.pins := rfl
@[simp] theorem start_getBuffer : (m.getBuffer b).start = m.start := rfl
@[simp] theorem header_getBuffer : (m.getBuffer b).header = m.header := rfl
@[simp] theorem issued_getBuffer : (m.getBuffer b).issued = m.issued := rfl

theorem view_getBuffer (hs : m.Settled) : (m.getBuffer b).view = m.view := by
  funext c
  simp only [view, getBuffer]
  by_cases hcb : c = b
  · subst hcb; simp
  · rw [Function.update_of_ne hcb]
    split_ifs with hr
    · rcases hs c with hc | hc
      · simpa [view] using hc.symm
      · omega
    · rfl

theorem Settled.getBuffer {m : Machine} (hs : m.Settled) (b : ℕ) :
    (m.getBuffer b).Settled := by
  intro c
  rw [view_getBuffer m b hs]
  exact hs c

/-- Fetch two buffers, copy `data` into the buffer of `b` and write it. -/
theorem setData_write_spec (data : Block) :
    ((m.setData b data).write b).view = Function.update m.view b data ∧
    ((m.setData b data).write b).disk = Function.update m.disk b data ∧
    ((m.setData b data).write b).issued = m.issued ++ [(b, data)] := by
  have hv : (m.setData b data).view b = data := by simp [view, setData]
  refine ⟨?_, ?_, ?_⟩
  · funext c
    by_cases hc : c = b
    · subst hc; simp [view, write, setData]
    · simp [view, write, setData, hc]
  · simp only [write, hv]; rfl
  · simp only [write, hv]; rfl

@[simp] theorem pins_setData_write (data : Block) :
    ((m.setData b data).write b).pins = m.pins := rfl
@[simp] theorem start_setData_write (data : Block) :
    ((m.setData b data).write b).start = m.start := rfl
@[simp] theorem header_setData_write (data : Block) :
    ((m.setData b data).write b).header = m.header := rfl

theorem Settled.setData_write {m : Machine} (hs : m.Settled) (b : ℕ) (data : Block) :
    ((m.setData b data).write b).Settled := by
  obtain ⟨hv, hd, _⟩ := setData_write_spec m b data
  intro c
  rw [hv, hd]
  by_cases hc : c = b
  · subst hc; simp
  · simpa [hc] using hs c

end Buffers

/-- `m'` is `m` after the writes `ws`, with the log's fields as they were. -/
structure Issues (m m' : Machine) (ws : List (Write ℕ Block)) : Prop where
  view_eq : m'.view = apply m.view ws
  disk_eq : m'.disk = apply m.disk ws
  issued_eq : m'.issued = m.issued ++ ws
  start_eq : m'.start = m.start
  settled : m'.Settled

theorem Issues.trans {m₁ m₂ m₃ : Machine} {ws vs : List (Write ℕ Block)}
    (h₁ : Issues m₁ m₂ ws) (h₂ : Issues m₂ m₃ vs) : Issues m₁ m₃ (ws ++ vs) where
  view_eq := by rw [h₂.view_eq, h₁.view_eq, apply_append]
  disk_eq := by rw [h₂.disk_eq, h₁.disk_eq, apply_append]
  issued_eq := by rw [h₂.issued_eq, h₁.issued_eq, List.append_assoc]
  start_eq := by rw [h₂.start_eq, h₁.start_eq]
  settled := h₂.settled

theorem issues_setData_write {m : Machine} (hs : m.Settled) (b : ℕ) (data : Block) :
    Issues m ((m.setData b data).write b) [(b, data)] := by
  obtain ⟨hv, hd, hi⟩ := setData_write_spec m b data
  exact ⟨by simpa using hv, by simpa using hd, hi, rfl, hs.setData_write b data⟩

theorem issues_writeLogBlock {m : Machine} (hs : m.Settled) (tail : ℕ) :
    Issues m (m.writeLogBlock tail)
      [(m.start + tail + 1, m.view (m.header.block tail))] := by
  have hs' := (hs.getBuffer (m.start + tail + 1)).getBuffer (m.header.block tail)
  have hv := view_getBuffer _ (m.header.block tail) (hs.getBuffer (m.start + tail + 1))
  rw [view_getBuffer _ _ hs] at hv
  have h := issues_setData_write hs' (m.start + tail + 1) (m.view (m.header.block tail))
  simp only [writeLogBlock, hv]
  exact ⟨by simpa only [hv] using h.view_eq, h.disk_eq, h.issued_eq, rfl, h.settled⟩

/-- The header and the pins are not touched while the log blocks are written. -/
theorem writeLog_fold_frame (m : Machine) (n : ℕ) :
    ((List.range n).foldl writeLogBlock m).header = m.header ∧
    ((List.range n).foldl writeLogBlock m).pins = m.pins := by
  induction n with
  | zero => exact ⟨rfl, rfl⟩
  | succ n ih =>
    rw [List.range_succ, List.foldl_append]
    simp only [List.foldl_cons, List.foldl_nil, writeLogBlock]
    exact ih

theorem issues_writeLog_fold {m : Machine} (hs : m.Settled) (n : ℕ)
    (hout : ∀ i j, i < n → j < n → m.start + j + 1 ≠ m.header.block i) :
    Issues m ((List.range n).foldl writeLogBlock m)
      (indexed (fun i => m.start + i + 1) (fun i => m.view (m.header.block i)) n) := by
  induction n with
  | zero => exact ⟨rfl, rfl, by simp [indexed], rfl, hs⟩
  | succ n ih =>
    have h := ih (fun i j hi hj => hout i j (by omega) (by omega))
    have hb := issues_writeLogBlock h.settled n
    rw [(writeLog_fold_frame m n).1, h.start_eq, h.view_eq, apply_indexed_of_ne _ _ _ _ _
      (fun j hj => hout n j (by omega) (by omega))] at hb
    rw [indexed_succ, List.range_succ, List.foldl_append]
    exact h.trans hb

theorem issues_writeHead {m : Machine} (hs : m.Settled) :
    Issues m m.writeHead [(m.start, m.header.copyToBlock (m.view m.start))] := by
  have hv := view_getBuffer m m.start hs
  have h := issues_setData_write (hs.getBuffer m.start) m.start
    (m.header.copyToBlock (m.view m.start))
  simp only [writeHead, hv, header_getBuffer, start_getBuffer]
  exact ⟨by simpa only [hv] using h.view_eq, h.disk_eq, h.issued_eq, rfl, h.settled⟩

theorem Settled.unpin {m : Machine} (hs : m.Settled) (b : ℕ)
    (hb : m.view b = m.disk b) : (m.unpin b).Settled := by
  intro c
  by_cases hc : c = b
  · subst hc; exact Or.inl hb
  · simpa [Machine.unpin, view, hc] using hs c

theorem issues_installBlock {m : Machine} (hs : m.Settled) (isRecovering : Bool) (tail : ℕ) :
    Issues m (installBlock isRecovering m tail)
      [(m.header.block tail, m.view (m.start + tail + 1))] := by
  have hs' := (hs.getBuffer (m.start + tail + 1)).getBuffer (m.header.block tail)
  have hv := view_getBuffer _ (m.header.block tail) (hs.getBuffer (m.start + tail + 1))
  rw [view_getBuffer _ _ hs] at hv
  have h := issues_setData_write hs' (m.header.block tail) (m.view (m.start + tail + 1))
  have h' : Issues m _ _ :=
    ⟨by simpa only [hv] using h.view_eq, h.disk_eq, h.issued_eq, rfl, h.settled⟩
  cases isRecovering with
  | true => simpa only [installBlock, hv, if_true] using h'
  | false =>
    simp only [installBlock, hv, Bool.false_eq_true, if_false]
    refine ⟨h'.view_eq, h'.disk_eq, h'.issued_eq, rfl, h'.settled.unpin _ ?_⟩
    rw [h'.view_eq, h'.disk_eq]
    simp

theorem installBlock_header (isRecovering : Bool) (m : Machine) (tail : ℕ) :
    (installBlock isRecovering m tail).header = m.header := by
  cases isRecovering <;> rfl

theorem install_fold_header (isRecovering : Bool) (m : Machine) (n : ℕ) :
    ((List.range n).foldl (installBlock isRecovering) m).header = m.header := by
  induction n with
  | zero => rfl
  | succ n ih =>
    rw [List.range_succ, List.foldl_append]
    simp only [List.foldl_cons, List.foldl_nil, installBlock_header, ih]

theorem issues_install_fold {m : Machine} (hs : m.Settled) (isRecovering : Bool) (n : ℕ)
    (hout : ∀ i j, i < n → j < n → m.header.block i ≠ m.start + j + 1) :
    Issues m ((List.range n).foldl (installBlock isRecovering) m)
      (indexed m.header.block (fun i => m.view (m.start + i + 1)) n) := by
  induction n with
  | zero => exact ⟨rfl, rfl, by simp [indexed], rfl, hs⟩
  | succ n ih =>
    have h := ih (fun i j hi hj => hout i j (by omega) (by omega))
    have hb := issues_installBlock h.settled isRecovering n
    rw [install_fold_header, h.start_eq, h.view_eq, apply_indexed_of_ne _ _ _ _ _
      (fun i hi => hout i n (by omega) (by omega))] at hb
    rw [indexed_succ, List.range_succ, List.foldl_append]
    exact h.trans hb

theorem Issues.clearLength {m m' : Machine} {ws : List (Write ℕ Block)}
    (h : Issues m m' ws) : Issues m m'.clearLength ws :=
  ⟨h.view_eq, h.disk_eq, h.issued_eq, h.start_eq, h.settled⟩

end Machine

/-- A transaction ready to commit: the on-disk log is empty, the in-memory header
lists distinct home blocks outside the log area, their buffers are pinned with
any contents, and every other buffer agrees with the disk. -/
structure Staged (m : Machine) : Prop where
  issued : m.issued = []
  idle : (Header.ofBlock (m.disk m.start)).length = 0
  length_le : m.header.length ≤ logSize
  room : m.header.length ≤ m.size - 1
  nonempty : 0 < m.size
  number : ∀ i, i < m.header.length → m.header.block i < 2 ^ 32
  distinct : ∀ i j, i < m.header.length → j < m.header.length →
    m.header.block i = m.header.block j → i = j
  outside : ∀ i, i < m.header.length →
    m.header.block i < m.start ∨ m.start + m.size ≤ m.header.block i
  pinned : ∀ i, i < m.header.length → 0 < m.pins (m.header.block i)
  clean : ∀ b, (∀ i, i < m.header.length → m.header.block i ≠ b) → m.view b = m.disk b

namespace Staged
variable {m : Machine}

theorem settled (h : Staged m) : m.Settled := by
  intro b
  by_cases hb : ∃ i, i < m.header.length ∧ m.header.block i = b
  · obtain ⟨i, hi, rfl⟩ := hb
    exact Or.inr (h.pinned i hi)
  · exact Or.inl (h.clean b (fun i hi he => hb ⟨i, hi, he⟩))

theorem home_ne (h : Staged m) {i j : ℕ} (hi : i < m.header.length) (hj : j ≤ m.header.length) :
    m.header.block i ≠ m.start + j := by
  have ho := h.outside i hi
  have hr := h.room
  have hp := h.nonempty
  omega

theorem start_clean (h : Staged m) : m.view m.start = m.disk m.start :=
  h.clean _ (fun _ hi => h.home_ne hi (Nat.zero_le _))

end Staged

/-- The block that the first `writeHead` of `commit` writes. -/
def committedHead (m : Machine) : Block := m.header.copyToBlock (m.disk m.start)

/-- The copies into the log area, and the copies home. -/
def logCopies (m : Machine) : List (Write ℕ Block) :=
  indexed (fun i => m.start + i + 1) (fun i => m.view (m.header.block i)) m.header.length

def homeCopies (m : Machine) : List (Write ℕ Block) :=
  indexed m.header.block (fun i => m.view (m.header.block i)) m.header.length

theorem issues_commitHead {m : Machine} (h : Staged m) :
    Machine.Issues m m.commitHead (logCopies m ++ [(m.start, committedHead m)]) := by
  have hw := Machine.issues_writeLog_fold h.settled m.header.length
    (fun i j hi hj => (h.home_ne hi (show j + 1 ≤ m.header.length by omega)).symm)
  have hh := Machine.issues_writeHead hw.settled
  rw [(Machine.writeLog_fold_frame m _).1, hw.start_eq, hw.view_eq,
    apply_indexed_of_ne _ _ _ _ _ (by intros; omega), h.start_clean] at hh
  exact hw.trans hh

theorem commitHead_header (m : Machine) : m.commitHead.header = m.header :=
  (Machine.writeLog_fold_frame m m.header.length).1

/-- All the writes of a commit. -/
theorem issued_commit {m : Machine} (h : Staged m) (hn : 0 < m.header.length) :
    ∃ cleared, m.commit.issued =
        (logCopies m ++ [(m.start, committedHead m)]) ++ (homeCopies m ++ [(m.start, cleared)]) ∧
      (Header.ofBlock cleared).length = 0 := by
  have hc := issues_commitHead h
  have hheader := commitHead_header m
  have hi := Machine.issues_install_fold hc.settled false m.commitHead.header.length
    (fun i j hi hj => by
      rw [hheader] at hi hj ⊢
      rw [hc.start_eq]
      exact h.home_ne hi (show j + 1 ≤ m.header.length by omega))
  have hvals : indexed m.commitHead.header.block
      (fun i => m.commitHead.view (m.commitHead.start + i + 1)) m.commitHead.header.length =
      homeCopies m := by
    simp only [hheader, homeCopies, indexed]
    apply List.map_congr_left
    intro i hi
    have hi' : i < m.header.length := List.mem_range.mp hi
    rw [hc.view_eq, hc.start_eq, apply_concat, Function.update_of_ne (by simp; omega)]
    exact congrArg _ (apply_indexed m.view (fun i => m.start + i + 1)
      (fun i => m.view (m.header.block i)) m.header.length (by intros; omega) i hi')
  rw [hvals] at hi
  have hw := Machine.issues_writeHead hi.clearLength.settled
  have hall := (hc.trans (hi.clearLength.trans hw)).issued_eq
  have hcommit : m.commit = ((m.commitHead.installTransaction false).clearLength).writeHead :=
    if_pos hn
  rw [h.issued, List.nil_append, hi.clearLength.start_eq, hc.start_eq] at hall
  rw [hcommit]
  exact ⟨_, hall, Header.ofBlock_copyToBlock_length _ _ (Nat.zero_le _)⟩

/-- The writes of a recovery: the copies its on-disk header asks for, then the
cleared header. -/
theorem recoveryWrites_eq (boot : Boot) (start size : ℕ) (d : Disk)
    (hout : ∀ i j, i < (Header.ofBlock (d start)).length → j ≤ (Header.ofBlock (d start)).length →
      (Header.ofBlock (d start)).block i ≠ start + j) :
    ∃ cleared, recoveryWrites boot start size d =
        indexed (Header.ofBlock (d start)).block (fun i => d (start + i + 1))
          (Header.ofBlock (d start)).length ++ [(start, cleared)] ∧
      (Header.ofBlock cleared).length = 0 := by
  let m := (boot.machine start size d).readHead
  have hs : (boot.machine start size d).Settled := fun _ => Or.inl rfl
  have hview : m.view = d := Machine.view_getBuffer _ _ hs
  have hheader : m.header = boot.memory.copyFrom (Header.ofBlock (d start)) := by
    change boot.memory.copyFrom (Header.ofBlock (m.view start)) = _
    rw [hview]
  have hlen : m.header.length = (Header.ofBlock (d start)).length := by
    rw [hheader, Header.copyFrom_length]
  have hblock : ∀ i, i < m.header.length → m.header.block i = (Header.ofBlock (d start)).block i := by
    intro i hi
    rw [hheader]
    exact Header.copyFrom_block _ _ _ (hlen ▸ hi)
  have hms : m.Settled := hs.getBuffer start
  have hi := Machine.issues_install_fold hms true m.header.length (fun i j hi hj => by
    rw [hblock i hi]
    exact hout i (j + 1) (hlen ▸ hi) (by omega))
  have hw := Machine.issues_writeHead hi.clearLength.settled
  have hall := (hi.clearLength.trans hw).issued_eq
  have hcopies : indexed m.header.block (fun i => m.view (m.start + i + 1)) m.header.length =
      indexed (Header.ofBlock (d start)).block (fun i => d (start + i + 1))
        (Header.ofBlock (d start)).length := by
    rw [← hlen, hview]
    apply List.map_congr_left
    intro i hi
    rw [hblock i (List.mem_range.mp hi)]
    rfl
  rw [hcopies, hi.clearLength.start_eq] at hall
  exact ⟨_, hall, Header.ofBlock_copyToBlock_length _ _ (Nat.zero_le _)⟩

/-- The disk contents once the transaction of `m` has taken effect. -/
def committedDisk (m : Machine) : Disk := apply m.disk (homeCopies m)

theorem committedDisk_home {m : Machine} (h : Staged m) {i : ℕ} (hi : i < m.header.length) :
    committedDisk m (m.header.block i) = m.view (m.header.block i) :=
  apply_indexed m.disk m.header.block (fun i => m.view (m.header.block i)) _ h.distinct i hi

theorem committedDisk_other (m : Machine) {b : ℕ}
    (hb : ∀ i, i < m.header.length → m.header.block i ≠ b) : committedDisk m b = m.disk b :=
  apply_indexed_of_ne _ _ _ _ _ hb

/-- Whether block `b` lies in the log area. -/
def InLog (start size b : ℕ) : Prop := start ≤ b ∧ b < start + size

/-- The log on `d` is empty, and outside the log area `d` holds what `base` holds. -/
structure Idle (start size : ℕ) (base d : Disk) : Prop where
  length_eq : (Header.ofBlock (d start)).length = 0
  outside_eq : ∀ b, ¬ InLog start size b → d b = base b

/-- `d` holds the whole transaction of `m` in its log area; some home blocks may
have been copied already. -/
structure Logged (m : Machine) (d : Disk) : Prop where
  head : d m.start = committedHead m
  copies : ∀ i, i < m.header.length → d (m.start + i + 1) = m.view (m.header.block i)
  outside_eq : ∀ b, ¬ InLog m.start m.size b → d b = m.disk b ∨ d b = committedDisk m b

section Disks
variable {m : Machine}

theorem Idle.update {start size : ℕ} {base d : Disk} (h : Idle start size base d) {b : ℕ}
    {v : Block} (hb : InLog start size b) (hlen : b = start → (Header.ofBlock v).length = 0) :
    Idle start size base (Function.update d b v) := by
  refine ⟨?_, ?_⟩
  · by_cases hbs : start = b
    · subst hbs; simpa using hlen rfl
    · rw [Function.update_of_ne hbs]; exact h.length_eq
  · intro c hc
    rw [Function.update_of_ne (by rintro rfl; exact hc hb)]
    exact h.outside_eq c hc

theorem Staged.idle_disk (h : Staged m) : Idle m.start m.size m.disk m.disk :=
  ⟨h.idle, fun _ _ => rfl⟩

theorem Staged.inLog (h : Staged m) {j : ℕ} (hj : j ≤ m.header.length) :
    InLog m.start m.size (m.start + j) := by
  have hr := h.room
  have hp := h.nonempty
  exact ⟨by omega, by omega⟩

/-- Before the header is written the log stays empty, whatever was copied into it. -/
theorem Staged.idle_logCopies (h : Staged m) (k : ℕ) :
    Idle m.start m.size m.disk (apply m.disk ((logCopies m).take k)) := by
  refine apply_take_induction m.disk (logCopies m) h.idle_disk ?_ k
  intro e he w hw
  obtain ⟨i, hi, rfl⟩ := mem_indexed.mp hw
  exact he.update (h.inLog (show i + 1 ≤ m.header.length by omega)) (by intro hc; simp at hc; omega)

/-- Once the header is written the log holds the transaction. -/
theorem Staged.logged_head (h : Staged m) :
    Logged m (apply m.disk (logCopies m ++ [(m.start, committedHead m)])) := by
  rw [apply_concat]
  refine ⟨by simp, ?_, ?_⟩
  · intro i hi
    rw [Function.update_of_ne (by simp; omega)]
    exact apply_indexed m.disk (fun i => m.start + i + 1) (fun i => m.view (m.header.block i))
      _ (by intros; omega) i hi
  · intro b hb
    left
    have h0 := h.inLog (Nat.zero_le _)
    have hne : b ≠ m.start := by rintro rfl; exact hb h0
    rw [Function.update_of_ne hne]
    have hi := h.idle_logCopies (logCopies m).length
    rw [List.take_length] at hi
    exact hi.outside_eq b hb

theorem Staged.head_length (h : Staged m) :
    (Header.ofBlock (committedHead m)).length = m.header.length :=
  Header.ofBlock_copyToBlock_length _ _ h.length_le

theorem Staged.head_block (h : Staged m) {i : ℕ} (hi : i < m.header.length) :
    (Header.ofBlock (committedHead m)).block i = m.header.block i :=
  Header.ofBlock_copyToBlock_block _ _ h.length_le i hi (h.number i hi)

/-- Copying a block home keeps the logged transaction. -/
theorem Logged.update_home (h : Staged m) {d : Disk} (hd : Logged m d)
    {w : Write ℕ Block} (hw : w ∈ homeCopies m) : Logged m (Function.update d w.1 w.2) := by
  obtain ⟨i, hi, rfl⟩ := mem_indexed.mp hw
  refine ⟨?_, ?_, ?_⟩
  · have hne : m.start ≠ m.header.block i := (h.home_ne hi (Nat.zero_le _)).symm
    rw [Function.update_of_ne hne]
    exact hd.head
  · intro j hj
    have hne : m.start + j + 1 ≠ m.header.block i :=
      (h.home_ne hi (show j + 1 ≤ m.header.length by omega)).symm
    rw [Function.update_of_ne hne]
    exact hd.copies j hj
  · intro b hb
    by_cases hbi : b = m.header.block i
    · subst hbi
      right
      rw [committedDisk_home h hi]
      simp
    · rw [Function.update_of_ne hbi]
      exact hd.outside_eq b hb

/-- With every block copied home the disk is the committed one, and clearing the
header ends the transaction. -/
theorem Logged.cleared (h : Staged m) {d : Disk} (hd : Logged m d) (cleared : Block)
    (hc : (Header.ofBlock cleared).length = 0) :
    Idle m.start m.size (committedDisk m)
      (apply d (homeCopies m ++ [(m.start, cleared)])) := by
  rw [apply_concat]
  refine ⟨by simpa using hc, ?_⟩
  intro b hb
  have h0 := h.inLog (Nat.zero_le _)
  have hne : b ≠ m.start := by rintro rfl; exact hb h0
  rw [Function.update_of_ne hne]
  by_cases hbi : ∃ i, i < m.header.length ∧ m.header.block i = b
  · obtain ⟨i, hi, rfl⟩ := hbi
    rw [committedDisk_home h hi]
    exact apply_indexed d m.header.block (fun i => m.view (m.header.block i)) _ h.distinct i hi
  · have hno : ∀ i, i < m.header.length → m.header.block i ≠ b := fun i hi he => hbi ⟨i, hi, he⟩
    rw [homeCopies, apply_indexed_of_ne _ _ _ _ _ hno]
    rcases hd.outside_eq b hb with he | he
    · rw [he, committedDisk_other m hno]
    · exact he

/-- Stopping inside the second half of a commit or inside a recovery of it. -/
theorem Logged.take (h : Staged m) {d : Disk} (hd : Logged m d) (cleared : Block)
    (hc : (Header.ofBlock cleared).length = 0) (k : ℕ) :
    Logged m (apply d ((homeCopies m ++ [(m.start, cleared)]).take k)) ∨
      Idle m.start m.size (committedDisk m)
        (apply d ((homeCopies m ++ [(m.start, cleared)]).take k)) := by
  by_cases hk : k ≤ (homeCopies m).length
  · left
    rw [List.take_append_of_le_length hk]
    exact apply_take_induction d _ hd (fun e he w hw => he.update_home h hw) k
  · right
    rw [List.take_of_length_le (by simp; omega)]
    exact hd.cleared h cleared hc

/-- A recovery of a logged transaction copies the same blocks home. -/
theorem Logged.recoveryWrites (h : Staged m) {d : Disk} (hd : Logged m d) (boot : Boot) :
    ∃ cleared, recoveryWrites boot m.start m.size d = homeCopies m ++ [(m.start, cleared)] ∧
      (Header.ofBlock cleared).length = 0 := by
  have hlen : (Header.ofBlock (d m.start)).length = m.header.length := by
    rw [hd.head, h.head_length]
  have hblock : ∀ i, i < m.header.length →
      (Header.ofBlock (d m.start)).block i = m.header.block i := by
    intro i hi
    rw [hd.head, h.head_block hi]
  obtain ⟨cleared, hw, hc⟩ := recoveryWrites_eq boot m.start m.size d (fun i j hi hj => by
    rw [hlen] at hi hj
    rw [hblock i hi]
    exact h.home_ne hi hj)
  refine ⟨cleared, ?_, hc⟩
  rw [hw, hlen]
  congr 1
  apply List.map_congr_left
  intro i hi
  have hi' := List.mem_range.mp hi
  simp only [hblock i hi', hd.copies i hi']

/-- A recovery of an empty log rewrites the empty header. -/
theorem Idle.recoveryWrites {start size : ℕ} {base d : Disk} (hd : Idle start size base d)
    (boot : Boot) :
    ∃ cleared, recoveryWrites boot start size d = [(start, cleared)] ∧
      (Header.ofBlock cleared).length = 0 := by
  obtain ⟨cleared, hw, hc⟩ := recoveryWrites_eq boot start size d
    (fun i j hi _ => by rw [hd.length_eq] at hi; omega)
  exact ⟨cleared, by rw [hw, hd.length_eq]; rfl, hc⟩

/-- Any part of a recovery of an empty log leaves it empty. -/
theorem Idle.recover_take {start size : ℕ} {base d : Disk} (hd : Idle start size base d)
    (hsize : 0 < size) (boot : Boot) (k : ℕ) :
    Idle start size base (apply d ((Log.recoveryWrites boot start size d).take k)) := by
  obtain ⟨cleared, hw, hc⟩ := hd.recoveryWrites boot
  rw [hw]
  refine apply_take_induction d _ hd ?_ k
  intro e he w hmem
  obtain rfl := List.mem_singleton.mp hmem
  exact he.update ⟨le_rfl, by omega⟩ (fun _ => hc)

theorem Idle.recoverAll {start size : ℕ} {base d : Disk} (hd : Idle start size base d)
    (hsize : 0 < size) (stopped : List (Boot × ℕ)) (last : Boot) :
    Idle start size base (recoverAll start size stopped last d) := by
  induction stopped generalizing d with
  | nil =>
    have hall := hd.recover_take hsize last (Log.recoveryWrites last start size d).length
    rw [List.take_length] at hall
    exact hall
  | cons r stopped ih => exact ih (hd.recover_take hsize r.1 r.2)

/-- Recoveries of a logged transaction end with the committed disk. -/
theorem Logged.recoverAll (h : Staged m) {d : Disk} (hd : Logged m d)
    (stopped : List (Boot × ℕ)) (last : Boot) :
    Idle m.start m.size (committedDisk m) (recoverAll m.start m.size stopped last d) := by
  induction stopped generalizing d with
  | nil =>
    obtain ⟨cleared, hw, hc⟩ := hd.recoveryWrites h last
    simpa [Log.recoverAll, hw] using hd.cleared h cleared hc
  | cons r stopped ih =>
    obtain ⟨cleared, hw, hc⟩ := hd.recoveryWrites h r.1
    have htake := hd.take h cleared hc r.2
    rw [← hw] at htake
    rcases htake with hl | hi
    · exact ih hl
    · exact hi.recoverAll h.nonempty stopped last

/-- Where a stop inside `commit` leaves the disk. -/
theorem stoppedCommit_cases (h : Staged m) (k : ℕ) :
    (k < m.commitHead.issued.length ∧ Idle m.start m.size m.disk (stoppedCommit m k)) ∨
    (m.commitHead.issued.length ≤ k ∧
      (Logged m (stoppedCommit m k) ∨
        Idle m.start m.size (committedDisk m) (stoppedCommit m k))) ∨
    m.header.length = 0 ∧ Idle m.start m.size m.disk (stoppedCommit m k) := by
  by_cases hn : 0 < m.header.length
  · have hhead : m.commitHead.issued = logCopies m ++ [(m.start, committedHead m)] := by
      rw [(issues_commitHead h).issued_eq, h.issued, List.nil_append]
    obtain ⟨cleared, hissued, hc⟩ := issued_commit h hn
    rw [stoppedCommit, hissued, hhead]
    by_cases hk : k ≤ (logCopies m).length
    · left
      refine ⟨by simp; omega, ?_⟩
      rw [List.append_assoc, List.take_append_of_le_length hk]
      exact h.idle_logCopies k
    · right; left
      have hk' : (logCopies m ++ [(m.start, committedHead m)]).length ≤ k := by simp; omega
      refine ⟨hk', ?_⟩
      rw [List.take_append, List.take_of_length_le hk', apply_append]
      exact h.logged_head.take h cleared hc _
  · right; right
    have h0 : m.header.length = 0 := by omega
    have hcommit : m.commit = m := if_neg (by omega)
    refine ⟨h0, ?_⟩
    simpa [stoppedCommit, hcommit, h.issued] using h.idle_disk

end Disks

/-- A transaction that was being committed when the machine stopped is, after any
number of stopped recoveries and one complete recovery, wholly there when the
first `writeHead` had reached the disk and wholly absent otherwise. -/
theorem commit_crash_atomic (m : Machine) (h : Staged m) (k : ℕ)
    (stopped : List (Boot × ℕ)) (last : Boot) :
    let d := recoverAll m.start m.size stopped last (stoppedCommit m k)
    (∀ i, i < m.header.length → d (m.header.block i) =
      if m.commitHead.issued.length ≤ k then m.view (m.header.block i)
      else m.disk (m.header.block i)) ∧
    (∀ b, ¬ InLog m.start m.size b → (∀ i, i < m.header.length → m.header.block i ≠ b) →
      d b = m.disk b) ∧
    (Header.ofBlock (d m.start)).length = 0 := by
  intro d
  have hout : ∀ i, i < m.header.length → ¬ InLog m.start m.size (m.header.block i) := by
    intro i hi hlog
    have ho := h.outside i hi
    exact absurd hlog.1 (by have := hlog.2; omega)
  rcases stoppedCommit_cases h k with ⟨hk, hd⟩ | ⟨hk, hd⟩ | ⟨h0, hd⟩
  · have hi := hd.recoverAll h.nonempty stopped last
    refine ⟨?_, fun b hb _ => hi.outside_eq b hb, hi.length_eq⟩
    intro i hlt
    rw [if_neg (by omega)]
    exact hi.outside_eq _ (hout i hlt)
  · have hi : Idle m.start m.size (committedDisk m) d := by
      rcases hd with hl | hl
      · exact hl.recoverAll h stopped last
      · exact hl.recoverAll h.nonempty stopped last
    refine ⟨?_, ?_, hi.length_eq⟩
    · intro i hlt
      rw [if_pos hk, ← committedDisk_home h hlt]
      exact hi.outside_eq _ (hout i hlt)
    · intro b hb hne
      rw [← committedDisk_other m hne]
      exact hi.outside_eq b hb
  · have hi := hd.recoverAll h.nonempty stopped last
    exact ⟨fun i hlt => by omega, fun b hb _ => hi.outside_eq b hb, hi.length_eq⟩

/-- A commit of one block, number 40, on a disk of zeros with its log at block 2. -/
def oneBlock : Machine where
  disk := fun _ => Block.zero
  cached := fun b => if b = 40 then some (fun _ => 7) else none
  pins := fun b => if b = 40 then 1 else 0
  recycler := fun _ _ => true
  requests := 0
  start := 2
  size := 30
  header := ⟨1, fun _ => 40⟩
  issued := []

theorem staged_oneBlock : Staged oneBlock where
  issued := rfl
  idle := Block.readField_zero 0 4
  length_le := by decide
  room := by decide
  nonempty := by decide
  number := by intro i _; change 40 < 2 ^ 32; norm_num
  distinct := by intro i j hi hj _; simp only [oneBlock] at hi hj; omega
  outside := by intro i _; right; change 2 + 30 ≤ 40; norm_num
  pinned := by intro i _; change 0 < 1; norm_num
  clean := by
    intro b hb
    have hne : b ≠ 40 := fun h => hb 0 (by decide) h.symm
    simp [Machine.view, oneBlock, hne]

theorem commit_crash_atomic_oneBlock :
    let boot : Boot := ⟨⟨0, fun _ => 0⟩, fun _ _ => false⟩
    recoverAll 2 30 [(boot, 1)] boot (stoppedCommit oneBlock 2) 40 = (fun _ => 7) ∧
    recoverAll 2 30 [(boot, 1)] boot (stoppedCommit oneBlock 1) 40 = Block.zero := by
  intro boot
  have hlen : oneBlock.commitHead.issued.length = 2 := by
    rw [(issues_commitHead staged_oneBlock).issued_eq]; rfl
  have h2 := (commit_crash_atomic oneBlock staged_oneBlock 2 [(boot, 1)] boot).1 0 (by decide)
  have h1 := (commit_crash_atomic oneBlock staged_oneBlock 1 [(boot, 1)] boot).1 0 (by decide)
  rw [hlen] at h2 h1
  exact ⟨h2, h1⟩

end Zigmaos.Log
