import Zigmaos.InodeSpace
import Zigmaos.Transition

/-!
# Writers that share an open file

`File.write` for a file of kind inode. The offset belongs to the open file, which
processes share after `fork` and `dup`. Each turn of the loop runs inside one
operation of the log and under the lock of the inode, so the turns of all calls
come one after another, in any order.
-/
namespace Zigmaos.FileWrites
open InodeBlocks (State WellFormed source Written maxFileBlockCount write_full)

/-- `max_bytes` -/
def maxBytes : ℕ := (maxNumOperationBlocks - 1 - 1 - 2) / 2 * blockSize

inductive WriteError
  | inode (error : InodeBlocks.Error)
  | writeToInodeFailed
  deriving DecidableEq

/-- A call of `write`. The bytes at its address are all mapped. -/
structure Call (π : Type) where
  process : π
  data : List UInt8
  /-- `bytes_written` -/
  written : ℕ
  result : Option (Except WriteError ℕ)

/-- What one turn of a call has written. -/
structure Chunk where
  call : ℕ
  offset : ℕ
  bytes : List UInt8

/-- The open file with the calls so far, and what their turns have written. -/
structure System (π : Type) where
  disk : State
  inode : ℕ
  offset : ℕ
  calls : List (Call π)
  chunks : List Chunk

variable {π : Type}

def Call.pending (c : Call π) : Prop := c.result = none

instance (c : Call π) : Decidable c.pending :=
  match h : c.result with
  | none => .isTrue h
  | some _ => .isFalse (by simp [Call.pending, h])

/-- `address.add(bytes_written)` -/
def Call.source (c : Call π) : ℕ → ℕ → List UInt8 × Bool :=
  InodeBlocks.source (fun k => (c.data[c.written + k]?).getD 0) (c.data.length - c.written)

/-- The bytes of the next turn. -/
def Call.count (c : Call π) : ℕ := min (c.data.length - c.written) maxBytes

def beginOperation (s : State) : State := { s with outstanding := s.outstanding + 1 }
def endOperation (s : State) : State := { s with outstanding := s.outstanding - 1 }

namespace System

def setCall (s : System π) (i : ℕ) (c : Call π) : System π := { s with calls := s.calls.set i c }

/-- One turn of call `i`, or its end. `none`: there is no such call, or it panics. -/
def turn (s : System π) (i : ℕ) : Option (System π) :=
  match s.calls[i]? with
  | none => none
  | some c =>
    if ¬ c.pending then none
    else if c.written < c.data.length then
      match (beginOperation s.disk).write s.inode c.source s.offset c.count with
      | .error _ => none
      | .ok (.error e, disk) =>
        some ({ s with disk := endOperation disk }.setCall i
          { c with result := some (.error (.inode e)) })
      | .ok (.ok written, disk) =>
        let s := { s with
          disk := endOperation disk
          offset := s.offset + written
          chunks := s.chunks ++ [Chunk.mk i s.offset ((c.data.drop c.written).take written)] }
        if written ≠ c.count then
          some (s.setCall i { c with result := some (.error .writeToInodeFailed) })
        else some (s.setCall i { c with written := c.written + written })
    else some (s.setCall i { c with result := some (.ok c.written) })

end System

inductive Event (π : Type)
  | call (process : π) (data : List UInt8)
  | turn (call : ℕ)

/-- A process has one call at a time. -/
def step [DecidableEq π] (s : System π) : Event π → Option (System π)
  | .call process data =>
    if ∃ c ∈ s.calls, c.process = process ∧ c.pending then none
    else some { s with calls := s.calls ++ [⟨process, data, 0, none⟩] }
  | .turn i => s.turn i

/-- The bytes that the calls of a run are to write. -/
def total (es : List (Event π)) : ℕ :=
  (es.map (fun e => match e with
    | .call _ data => data.length
    | .turn _ => 0)).sum

/-- The chunks lie one behind the other from `start` to `stop`. -/
def Tiles : ℕ → ℕ → List Chunk → Prop
  | start, stop, [] => start = stop
  | start, stop, c :: cs => c.offset = start ∧ Tiles (start + c.bytes.length) stop cs

theorem Tiles.concat {start stop : ℕ} {cs : List Chunk} {c : Chunk} (h : Tiles start stop cs)
    (hc : c.offset = stop) : Tiles start (stop + c.bytes.length) (cs ++ [c]) := by
  induction cs generalizing start with
  | nil =>
    obtain rfl : start = stop := h
    exact ⟨hc, rfl⟩
  | cons d cs ih => exact ⟨h.1, ih h.2⟩

theorem Tiles.le {start stop : ℕ} {cs : List Chunk} (h : Tiles start stop cs) : start ≤ stop := by
  induction cs generalizing start with
  | nil => exact le_of_eq h
  | cons d cs ih => exact (Nat.le_add_right _ _).trans (ih h.2)

theorem Tiles.bounds {start stop : ℕ} {cs : List Chunk} (h : Tiles start stop cs) {c : Chunk}
    (hc : c ∈ cs) : start ≤ c.offset ∧ c.offset + c.bytes.length ≤ stop := by
  induction cs generalizing start with
  | nil => exact absurd hc List.not_mem_nil
  | cons d cs ih =>
    obtain ⟨hd, hrest⟩ := h
    rcases List.mem_cons.mp hc with rfl | hc
    · exact ⟨hd.ge, by rw [hd]; exact hrest.le⟩
    · have := ih hrest hc
      omega

/-- Chunks that tile a range do not overlap. -/
theorem Tiles.pairwise {start stop : ℕ} {cs : List Chunk} (h : Tiles start stop cs) :
    cs.Pairwise (fun c d => c.offset + c.bytes.length ≤ d.offset) := by
  induction cs generalizing start with
  | nil => exact List.Pairwise.nil
  | cons d cs ih =>
    obtain ⟨hd, hrest⟩ := h
    refine List.Pairwise.cons (fun c hc => ?_) (ih hrest)
    rw [hd]
    exact (hrest.bounds hc).1

/-- The bytes that a call has written, in the order of its turns. -/
def System.bytesOf (s : System π) (i : ℕ) : List UInt8 :=
  (s.chunks.filter (fun c => c.call = i)).flatMap Chunk.bytes

def Call.left (c : Call π) : ℕ := c.data.length - c.written

/-- The turns that a call still takes. -/
def Call.turnsLeft (c : Call π) : ℕ :=
  if c.pending then (c.data.length - c.written + (maxBytes - 1)) / maxBytes + 1 else 0

/-- Replacing one element changes a sum by the difference. -/
theorem sum_map_set {α : Type} (f : α → ℕ) {l : List α} {i : ℕ} {a : α} (h : l[i]? = some a)
    (b : α) : ((l.set i b).map f).sum + f a = (l.map f).sum + f b := by
  induction l generalizing i with
  | nil => exact absurd h nofun
  | cons x l ih =>
    cases i with
    | zero =>
      obtain rfl : x = a := by simpa using h
      simp only [List.set_cons_zero, List.map_cons, List.sum_cons]
      omega
    | succ i =>
      have hi := ih (i := i) (by simpa using h)
      simp only [List.set_cons_succ, List.map_cons, List.sum_cons]
      omega

theorem le_sum_map {α : Type} (f : α → ℕ) {l : List α} {a : α} (h : a ∈ l) :
    f a ≤ (l.map f).sum :=
  List.le_sum_of_mem (List.mem_map_of_mem h)

/-! ## One turn -/

/-- What holds of a call at any time. -/
structure CallInvariant (s : System π) (i : ℕ) (c : Call π) : Prop where
  written_le : c.written ≤ c.data.length
  bytesOf_eq : s.bytesOf i = c.data.take c.written
  result_eq : ∀ r, c.result = some r → r = .ok c.data.length ∧ c.written = c.data.length

/-- `start` is the first offset, `planned` is where it will be when the calls so far have
returned, and up to `stop` there is room. -/
structure Invariant (live : ℕ → Prop) (inode start planned stop : ℕ) (s : System π) : Prop where
  inode_eq : s.inode = inode
  wellFormed : WellFormed live s.disk
  enough : s.disk.Enough inode stop
  offset_le : s.offset ≤ (s.disk.inodes inode).size
  left_eq : s.offset + (s.calls.map Call.left).sum = planned
  tiles : Tiles start s.offset s.chunks
  count_le : ∀ c ∈ s.chunks, c.bytes.length ≤ maxBytes
  call : ∀ i c, s.calls[i]? = some c → CallInvariant s i c
  call_lt : ∀ c ∈ s.chunks, c.call < s.calls.length
  contents : ∀ c ∈ s.chunks, ∀ k, k < c.bytes.length →
    s.disk.fileByte inode (c.offset + k) = (c.bytes[k]?).getD 0

variable {live : ℕ → Prop} {inode start planned stop : ℕ} {s s' : System π}

/-- The state after a turn that writes all its bytes. -/
def System.wrote (s : System π) (i : ℕ) (c : Call π) (disk : State) : System π :=
  { s with
    disk := disk
    offset := s.offset + c.count
    calls := s.calls.set i { c with written := c.written + c.count }
    chunks := s.chunks ++ [Chunk.mk i s.offset ((c.data.drop c.written).take c.count)] }

theorem Call.count_le (c : Call π) : c.count ≤ c.left := min_le_left _ _

theorem Call.count_pos {c : Call π} (h : c.written < c.data.length) : 0 < c.count := by
  have : 0 < maxBytes := by decide
  simp only [Call.count]
  omega

theorem left_wrote {c : Call π} :
    Call.left { c with written := c.written + c.count } + c.count = c.left := by
  have := c.count_le
  simp only [Call.left] at *
  omega

theorem Call.turnsLeft_of_pending {c : Call π} (h : c.pending) :
    c.turnsLeft = (c.left + 3071) / 3072 + 1 := if_pos h

theorem left_le_sum {i : ℕ} {c : Call π} (h : s.calls[i]? = some c) :
    c.left ≤ (s.calls.map Call.left).sum :=
  le_sum_map Call.left (List.mem_of_getElem? h)

/-- A turn with bytes left writes its chunk. -/
theorem Invariant.turn_eq (h : Invariant live inode start planned stop s) (hlive : live inode)
    (hstop : stop ≤ maxFileBlockCount * blockSize) (hplanned : planned ≤ stop) {i : ℕ} {c : Call π}
    (hc : s.calls[i]? = some c) (hp : c.pending) (hlt : c.written < c.data.length) :
    ∃ disk, s.turn i = some (s.wrote i c disk) ∧
      (disk.inodes inode).size = max (s.disk.inodes inode).size (s.offset + c.count) ∧
      WellFormed live disk ∧ disk.Enough inode stop ∧ ∀ k, disk.fileByte inode k =
        if s.offset ≤ k ∧ k < s.offset + c.count then
          (c.data[c.written + (k - s.offset)]?).getD 0 else s.disk.fileByte inode k := by
  have hle : s.offset + c.count ≤ stop := by
    have := c.count_le
    have := left_le_sum hc
    have := h.left_eq
    omega
  have hwell : WellFormed live (beginOperation s.disk) := h.wellFormed.congr rfl rfl rfl
    (fun _ _ _ => rfl)
  obtain ⟨disk, hw, -, hsize, hdone⟩ := write_full hwell hlive
    (show 0 < s.disk.outstanding + 1 by omega) hstop (h.enough.congr rfl rfl (fun _ => rfl) rfl)
    (fun k => (c.data[c.written + k]?).getD 0) (c.data.length - c.written)
    (h.offset_le) hle c.count_le
  refine ⟨endOperation disk, ?_, hsize, hdone.wellFormed.congr rfl rfl rfl (fun _ _ _ => rfl),
    hdone.enough.congr rfl rfl (fun _ => rfl) rfl, hdone.fileByte_eq⟩
  unfold System.turn
  rw [hc]
  simp only [if_neg (not_not.mpr hp), if_pos hlt, h.inode_eq]
  change (match (beginOperation s.disk).write inode (InodeBlocks.source
    (fun k => (c.data[c.written + k]?).getD 0) (c.data.length - c.written)) s.offset c.count with
    | .error _ => _
    | .ok (.error e, disk) => _
    | .ok (.ok written, disk) => _) = _
  rw [hw]
  simp only [ne_eq, not_true_eq_false, if_false, System.wrote, System.setCall, h.inode_eq]

theorem bytesOf_wrote (s : System π) (i : ℕ) (c : Call π) (disk : State) (j : ℕ) :
    (s.wrote i c disk).bytesOf j =
      s.bytesOf j ++ if i = j then (c.data.drop c.written).take c.count else [] := by
  unfold System.bytesOf System.wrote
  rw [List.filter_append, List.flatMap_append]
  by_cases hij : i = j <;> simp [hij]

theorem take_drop_length {c : Call π} : ((c.data.drop c.written).take c.count).length = c.count := by
  rw [List.length_take, List.length_drop]
  exact min_eq_left c.count_le

theorem getElem?_take_drop {c : Call π} {k : ℕ} (hk : k < c.count) :
    ((c.data.drop c.written).take c.count)[k]? = c.data[c.written + k]? := by
  rw [List.getElem?_take_of_lt hk, List.getElem?_drop]

theorem Invariant.wrote (h : Invariant live inode start planned stop s) {i : ℕ} {c : Call π}
    (hc : s.calls[i]? = some c) (hp : c.pending) {disk : State} (hw : WellFormed live disk)
    (henough : disk.Enough inode stop)
    (hsize : (disk.inodes inode).size = max (s.disk.inodes inode).size (s.offset + c.count))
    (hbytes : ∀ k, disk.fileByte inode k = if s.offset ≤ k ∧ k < s.offset + c.count then
      (c.data[c.written + (k - s.offset)]?).getD 0 else s.disk.fileByte inode k) :
    Invariant live inode start planned stop (s.wrote i c disk) where
  inode_eq := h.inode_eq
  wellFormed := hw
  enough := henough
  offset_le := by
    change s.offset + c.count ≤ (disk.inodes inode).size
    omega
  left_eq := by
    have hset := sum_map_set Call.left hc { c with written := c.written + c.count }
    have hleft := left_wrote (c := c)
    have := h.left_eq
    change s.offset + c.count +
      ((s.calls.set i { c with written := c.written + c.count }).map Call.left).sum = planned
    omega
  tiles := by
    have ht := h.tiles.concat (c := Chunk.mk i s.offset ((c.data.drop c.written).take c.count)) rfl
    rwa [take_drop_length] at ht
  count_le d hd := by
    rcases List.mem_append.mp hd with hd | hd
    · exact h.count_le d hd
    · rw [List.mem_singleton.mp hd, take_drop_length]
      exact min_le_right _ _
  call j d hd := by
    have hd' : (s.calls.set i { c with written := c.written + c.count })[j]? = some d := hd
    rw [List.getElem?_set] at hd'
    have hbytesOf := bytesOf_wrote s i c disk j
    by_cases hij : i = j
    · subst hij
      rw [if_pos rfl] at hd'
      obtain ⟨-, hd'⟩ := Option.ite_none_right_eq_some.mp hd'
      obtain rfl := Option.some.inj hd'
      have hcall := h.call i c hc
      have hle := c.count_le
      refine ⟨?_, ?_, fun r hr => absurd (hp.symm.trans hr) nofun⟩
      · have := hcall.written_le
        simp only [Call.left] at *
        omega
      · rw [hbytesOf, if_pos rfl, hcall.bytesOf_eq]
        exact (List.take_add ..).symm
    · rw [if_neg hij] at hd'
      have hcall := h.call j d hd'
      exact ⟨hcall.written_le, by rw [hbytesOf, if_neg hij, List.append_nil]; exact hcall.bytesOf_eq,
        hcall.result_eq⟩
  call_lt d hd := by
    have hlen : (s.wrote i c disk).calls.length = s.calls.length := List.length_set ..
    rw [hlen]
    rcases List.mem_append.mp hd with hd | hd
    · exact h.call_lt d hd
    · rw [List.mem_singleton.mp hd]
      exact (List.getElem?_eq_some_iff.mp hc).1
  contents d hd k hk := by
    change disk.fileByte inode (d.offset + k) = _
    rcases List.mem_append.mp hd with hd | hd
    · -- Earlier chunks end before the offset.
      have := (h.tiles.bounds hd).2
      rw [hbytes, if_neg (by omega)]
      exact h.contents d hd k hk
    · rw [List.mem_singleton.mp hd] at hk ⊢
      rw [take_drop_length] at hk
      simp only at hk ⊢
      rw [hbytes, if_pos (by omega), getElem?_take_drop hk, Nat.add_sub_cancel_left]

/-- A call that has written all its bytes returns their number. -/
theorem Invariant.finish (h : Invariant live inode start planned stop s) {i : ℕ} {c : Call π}
    (hc : s.calls[i]? = some c) (hge : ¬ c.written < c.data.length) :
    Invariant live inode start planned stop (s.setCall i { c with result := some (.ok c.written) }) where
  inode_eq := h.inode_eq
  wellFormed := h.wellFormed
  enough := h.enough
  offset_le := h.offset_le
  left_eq := by
    have hset := sum_map_set Call.left hc { c with result := some (.ok c.written) }
    have hleft : Call.left { c with result := some (.ok c.written) } = c.left := rfl
    have := h.left_eq
    change s.offset +
      ((s.calls.set i { c with result := some (.ok c.written) }).map Call.left).sum = planned
    omega
  tiles := h.tiles
  count_le := h.count_le
  call j d hd := by
    have hd' : (s.calls.set i { c with result := some (.ok c.written) })[j]? = some d := hd
    rw [List.getElem?_set] at hd'
    by_cases hij : i = j
    · subst hij
      rw [if_pos rfl] at hd'
      obtain ⟨-, hd'⟩ := Option.ite_none_right_eq_some.mp hd'
      obtain rfl := Option.some.inj hd'
      have hcall := h.call i c hc
      have heq : c.written = c.data.length := by
        have := hcall.written_le
        omega
      refine ⟨hcall.written_le, hcall.bytesOf_eq, fun r hr => ⟨?_, heq⟩⟩
      rw [← Option.some.inj hr, heq]
    · rw [if_neg hij] at hd'
      have hcall := h.call j d hd'
      exact ⟨hcall.written_le, hcall.bytesOf_eq, hcall.result_eq⟩
  call_lt d hd := by
    have hlen : (s.setCall i { c with result := some (.ok c.written) }).calls.length =
        s.calls.length := List.length_set ..
    rw [hlen]
    exact h.call_lt d hd
  contents := h.contents

theorem Invariant.begin (h : Invariant live inode start planned stop s) (process : π)
    (data : List UInt8) : Invariant live inode start (planned + data.length) stop
      { s with calls := s.calls ++ [⟨process, data, 0, none⟩] } where
  inode_eq := h.inode_eq
  wellFormed := h.wellFormed
  enough := h.enough
  offset_le := h.offset_le
  left_eq := by
    have := h.left_eq
    simp only [List.map_append, List.sum_append, List.map_cons, List.map_nil, List.sum_cons,
      List.sum_nil, Call.left]
    omega
  tiles := h.tiles
  count_le := h.count_le
  call j d hd := by
    rcases Nat.lt_trichotomy j s.calls.length with hj | hj | hj
    · rw [List.getElem?_append_left hj] at hd
      have hcall := h.call j d hd
      exact ⟨hcall.written_le, hcall.bytesOf_eq, hcall.result_eq⟩
    · subst hj
      rw [List.getElem?_concat_length] at hd
      obtain rfl := Option.some.inj hd
      refine ⟨Nat.zero_le _, ?_, nofun⟩
      -- The call is new, and no chunk is of it.
      have hnone : s.chunks.filter (fun c => c.call = s.calls.length) = [] := by
        rw [List.filter_eq_nil_iff]
        intro c hc
        have := h.call_lt c hc
        simp only [decide_eq_true_eq]
        omega
      simp only [System.bytesOf, hnone, List.flatMap_nil, List.take_zero]
    · rw [List.getElem?_eq_none (by simp only [List.length_append, List.length_singleton]; omega)] at hd
      exact absurd hd nofun
  call_lt c hc := by
    have := h.call_lt c hc
    simp only [List.length_append, List.length_singleton]
    omega
  contents := h.contents

variable [DecidableEq π]

theorem Invariant.step (h : Invariant live inode start planned stop s) (hlive : live inode)
    (hstop : stop ≤ maxFileBlockCount * blockSize) (hplanned : planned ≤ stop) {e : Event π}
    (hs : FileWrites.step s e = some s') :
    Invariant live inode start (planned + total [e]) stop s' := by
  cases e with
  | call process data =>
    obtain ⟨-, hs⟩ := Option.ite_none_left_eq_some.mp hs
    obtain rfl := Option.some.inj hs
    exact h.begin process data
  | turn i =>
    have hs : s.turn i = some s' := hs
    have hzero : planned + total [(.turn i : Event π)] = planned := rfl
    rw [hzero]
    cases hc : s.calls[i]? with
    | none =>
      unfold System.turn at hs
      simp [hc] at hs
    | some c =>
      by_cases hp : c.pending
      · by_cases hlt : c.written < c.data.length
        · obtain ⟨disk, hturn, hsize, hw, henough, hbytes⟩ :=
            h.turn_eq hlive hstop hplanned hc hp hlt
          obtain rfl := Option.some.inj (hturn.symm.trans hs)
          exact h.wrote hc hp hw henough hsize hbytes
        · unfold System.turn at hs
          simp only [hc, if_neg (not_not.mpr hp), if_neg hlt] at hs
          obtain rfl := Option.some.inj hs
          exact h.finish hc hlt
      · unfold System.turn at hs
        simp only [hc, if_pos hp] at hs
        exact absurd hs nofun

omit [DecidableEq π] in
theorem total_concat (es : List (Event π)) (e : Event π) :
    total (es ++ [e]) = total es + total [e] := by
  simp only [total, List.map_append, List.sum_append]

theorem invariant_run {s₀ : System π} {es : List (Event π)} (hlive : live inode)
    (hstop : stop ≤ maxFileBlockCount * blockSize)
    (h₀ : Invariant live inode start start stop s₀) (hroom : start + total es ≤ stop)
    (hrun : Transition.run step s₀ es = some s) :
    Invariant live inode start (start + total es) stop s := by
  refine Transition.run_induction
    (P := fun es s => start + total es ≤ stop → Invariant live inode start (start + total es) stop s)
    (fun _ => h₀) (fun es s e s' _ h hs hroom => ?_) es s hrun hroom
  rw [total_concat] at hroom ⊢
  rw [← Nat.add_assoc]
  exact (h (by omega)).step hlive hstop (by omega) hs

omit [DecidableEq π] in
/-- A call that has not returned takes its turn, and then has fewer turns left. -/
theorem Invariant.progress (h : Invariant live inode start planned stop s) (hlive : live inode)
    (hstop : stop ≤ maxFileBlockCount * blockSize) (hplanned : planned ≤ stop) {i : ℕ} {c : Call π}
    (hc : s.calls[i]? = some c) (hp : c.pending) :
    ∃ s' c', s.turn i = some s' ∧ s'.calls[i]? = some c' ∧ c'.turnsLeft < c.turnsLeft := by
  have hi := (List.getElem?_eq_some_iff.mp hc).1
  by_cases hlt : c.written < c.data.length
  · obtain ⟨disk, hturn, -⟩ := h.turn_eq hlive hstop hplanned hc hp hlt
    have hp' : Call.pending { c with written := c.written + c.count } := hp
    refine ⟨_, { c with written := c.written + c.count }, hturn, ?_, ?_⟩
    · exact List.getElem?_set_self hi
    · rw [Call.turnsLeft_of_pending hp, Call.turnsLeft_of_pending hp']
      have hcount : c.count = min c.left 3072 := rfl
      have hleft := left_wrote (c := c)
      have hpos := Call.count_pos hlt
      omega
  · refine ⟨s.setCall i { c with result := some (.ok c.written) },
      { c with result := some (.ok c.written) }, ?_, List.getElem?_set_self hi, ?_⟩
    · unfold System.turn
      simp only [hc, if_neg (not_not.mpr hp), if_neg hlt]
    · have hp' : ¬ Call.pending { c with result := some (.ok c.written) } := fun h => absurd h nofun
      rw [Call.turnsLeft_of_pending hp, Call.turnsLeft, if_neg hp']
      exact Nat.succ_pos _

/-- An open file that nobody has written to yet, with room for the bytes up to `stop`. -/
structure Opened (live : ℕ → Prop) (stop : ℕ) (s : System π) : Prop where
  live_inode : live s.inode
  wellFormed : WellFormed live s.disk
  enough : s.disk.Enough s.inode stop
  offset_le : s.offset ≤ (s.disk.inodes s.inode).size
  calls_eq : s.calls = []
  chunks_eq : s.chunks = []

omit [DecidableEq π] in
theorem Opened.invariant (h : Opened live stop s) :
    Invariant live s.inode s.offset s.offset stop s where
  inode_eq := rfl
  wellFormed := h.wellFormed
  enough := h.enough
  offset_le := h.offset_le
  left_eq := by simp [h.calls_eq]
  tiles := by
    rw [h.chunks_eq]
    rfl
  count_le := by simp [h.chunks_eq]
  call := by simp [h.calls_eq]
  call_lt := by simp [h.chunks_eq]
  contents := by simp [h.chunks_eq]

/-- Whatever the order of the turns, the chunks of all calls tile the range that the offset
has passed and are in the file, the chunks of a call make up its data, and a call returns
the length of its data. -/
theorem writers_tile {s₀ s : System π} {es : List (Event π)}
    (hopen : Opened live (s₀.offset + total es) s₀)
    (hlimit : s₀.offset + total es ≤ maxFileBlockCount * blockSize)
    (hrun : Transition.run step s₀ es = some s) :
    Tiles s₀.offset s.offset s.chunks ∧
    s.chunks.Pairwise (fun c d => c.offset + c.bytes.length ≤ d.offset) ∧
    (∀ c ∈ s.chunks, c.bytes.length ≤ maxBytes ∧ ∀ k < c.bytes.length,
      s.disk.fileByte s.inode (c.offset + k) = (c.bytes[k]?).getD 0) ∧
    ∀ i c, s.calls[i]? = some c → s.bytesOf i = c.data.take c.written ∧
      (∀ r, c.result = some r → r = .ok c.data.length ∧ s.bytesOf i = c.data) ∧
      (c.pending → ∃ s' c', step s (.turn i) = some s' ∧ s'.calls[i]? = some c' ∧
        c'.turnsLeft < c.turnsLeft) := by
  have h := invariant_run hopen.live_inode hlimit hopen.invariant le_rfl hrun
  refine ⟨h.tiles, h.tiles.pairwise, fun c hc => ⟨h.count_le c hc, ?_⟩, fun i c hc => ?_⟩
  · rw [h.inode_eq]
    exact h.contents c hc
  · have hcall := h.call i c hc
    refine ⟨hcall.bytesOf_eq, fun r hr => ?_, h.progress hopen.live_inode hlimit le_rfl hc⟩
    obtain ⟨hr, heq⟩ := hcall.result_eq r hr
    exact ⟨hr, by rw [hcall.bytesOf_eq, heq, List.take_length]⟩

/-- Two processes and an empty file. -/
def shared : System Bool := ⟨InodeBlocks.oneFile, 1, 0, [], []⟩

def sharedLive (n : ℕ) : Prop := n = 1

theorem shared_opened : Opened sharedLive 2 shared where
  live_inode := rfl
  wellFormed := by
    have htarget : ∀ slot, InodeBlocks.oneFile.target 1 slot = 0 := by
      intro slot
      cases slot <;> rfl
    refine ⟨by decide, by decide, fun b hb => decide_eq_true hb, ?_, ?_⟩
    · rintro n slot rfl hne
      exact absurd (htarget slot) hne
    · rintro n _ slot _ rfl _ hne
      exact absurd (htarget slot) hne
  enough := by
    have hmissing : (InodeBlocks.oneFile.missing 1 2).card ≤ 1 :=
      (Finset.card_filter_le _ _).trans (by decide)
    have hfree : 0 < InodeBlocks.oneFile.freeBlocks.card :=
      Finset.card_pos.mpr ⟨100, State.mem_freeBlocks.mpr ⟨by decide, rfl⟩⟩
    have hindirect : InodeBlocks.oneFile.missingIndirect 1 2 = 0 := rfl
    change (InodeBlocks.oneFile.missing 1 2).card + InodeBlocks.oneFile.missingIndirect 1 2 ≤
      InodeBlocks.oneFile.freeBlocks.card
    omega
  offset_le := Nat.zero_le _
  calls_eq := rfl
  chunks_eq := rfl

/-- Both have begun a call of one byte, and the second has had its turn. -/
def sharedRun : List (Event Bool) := [.call false [7], .call true [8], .turn 1]

theorem writers_tile_shared : ∃ s, Transition.run step shared sharedRun = some s ∧
    Tiles 0 s.offset s.chunks := by
  let begun : System Bool := { shared with calls := [⟨false, [7], 0, none⟩, ⟨true, [8], 0, none⟩] }
  have hbegun : Transition.run step shared [.call false [7], .call true [8]] = some begun := rfl
  have hbegun_inv := invariant_run shared_opened.live_inode (by decide) shared_opened.invariant
    (le_refl (0 + 2)) hbegun
  obtain ⟨s, -, hturn, -⟩ := hbegun_inv.progress shared_opened.live_inode (by decide) le_rfl
    (i := 1) (c := ⟨true, [8], 0, none⟩) rfl rfl
  have hrun : Transition.run step shared sharedRun = some s := by
    have happend : sharedRun = [.call false [7], .call true [8]] ++ [.turn 1] := rfl
    rw [happend, Transition.run_concat, hbegun]
    exact hturn
  exact ⟨s, hrun, (writers_tile shared_opened (by decide) hrun).1⟩

end Zigmaos.FileWrites
