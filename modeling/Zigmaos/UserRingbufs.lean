import Zigmaos.RingbufMappings
import Zigmaos.Transition

/-!
# The descriptors of the user library

`init` and `deinit` of `uringbuf.zig`. A name is the string that a pointer leads
to, and an entry has none until it is opened: what is found in its place is given
by `memory`, or there is nothing that can be read. Of the kernel there is what it
has mapped for the process under each name: it opens no name twice for a process,
and may refuse any call. A panic ends the program, and so a run.
-/
namespace Zigmaos.UserRingbuf
open Transition RingbufManager Memory

abbrev Name := List UInt8

/-- Where the kernel has mapped a ring buffer for an owner. -/
structure Mapping where
  vbuf : ℕ
  vbook : ℕ
  adjacent : vbook = vbuf - pageSize
  deriving DecidableEq

/-- An entry of `uringbufs`; the fields of one that was never opened are undefined. -/
structure UserRingBuf where
  buf : ℕ
  book : ℕ
  name : Option Name
  isActive : Bool

abbrev Descriptor := Fin maxRingbufs

/-- `held` counts the successful calls of `init` that no `deinit` has answered. -/
structure State where
  uringbufs : Descriptor → UserRingBuf
  opened : Name → Option Mapping
  held : Descriptor → ℕ

inductive InitError
  | noFreeRingbuf | alreadyActive | ringbuf | fault
  deriving DecidableEq

/-- `answer` is what the kernel does if it is asked to open the name. -/
inductive Event
  | init (name : Name) (memory : Descriptor → Option Name) (answer : Option Mapping)
  | deinit (d : Descriptor)

/-- How the loop of `init` ends. -/
inductive Scan
  | named (i : Descriptor)
  | free (i : Descriptor)
  | noFreeRingbuf
  | fault
  deriving DecidableEq

namespace State

def initial : State := ⟨fun _ => ⟨0, 0, none, false⟩, fun _ => none, fun _ => 0⟩

/-- `std.mem.span(urb.name)` -/
def spanName (s : State) (memory : Descriptor → Option Name) (i : Descriptor) : Option Name :=
  match (s.uringbufs i).name with
  | some name => some name
  | none => memory i

def scan (s : State) (name : Name) (memory : Descriptor → Option Name) : List Descriptor → Scan
  | [] => .noFreeRingbuf
  | i :: is =>
    match s.spanName memory i with
    | none => .fault
    | some other =>
      if name = other then .named i
      else if (s.uringbufs i).isActive = false then .free i
      else s.scan name memory is

/-- The entries whose names the loop looks at. -/
def inspected (s : State) (name : Name) (memory : Descriptor → Option Name) :
    List Descriptor → List Descriptor
  | [] => []
  | i :: is =>
    i :: match s.spanName memory i with
      | none => []
      | some other =>
        if name = other then []
        else if (s.uringbufs i).isActive = false then []
        else s.inspected name memory is

/-- `UserRingBuf.open` -/
def openEntry (s : State) (i : Descriptor) (name : Name) (answer : Option Mapping) :
    Except InitError Unit × State :=
  if (s.uringbufs i).isActive then (.error .alreadyActive, s)
  else
    match answer with
    | none => (.error .ringbuf, s)
    | some m =>
      (.ok (), { s with
        uringbufs := Function.update s.uringbufs i ⟨m.vbuf, m.vbuf - pageSize, some name, true⟩
        opened := Function.update s.opened name (some m) })

def init (s : State) (name : Name) (memory : Descriptor → Option Name) (answer : Option Mapping) :
    Except InitError Descriptor × State :=
  match s.scan name memory (List.finRange maxRingbufs) with
  | .fault => (.error .fault, s)
  | .noFreeRingbuf => (.error .noFreeRingbuf, s)
  | .named i => (.ok i, s)
  | .free i =>
    match s.openEntry i name answer with
    | (.error e, s) => (.error e, s)
    | (.ok (), s) => (.ok i, s)

/-- `UserRingBuf.close`, where it does not panic. -/
def deinit (s : State) (d : Descriptor) : Option State :=
  if (s.uringbufs d).isActive = false then none
  else
    match (s.uringbufs d).name with
    | none => none
    | some name =>
      match s.opened name with
      | none => none
      | some m =>
        if (s.uringbufs d).buf = m.vbuf then
          some { s with
            uringbufs :=
              Function.update s.uringbufs d { s.uringbufs d with isActive := false }
            opened := Function.update s.opened name none }
        else none

/-- The caller gets a descriptor. -/
def gain (s : State) : Except InitError Descriptor → State
  | .ok d => { s with held := Function.update s.held d (s.held d + 1) }
  | .error _ => s

def step (s : State) : Event → Option State
  | .init name memory answer =>
    -- The kernel opens no name that the process has open.
    if answer ≠ none ∧ s.opened name ≠ none then none
    else some ((s.init name memory answer).2.gain (s.init name memory answer).1)
  | .deinit d =>
    if s.held d = 0 then none
    else (s.deinit d).map fun s => { s with held := Function.update s.held d (s.held d - 1) }

/-- The descriptor is active, for a ring buffer of that name that the kernel has open, and
no other one is. -/
structure Usable (s : State) (d : Descriptor) (name : Name) : Prop where
  active : (s.uringbufs d).isActive = true
  opened : ∃ m, s.opened name = some m ∧ (s.uringbufs d).buf = m.vbuf ∧
    (s.uringbufs d).book = m.vbook
  unique : ∀ i, (s.uringbufs i).isActive = true → (s.uringbufs i).name = some name → i = d

/-- The first entry that is not active has the name, or what is found there is the name. -/
def Stale (s : State) (name : Name) (memory : Descriptor → Option Name) : Prop :=
  ∃ i, (s.uringbufs i).isActive = false ∧ s.spanName memory i = some name ∧
    ∀ j < i, (s.uringbufs j).isActive = true ∧ (s.uringbufs j).name ≠ some name

/-- The active entries are what the kernel has open, each name once. -/
structure Inv (s : State) : Prop where
  opened : ∀ i, (s.uringbufs i).isActive = true → ∃ name m, (s.uringbufs i).name = some name ∧
    s.opened name = some m ∧ (s.uringbufs i).buf = m.vbuf ∧ (s.uringbufs i).book = m.vbook
  unique : ∀ i j name, (s.uringbufs i).isActive = true → (s.uringbufs j).isActive = true →
    (s.uringbufs i).name = some name → (s.uringbufs j).name = some name → i = j

end State

/-- No call of `init` looks at the name of a descriptor that was never opened. -/
def NeverUnopened (es : List Event) : Prop :=
  ∀ fs name memory answer s, fs ++ [.init name memory answer] <+: es →
    run State.step .initial fs = some s →
    ∀ i ∈ s.inspected name memory (List.finRange maxRingbufs), (s.uringbufs i).name ≠ none

/-- Every descriptor that a call of `init` returns is usable. -/
def ReturnsUsable (es : List Event) : Prop :=
  ∀ fs name memory answer s, fs ++ [.init name memory answer] <+: es →
    run State.step .initial fs = some s → ∀ d, (s.init name memory answer).1 = .ok d →
    (s.init name memory answer).2.Usable d name

/-! ### The loop -/

variable {s s' : State} {name : Name} {memory : Descriptor → Option Name}

/-- The loop goes past the entry. -/
def Passes (s : State) (name : Name) (memory : Descriptor → Option Name) (j : Descriptor) : Prop :=
  (s.uringbufs j).isActive = true ∧ ∃ other, s.spanName memory j = some other ∧ name ≠ other

theorem Passes.ne {j : Descriptor} (h : Passes s name memory j) : s.spanName memory j ≠ some name := by
  obtain ⟨-, other, hother, hne⟩ := h
  rw [hother]
  exact fun h => hne (Option.some.inj h).symm

/-- How the loop ends, and what it has gone past. -/
inductive Scanned (s : State) (name : Name) (memory : Descriptor → Option Name)
    (l : List Descriptor) : Scan → Prop
  | named (pre : List Descriptor) (i : Descriptor) (post : List Descriptor) :
    l = pre ++ i :: post → (∀ j ∈ pre, Passes s name memory j) →
    s.spanName memory i = some name → Scanned s name memory l (.named i)
  | free (pre : List Descriptor) (i : Descriptor) (post : List Descriptor) :
    l = pre ++ i :: post → (∀ j ∈ pre, Passes s name memory j) →
    s.spanName memory i ≠ some name → (s.uringbufs i).isActive = false →
    Scanned s name memory l (.free i)
  | fault (pre : List Descriptor) (i : Descriptor) (post : List Descriptor) :
    l = pre ++ i :: post → (∀ j ∈ pre, Passes s name memory j) →
    s.spanName memory i = none → Scanned s name memory l .fault
  | noFreeRingbuf : (∀ j ∈ l, Passes s name memory j) → Scanned s name memory l .noFreeRingbuf

theorem Scanned.cons {l : List Descriptor} {r : Scan} {i : Descriptor}
    (h : Scanned s name memory l r) (hi : Passes s name memory i) :
    Scanned s name memory (i :: l) r := by
  have hall : ∀ {pre : List Descriptor}, (∀ j ∈ pre, Passes s name memory j) →
      ∀ j ∈ i :: pre, Passes s name memory j := by
    intro pre hpre j hj
    obtain rfl | hj := List.mem_cons.mp hj
    · exact hi
    · exact hpre j hj
  cases h with
  | named pre j post hl hpre hj => exact .named (i :: pre) j post (by rw [hl]; rfl) (hall hpre) hj
  | free pre j post hl hpre hj hactive =>
    exact .free (i :: pre) j post (by rw [hl]; rfl) (hall hpre) hj hactive
  | fault pre j post hl hpre hj => exact .fault (i :: pre) j post (by rw [hl]; rfl) (hall hpre) hj
  | noFreeRingbuf hpre => exact .noFreeRingbuf (hall hpre)

theorem scan_spec (s : State) (name : Name) (memory : Descriptor → Option Name)
    (l : List Descriptor) : Scanned s name memory l (s.scan name memory l) := by
  induction l with
  | nil => exact .noFreeRingbuf (by simp)
  | cons i is ih =>
    rw [State.scan]
    cases hspan : s.spanName memory i with
    | none => exact .fault [] i is rfl (by simp) hspan
    | some other =>
      dsimp only
      by_cases hname : name = other
      · rw [if_pos hname]
        exact .named [] i is rfl (by simp) (hname ▸ hspan)
      rw [if_neg hname]
      have hne : s.spanName memory i ≠ some name := by
        rw [hspan]
        exact fun h => hname (Option.some.inj h).symm
      by_cases hactive : (s.uringbufs i).isActive = false
      · rw [if_pos hactive]
        exact .free [] i is rfl (by simp) hne hactive
      · rw [if_neg hactive]
        exact ih.cons ⟨by simpa using hactive, other, hspan, hname⟩

/-- In a table in order, what comes before an element is smaller. -/
theorem mem_of_lt_of_finRange {n : ℕ} {pre post : List (Fin n)} {i j : Fin n}
    (h : List.finRange n = pre ++ i :: post) (hj : j < i) : j ∈ pre := by
  have hsorted : (pre ++ i :: post).Pairwise (· < ·) := h ▸ List.pairwise_lt_finRange n
  have hmem : j ∈ pre ++ i :: post := h ▸ List.mem_finRange j
  obtain hpre | hpost := List.mem_append.mp hmem
  · exact hpre
  · have hle : i ≤ j := by
      obtain rfl | hpost := List.mem_cons.mp hpost
      · exact le_refl j
      · have := (List.pairwise_append.mp hsorted).2.1
        exact le_of_lt ((List.pairwise_cons.mp this).1 j hpost)
    exact absurd hj (not_lt.mpr hle)

theorem mem_pre_lt_of_finRange {n : ℕ} {pre post : List (Fin n)} {i j : Fin n}
    (h : List.finRange n = pre ++ i :: post) (hj : j ∈ pre) : j < i := by
  have hsorted : (pre ++ i :: post).Pairwise (· < ·) := h ▸ List.pairwise_lt_finRange n
  exact (List.pairwise_append.mp hsorted).2.2 j hj i List.mem_cons_self

/-- The entry that ends the loop is the first that is not gone past. -/
theorem scan_eq_named_iff (i : Descriptor) :
    s.scan name memory (List.finRange maxRingbufs) = .named i ↔
      s.spanName memory i = some name ∧ ∀ j < i, Passes s name memory j := by
  have hspec := scan_spec s name memory (List.finRange maxRingbufs)
  constructor
  · intro h
    rw [h] at hspec
    cases hspec with
    | named pre _ post hl hpre hi =>
      exact ⟨hi, fun j hj => hpre j (mem_of_lt_of_finRange hl hj)⟩
  · intro ⟨hi, hpass⟩
    -- The loop ends at no other entry: one before `i` is gone past, and one behind it has
    -- `i` before it.
    have hend : ∀ pre j post, List.finRange maxRingbufs = pre ++ j :: post →
        (∀ k ∈ pre, Passes s name memory k) → ¬ Passes s name memory j → j = i := by
      intro pre j post hl hpre hj
      obtain hlt | heq | hgt := lt_trichotomy j i
      · exact absurd (hpass j hlt) hj
      · exact heq
      · exact absurd hi (hpre i (mem_of_lt_of_finRange hl hgt)).ne
    generalize s.scan name memory (List.finRange maxRingbufs) = r at hspec
    cases hspec with
    | named pre j post hl hpre hj => rw [hend pre j post hl hpre fun h => h.ne hj]
    | free pre j post hl hpre hj hactive =>
      have heq := hend pre j post hl hpre fun h => by simp [h.1] at hactive
      exact absurd hi (heq ▸ hj)
    | fault pre j post hl hpre hj =>
      have heq := hend pre j post hl hpre fun ⟨_, other, hother, _⟩ => by simp [hj] at hother
      rw [← heq, hj] at hi
      cases hi
    | noFreeRingbuf hpre => exact absurd hi (hpre i (List.mem_finRange i)).ne

/-! ### What one call does -/

theorem spanName_of_some {i : Descriptor} {other : Name} (h : (s.uringbufs i).name = some other) :
    s.spanName memory i = some other := by
  rw [State.spanName, h]

/-- The entry that is found free is opened, or the state is left alone. -/
theorem init_cases (s : State) (name : Name) (memory : Descriptor → Option Name)
    (answer : Option Mapping) :
    (∃ i, s.scan name memory (List.finRange maxRingbufs) = .named i ∧
      s.init name memory answer = (.ok i, s)) ∨
    (∃ i m, s.scan name memory (List.finRange maxRingbufs) = .free i ∧ answer = some m ∧
      s.init name memory answer = (.ok i, { s with
        uringbufs := Function.update s.uringbufs i ⟨m.vbuf, m.vbuf - pageSize, some name, true⟩
        opened := Function.update s.opened name (some m) })) ∨
    ∃ e, s.init name memory answer = (.error e, s) := by
  have hspec := scan_spec s name memory (List.finRange maxRingbufs)
  unfold State.init
  cases hscan : s.scan name memory (List.finRange maxRingbufs) with
  | named i => exact .inl ⟨i, rfl, rfl⟩
  | free i =>
    rw [hscan] at hspec
    cases hspec with
    | free pre _ post hl hpre hi hactive =>
      cases answer with
      | none => exact .inr (.inr ⟨.ringbuf, by simp [State.openEntry, hactive]⟩)
      | some m => exact .inr (.inl ⟨i, m, rfl, rfl, by simp [State.openEntry, hactive]⟩)
  | noFreeRingbuf => exact .inr (.inr ⟨_, rfl⟩)
  | fault => exact .inr (.inr ⟨_, rfl⟩)

/-- No active entry has a name that the kernel does not have open. -/
theorem State.Inv.not_active (h : s.Inv) (hname : s.opened name = none) (i : Descriptor)
    (hi : (s.uringbufs i).isActive = true) : (s.uringbufs i).name ≠ some name := by
  intro heq
  obtain ⟨other, m, hother, hm, -⟩ := h.opened i hi
  obtain rfl := Option.some.inj (hother.symm.trans heq)
  rw [hname] at hm
  cases hm

theorem State.Inv.open (h : s.Inv) (hname : s.opened name = none) (i : Descriptor) (m : Mapping) :
    State.Inv { s with
      uringbufs := Function.update s.uringbufs i ⟨m.vbuf, m.vbuf - pageSize, some name, true⟩
      opened := Function.update s.opened name (some m) } where
  opened j hj := by
    by_cases hji : j = i
    · subst hji
      simp only [Function.update_self]
      exact ⟨name, m, rfl, Function.update_self .., rfl, m.adjacent.symm⟩
    · simp only [Function.update_of_ne hji] at hj ⊢
      obtain ⟨other, n, hother, hn, hbuf⟩ := h.opened j hj
      have hne : other ≠ name := by
        rintro rfl
        exact h.not_active hname j hj hother
      exact ⟨other, n, hother, by rw [Function.update_of_ne hne, hn], hbuf⟩
  unique j k other hj hk hjn hkn := by
    by_cases hji : j = i <;> by_cases hki : k = i
    · rw [hji, hki]
    · subst hji
      simp only [Function.update_self, Function.update_of_ne hki] at hjn hk hkn
      exact absurd hkn (Option.some.inj hjn ▸ h.not_active hname k hk)
    · subst hki
      simp only [Function.update_self, Function.update_of_ne hji] at hkn hj hjn
      exact absurd hjn (Option.some.inj hkn ▸ h.not_active hname j hj)
    · simp only [Function.update_of_ne hji, Function.update_of_ne hki] at hj hk hjn hkn
      exact h.unique j k other hj hk hjn hkn

theorem State.Inv.stale_iff (h : s.Inv) : s.Stale name memory ↔
    ∃ i, (s.uringbufs i).isActive = false ∧
      s.scan name memory (List.finRange maxRingbufs) = .named i := by
  constructor
  · intro ⟨i, hactive, hspan, hbefore⟩
    refine ⟨i, hactive, (scan_eq_named_iff i).mpr ⟨hspan, fun j hj => ?_⟩⟩
    obtain ⟨hj, hne⟩ := hbefore j hj
    obtain ⟨other, -, hother, -⟩ := h.opened j hj
    exact ⟨hj, other, spanName_of_some hother, fun heq => hne (heq ▸ hother)⟩
  · intro ⟨i, hactive, hscan⟩
    obtain ⟨hspan, hpass⟩ := (scan_eq_named_iff i).mp hscan
    exact ⟨i, hactive, hspan, fun j hj =>
      ⟨(hpass j hj).1, fun hn => (hpass j hj).ne (spanName_of_some hn)⟩⟩

theorem State.Inv.usable (h : s.Inv) {d : Descriptor} (hactive : (s.uringbufs d).isActive = true)
    (hname : (s.uringbufs d).name = some name) : s.Usable d name where
  active := hactive
  opened := by
    obtain ⟨other, m, hother, hm, hbuf⟩ := h.opened d hactive
    obtain rfl := Option.some.inj (hother.symm.trans hname)
    exact ⟨m, hm, hbuf⟩
  unique i hi hin := h.unique i d name hi hactive hin hname

/-- A descriptor that `init` returns is usable, unless the entry is found by its name and
is not active. -/
theorem State.Inv.init_usable (h : s.Inv) {answer : Option Mapping}
    (hanswer : answer ≠ none → s.opened name = none) {d : Descriptor}
    (hd : (s.init name memory answer).1 = .ok d) :
    (s.init name memory answer).2.Usable d name ↔ ¬ s.Stale name memory := by
  rw [h.stale_iff]
  obtain ⟨i, hscan, hinit⟩ | ⟨i, m, hscan, hm, hinit⟩ | ⟨e, hinit⟩ :=
    init_cases s name memory answer
  · rw [hinit] at hd ⊢
    obtain rfl : i = d := Except.ok.inj hd
    rw [hscan]
    constructor
    · intro husable ⟨j, hj, hij⟩
      obtain rfl := Scan.named.inj hij
      rw [husable.active] at hj
      cases hj
    · intro hstale
      have hactive : (s.uringbufs i).isActive = true := by
        by_contra hnot
        exact hstale ⟨i, by simpa using hnot, rfl⟩
      obtain ⟨other, -, hother, -⟩ := h.opened i hactive
      have hspan := ((scan_eq_named_iff i).mp hscan).1
      rw [spanName_of_some hother] at hspan
      exact h.usable hactive (hspan ▸ hother)
  · rw [hinit] at hd ⊢
    obtain rfl : i = d := Except.ok.inj hd
    rw [hscan]
    constructor
    · intro _ ⟨_, _, hij⟩
      cases hij
    · intro _
      have hinv := h.open (hanswer (by rw [hm]; nofun)) i m
      exact hinv.usable (by simp) (by simp)
  · rw [hinit] at hd
    cases hd

theorem State.Inv.init (h : s.Inv) {answer : Option Mapping}
    (hanswer : answer ≠ none → s.opened name = none) : (s.init name memory answer).2.Inv := by
  obtain ⟨i, -, hinit⟩ | ⟨i, m, -, hm, hinit⟩ | ⟨e, hinit⟩ := init_cases s name memory answer
  · rw [hinit]
    exact h
  · rw [hinit]
    exact h.open (hanswer (by rw [hm]; nofun)) i m
  · rw [hinit]
    exact h

theorem State.Inv.deinit (h : s.Inv) {d : Descriptor} (hd : s.deinit d = some s') : s'.Inv := by
  unfold State.deinit at hd
  split at hd
  · cases hd
  next hactive =>
  split at hd
  · cases hd
  next name hname =>
  split at hd
  · cases hd
  next m hm =>
  split at hd
  · obtain rfl := Option.some.inj hd
    have hactive : (s.uringbufs d).isActive = true := by simpa using hactive
    -- An entry that is still active is another one, and has another name.
    have hother : ∀ i, ((Function.update s.uringbufs d
        { s.uringbufs d with isActive := false }) i).isActive = true →
        i ≠ d ∧ (s.uringbufs i).isActive = true := by
      intro i hi
      by_cases hid : i = d
      · subst hid
        simp at hi
      · rw [Function.update_of_ne hid] at hi
        exact ⟨hid, hi⟩
    constructor
    · intro i hi'
      obtain ⟨hid, hi⟩ := hother i hi'
      obtain ⟨other, n, hon, hn, hbuf⟩ := h.opened i hi
      have hne : other ≠ name := by
        rintro rfl
        exact hid (h.unique i d other hi hactive hon hname)
      simp only [Function.update_of_ne hid]
      exact ⟨other, n, hon, by rw [Function.update_of_ne hne, hn], hbuf⟩
    · intro i j other hi' hj' hin hjn
      obtain ⟨hid, hi⟩ := hother i hi'
      obtain ⟨hjd, hj⟩ := hother j hj'
      simp only [Function.update_of_ne hid] at hin
      simp only [Function.update_of_ne hjd] at hjn
      exact h.unique i j other hi hj hin hjn
  · cases hd

theorem State.Inv.initial : State.initial.Inv where
  opened i hi := by cases hi
  unique i j name hi := by cases hi

theorem State.Inv.gain (h : s.Inv) (r : Except InitError Descriptor) : (s.gain r).Inv := by
  cases r with
  | ok d => exact ⟨h.opened, h.unique⟩
  | error e => exact h

theorem answer_of_step {answer : Option Mapping} (h : s.step (.init name memory answer) = some s') :
    answer ≠ none → s.opened name = none := by
  intro ha
  by_contra hne
  rw [State.step, if_pos ⟨ha, hne⟩] at h
  cases h

theorem State.Inv.step (h : s.Inv) {e : Event} (he : s.step e = some s') : s'.Inv := by
  cases e with
  | init name memory answer =>
    have hanswer := answer_of_step he
    rw [State.step, if_neg fun ⟨ha, hne⟩ => hne (hanswer ha)] at he
    obtain rfl := Option.some.inj he
    exact (h.init hanswer).gain _
  | deinit d =>
    rw [State.step] at he
    split at he
    · cases he
    · obtain ⟨s₁, hs₁, rfl⟩ := Option.map_eq_some_iff.mp he
      have h₁ := h.deinit hs₁
      exact ⟨h₁.opened, h₁.unique⟩

theorem inv_of_run {es : List Event} (h : run State.step .initial es = some s) : s.Inv := by
  refine run_induction (P := fun _ s => s.Inv) .initial ?_ es s h
  intro _ _ _ _ _ hi he
  exact hi.step he

/-! ### Runs -/

/-- The first call looks at the first entry, which was never opened. -/
theorem not_neverUnopened {es : List Event} (h : run State.step .initial es = some s)
    {answer : Option Mapping} (hin : .init name memory answer ∈ es) : ¬ NeverUnopened es := by
  intro hnever
  cases es with
  | nil => cases hin
  | cons e es =>
    rw [run_cons] at h
    cases e with
    | init other memory answer =>
      refine hnever [] other memory answer .initial (by simp) rfl 0 ?_ rfl
      rw [List.finRange_succ, State.inspected]
      exact List.mem_cons_self
    | deinit d => cases h

/-- A call of `init` on the way, and the state before it. -/
def Calls (es : List Event) (s : State) (name : Name) (memory : Descriptor → Option Name) : Prop :=
  ∃ fs answer, fs ++ [.init name memory answer] <+: es ∧ run State.step .initial fs = some s

theorem returnsUsable_iff {es : List Event} (h : run State.step .initial es = some s) :
    ReturnsUsable es ↔ ∀ s₁ name memory, Calls es s₁ name memory → ¬ s₁.Stale name memory := by
  constructor
  · intro husable s₁ name memory ⟨fs, answer, hp, hs₁⟩ hstale
    have hinv := inv_of_run hs₁
    obtain ⟨s₂, he, -⟩ := step_of_prefix h hp hs₁
    obtain ⟨i, -, hscan⟩ := hinv.stale_iff.mp hstale
    have hd : (s₁.init name memory answer).1 = .ok i := by rw [State.init, hscan]
    exact (hinv.init_usable (answer_of_step he) hd).mp (husable fs name memory answer s₁ hp hs₁ i hd)
      hstale
  · intro hfresh fs name memory answer s₁ hp hs₁ d hd
    obtain ⟨s₂, he, -⟩ := step_of_prefix h hp hs₁
    exact ((inv_of_run hs₁).init_usable (answer_of_step he) hd).mpr
      (hfresh s₁ name memory ⟨fs, answer, hp, hs₁⟩)

/-- The descriptors are usable exactly where no entry that is closed, or was never opened, is
taken for one of the name. That no name is looked at before there is one holds only as long as
`init` is not called. -/
theorem init_usable_iff {es : List Event} (h : run State.step .initial es = some s) :
    (NeverUnopened es ∧ ReturnsUsable es ↔ ∀ name memory answer, .init name memory answer ∉ es) ∧
      (ReturnsUsable es ↔
        ∀ s₁ name memory, Calls es s₁ name memory → ¬ s₁.Stale name memory) := by
  refine ⟨?_, returnsUsable_iff h⟩
  constructor
  · intro ⟨hnever, _⟩ name memory answer hin
    exact not_neverUnopened h hin hnever
  · intro hno
    have hcall : ∀ fs name memory answer, ¬ (fs ++ [.init name memory answer] <+: es) :=
      fun fs name memory answer hp => hno name memory answer (hp.subset (by simp))
    exact ⟨fun fs name memory answer _ hp => absurd hp (hcall fs name memory answer),
      fun fs name memory answer _ hp => absurd hp (hcall fs name memory answer)⟩

/-- One name is opened, closed and asked for again. -/
def reopened : List Event :=
  [.init [97] (fun _ => some []) (some ⟨8192, 4096, rfl⟩), .deinit 0,
    .init [97] (fun _ => some []) (some ⟨8192, 4096, rfl⟩)]

theorem init_usable_reopened :
    ∃ s, run State.step .initial reopened = some s ∧
      ((NeverUnopened reopened ∧ ReturnsUsable reopened ↔
        ∀ name memory answer, .init name memory answer ∉ reopened) ∧
      (ReturnsUsable reopened ↔
        ∀ s₁ name memory, Calls reopened s₁ name memory → ¬ s₁.Stale name memory)) :=
  ⟨_, rfl, init_usable_iff rfl⟩

/-- The first call looks at a name that is not there, and the last returns a descriptor that
is closed. -/
theorem reopened_not_usable :
    (∃ s, run State.step .initial reopened = some s) ∧ ¬ NeverUnopened reopened ∧
      ¬ ReturnsUsable reopened := by
  refine ⟨⟨_, rfl⟩, fun h => ?_, fun h => ?_⟩
  · exact h [] [97] (fun _ => some []) (some ⟨8192, 4096, rfl⟩) .initial (by simp [reopened]) rfl 0
      (by decide) rfl
  · have hlast := h [reopened[0], reopened[1]] [97] (fun _ => some []) (some ⟨8192, 4096, rfl⟩) _
      (List.prefix_refl _) rfl 0 rfl
    cases hlast.active

/-! ### The kernel -/

section Kernel
variable {π : Type} [DecidableEq π] {k k' : RingbufManager.State π} {p : π}

/-- The kernel opens no name for a process that owns the ring buffer of that name. -/
theorem openRingbuf_not_owner {address : ℕ} (h : k.openRingbuf p name address = .ok (.ok (), k'))
    {i : Fin maxRingbufs} (hi : k.findRingbufByName name = some i) :
    (k.ringbufs i).ownerOf p = none := by
  unfold RingbufManager.State.openRingbuf at h
  split at h
  · cases h
  have hspec := claim_spec k p name
  have hplace : ∀ j o k₁, k.claim p name = .ok (.ok (j, o), k₁) → j = i := by
    intro j o k₁ hclaim
    unfold RingbufManager.State.claim at hclaim
    rw [hi] at hclaim
    dsimp only at hclaim
    split at hclaim
    · cases hclaim
    split at hclaim
    · cases hclaim
    split at hclaim
    · cases hclaim
    · cases hclaim
      rfl
  split at h
  · cases h
  · cases h
  next j o k₁ hclaim =>
    rw [hclaim] at hspec
    obtain rfl := hplace j o k₁ hclaim
    have hno := (hspec.place j o rfl).2
    have h0 : ((k.ringbufs j).owners 0).proc ≠ some p := hno 0
    have h1 : ((k.ringbufs j).owners 1).proc ≠ some p := hno 1
    rw [Ringbuf.ownerOf, if_neg h0, if_neg h1]

end Kernel

end Zigmaos.UserRingbuf
