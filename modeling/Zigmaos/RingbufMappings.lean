import Zigmaos.Ringbuf

/-!
# What ring buffers map

An owner of a ring buffer has a window: the pages of the ring buffer twice and
the book below them. The table of a process maps `U`, which is what it has besides
ring buffers, and its windows.
-/
namespace Zigmaos.RingbufManager
open Memory

variable {π : Type}

/-- A ring buffer and one of its owners. -/
abbrev Place := Fin maxRingbufs × Fin 2

def allOwners (ringbufs : Fin maxRingbufs → Ringbuf π) (x : Place) : Owner π :=
  (ringbufs x.1).owners x.2

def windowSize : ℕ := 1 + ringbufSize * 2

def Owner.window (o : Owner π) (w : ℕ) : Prop := o.vbook ≤ w ∧ w < o.vbook + windowSize

def Owns (f : Place → Owner π) (p : π) (x : Place) : Prop := (f x).proc = some p

instance [DecidableEq π] (f : Place → Owner π) (p : π) : DecidablePred (Owns f p) :=
  fun x => inferInstanceAs (Decidable ((f x).proc = some p))

def windows (f : Place → Owner π) (p : π) (w : ℕ) : Prop := ∃ x, Owns f p x ∧ (f x).window w

def ownedPlaces [DecidableEq π] (f : Place → Owner π) (p : π) : Finset Place :=
  Finset.univ.filter (Owns f p)

/-- The windows of a process lie apart, and it owns no ring buffer twice. -/
structure Apart (f : Place → Owner π) (p : π) : Prop where
  vbuf : ∀ x, Owns f p x → (f x).vbuf = (f x).vbook + 1
  le : ∀ x, Owns f p x → (f x).vbook + windowSize ≤ maxVirtualPage
  disjoint : ∀ x y w, Owns f p x → Owns f p y → (f x).window w → (f y).window w → x = y
  once : ∀ i o o', Owns f p (i, o) → Owns f p (i, o') → o = o'

/-! ## Changes of owners -/

/-- Nothing has changed for the process `q`. -/
def Agree (q : π) (f g : Place → Owner π) : Prop := ∀ x, Owns f q x ∨ Owns g q x → g x = f x

/-- For the process `p`, `g` is `f` without the place `x`. -/
structure Without (p : π) (x : Place) (f g : Place → Owner π) : Prop where
  owns : Owns f p x
  gone : ¬ Owns g p x
  other : ∀ y, y ≠ x → Owns f p y ∨ Owns g p y → g y = f y

variable {f g k : Place → Owner π} {p q : π} {x y : Place} {w : ℕ}

theorem Agree.refl (q : π) (f : Place → Owner π) : Agree q f f := fun _ _ => rfl

theorem Agree.owns_iff (h : Agree q f g) : Owns g q x ↔ Owns f q x := by
  constructor
  · intro hx
    rw [Owns, ← h x (.inr hx)]
    exact hx
  · intro hx
    rw [Owns, h x (.inl hx)]
    exact hx

theorem Agree.trans (h : Agree q f g) (h' : Agree q g k) : Agree q f k := by
  intro x hx
  have hg : Owns g q x := hx.elim h.owns_iff.mpr h'.owns_iff.mp
  rw [h' x (.inl hg), h x (.inr hg)]

theorem Agree.windows_iff (h : Agree q f g) : windows g q w ↔ windows f q w := by
  constructor
  · intro ⟨x, hx, hw⟩
    exact ⟨x, h.owns_iff.mp hx, h x (.inr hx) ▸ hw⟩
  · intro ⟨x, hx, hw⟩
    exact ⟨x, h.owns_iff.mpr hx, (h x (.inl hx)).symm ▸ hw⟩

theorem Agree.apart (h : Agree q f g) (hf : Apart f q) : Apart g q where
  vbuf x hx := by
    rw [h x (.inr hx)]
    exact hf.vbuf x (h.owns_iff.mp hx)
  le x hx := by
    rw [h x (.inr hx)]
    exact hf.le x (h.owns_iff.mp hx)
  disjoint x y w hx hy := by
    rw [h x (.inr hx), h y (.inr hy)]
    exact hf.disjoint x y w (h.owns_iff.mp hx) (h.owns_iff.mp hy)
  once i o o' hx hy := hf.once i o o' (h.owns_iff.mp hx) (h.owns_iff.mp hy)

theorem Agree.ownedPlaces [DecidableEq π] (h : Agree q f g) : ownedPlaces g q = ownedPlaces f q :=
  Finset.filter_congr (fun _ _ => h.owns_iff)

theorem Without.owns_iff (h : Without p x f g) (hy : y ≠ x) : Owns g p y ↔ Owns f p y := by
  constructor
  · intro hg
    rw [Owns, ← h.other y hy (.inr hg)]
    exact hg
  · intro hf
    rw [Owns, h.other y hy (.inl hf)]
    exact hf

/-- What `g` has, `f` has. -/
theorem Without.owns_of (h : Without p x f g) (hg : Owns g p y) : y ≠ x ∧ Owns f p y ∧ g y = f y := by
  have hy : y ≠ x := fun hyx => h.gone (hyx ▸ hg)
  exact ⟨hy, (h.owns_iff hy).mp hg, h.other y hy (.inr hg)⟩

theorem Without.windows_iff (h : Without p x f g) :
    windows f p w ↔ windows g p w ∨ (f x).window w := by
  constructor
  · intro ⟨y, hy, hw⟩
    by_cases hyx : y = x
    · exact .inr (hyx ▸ hw)
    · exact .inl ⟨y, (h.owns_iff hyx).mpr hy, (h.other y hyx (.inl hy)).symm ▸ hw⟩
  · intro hw
    obtain ⟨y, hy, hw⟩ | hw := hw
    · obtain ⟨-, hf, heq⟩ := h.owns_of hy
      exact ⟨y, hf, heq ▸ hw⟩
    · exact ⟨x, h.owns, hw⟩

theorem Without.card [DecidableEq π] (h : Without p x f g) :
    (ownedPlaces f p).card = (ownedPlaces g p).card + 1 := by
  have hx : x ∉ ownedPlaces g p := fun hx => h.gone (Finset.mem_filter.mp hx).2
  rw [← Finset.card_insert_of_notMem hx]
  congr 1
  ext y
  simp only [RingbufManager.ownedPlaces, Finset.mem_insert, Finset.mem_filter, Finset.mem_univ,
    true_and]
  by_cases hy : y = x
  · simp [hy, h.owns]
  · simp [hy, h.owns_iff hy]

theorem Without.apart (h : Without p x f g) (hf : Apart f p) : Apart g p where
  vbuf y hy := by
    obtain ⟨-, hown, heq⟩ := h.owns_of hy
    rw [heq]
    exact hf.vbuf y hown
  le y hy := by
    obtain ⟨-, hown, heq⟩ := h.owns_of hy
    rw [heq]
    exact hf.le y hown
  disjoint y z w hy hz := by
    obtain ⟨-, hown, heq⟩ := h.owns_of hy
    obtain ⟨-, hown', heq'⟩ := h.owns_of hz
    rw [heq, heq']
    exact hf.disjoint y z w hown hown'
  once i o o' hy hz := hf.once i o o' (h.owns_of hy).2.1 (h.owns_of hz).2.1

/-- The window that goes is in no other. -/
theorem Without.not_window (h : Without p x f g) (hf : Apart f p) (hw : windows g p w) :
    ¬ (f x).window w := by
  obtain ⟨y, hy, hw⟩ := hw
  obtain ⟨hne, hown, heq⟩ := h.owns_of hy
  exact fun hx => hne (hf.disjoint y x w hown h.owns (heq ▸ hw) hx)

/-- A new window, apart from all others, of a ring buffer that is not owned yet. -/
theorem Without.apart_of (h : Without p x f g) (hg : Apart g p)
    (hvbuf : (f x).vbuf = (f x).vbook + 1) (hle : (f x).vbook + windowSize ≤ maxVirtualPage)
    (hnew : ∀ w, (f x).window w → ¬ windows g p w) (honce : ∀ o, ¬ Owns g p (x.1, o)) :
    Apart f p where
  vbuf y hy := by
    by_cases hyx : y = x
    · rw [hyx]
      exact hvbuf
    · rw [← h.other y hyx (.inl hy)]
      exact hg.vbuf y ((h.owns_iff hyx).mpr hy)
  le y hy := by
    by_cases hyx : y = x
    · rw [hyx]
      exact hle
    · rw [← h.other y hyx (.inl hy)]
      exact hg.le y ((h.owns_iff hyx).mpr hy)
  disjoint y z w hy hz hwy hwz := by
    have hin : ∀ v, v ≠ x → Owns f p v → (f v).window w → windows g p w :=
      fun v hv hown hw => ⟨v, (h.owns_iff hv).mpr hown, (h.other v hv (.inl hown)).symm ▸ hw⟩
    by_cases hyx : y = x
    · by_cases hzx : z = x
      · rw [hyx, hzx]
      · exact absurd (hin z hzx hz hwz) (hnew w (hyx ▸ hwy))
    · by_cases hzx : z = x
      · exact absurd (hin y hyx hy hwy) (hnew w (hzx ▸ hwz))
      · have hy' := h.other y hyx (.inl hy)
        have hz' := h.other z hzx (.inl hz)
        exact hg.disjoint y z w ((h.owns_iff hyx).mpr hy) ((h.owns_iff hzx).mpr hz)
          (hy'.symm ▸ hwy) (hz'.symm ▸ hwz)
  once i o o' hy hz := by
    have hown : ∀ v : Place, v ≠ x → v.1 = x.1 → ¬ Owns f p v :=
      fun v hv hi hf => honce v.2 (hi ▸ (h.owns_iff hv).mpr hf)
    by_cases hi : i = x.1
    · have hox : (i, o) = x := by
        by_contra hne
        exact hown _ hne hi hy
      have hox' : (i, o') = x := by
        by_contra hne
        exact hown _ hne hi hz
      exact congrArg Prod.snd (hox.trans hox'.symm)
    · have hne : ∀ o : Fin 2, (i, o) ≠ x := fun o heq => hi (congrArg Prod.fst heq)
      exact hg.once i o o' ((h.owns_iff (hne o)).mpr hy) ((h.owns_iff (hne o')).mpr hz)

/-! ## Changes of a ring buffer -/

variable {ringbufs : Fin maxRingbufs → Ringbuf π} {rb rb' : Ringbuf π} {i : Fin maxRingbufs}
  {o : Fin 2}

theorem allOwners_update (ringbufs : Fin maxRingbufs → Ringbuf π) (i : Fin maxRingbufs)
    (rb : Ringbuf π) (x : Place) :
    allOwners (Function.update ringbufs i rb) x =
      if x.1 = i then rb.owners x.2 else allOwners ringbufs x := by
  unfold allOwners
  by_cases hx : x.1 = i
  · simp [hx]
  · simp [hx]

/-- The owner `o` is gone; the other owner is as before or there is none. -/
structure Ringbuf.Released (rb : Ringbuf π) (o : Fin 2) (rb' : Ringbuf π) : Prop where
  gone : (rb'.owners o).proc = none
  other : ∀ o', o' ≠ o → rb'.owners o' = rb.owners o' ∨
    ((rb.owners o').proc = none ∧ (rb'.owners o').proc = none)

theorem Ringbuf.Released.other_eq (h : (ringbufs i).Released o rb') {y : Place} (hy : y ≠ (i, o))
    (hown : Owns (allOwners ringbufs) q y ∨ Owns (allOwners (Function.update ringbufs i rb')) q y) :
    allOwners (Function.update ringbufs i rb') y = allOwners ringbufs y := by
  rw [allOwners_update]
  split
  next hi =>
    have ho : y.2 ≠ o := fun ho => hy (Prod.ext hi ho)
    obtain heq | ⟨hnone, hnone'⟩ := h.other y.2 ho
    · rw [heq, allOwners, hi]
    · unfold Owns at hown
      rw [allOwners_update, if_pos hi, allOwners, hi, hnone, hnone'] at hown
      simp at hown
  · rfl

theorem Ringbuf.Released.not_owns (h : (ringbufs i).Released o rb') :
    ¬ Owns (allOwners (Function.update ringbufs i rb')) q (i, o) := by
  rw [Owns, allOwners_update, if_pos rfl, h.gone]
  exact nofun

theorem Ringbuf.Released.without (h : (ringbufs i).Released o rb')
    (hx : Owns (allOwners ringbufs) p (i, o)) :
    Without p (i, o) (allOwners ringbufs) (allOwners (Function.update ringbufs i rb')) :=
  ⟨hx, h.not_owns, fun _ hy hown => h.other_eq hy hown⟩

theorem Ringbuf.Released.agree (h : (ringbufs i).Released o rb')
    (hx : ¬ Owns (allOwners ringbufs) q (i, o)) :
    Agree q (allOwners ringbufs) (allOwners (Function.update ringbufs i rb')) := by
  intro y hown
  by_cases hy : y = (i, o)
  · subst hy
    exact absurd hown (not_or.mpr ⟨hx, h.not_owns⟩)
  · exact h.other_eq hy hown

/-- A ring buffer that is deactivated has no owner, and is as new afterwards. -/
theorem Ringbuf.deactivate_ok {a a' : Allocator} (h : rb.deactivate a = .ok (rb', a')) :
    rb' = .empty ∧ ∀ o, (rb.owners o).proc = none := by
  unfold Ringbuf.deactivate at h
  split at h
  · exact absurd h nofun
  · simp only at h
    split at h
    · exact absurd h nofun
    next hnone =>
      simp only [Except.ok.injEq, Prod.mk.injEq] at h
      refine ⟨h.1.symm, fun o => ?_⟩
      simp only [Bool.or_eq_true, not_or, Option.not_isSome_iff_eq_none] at hnone
      obtain rfl | rfl : o = 0 ∨ o = 1 := by omega
      · exact hnone.1
      · exact hnone.2

/-! ## Giving up a ring buffer -/

/-- The panic is not one of a page table. -/
def Panic.Elsewhere (panic : Panic) : Prop := ∀ q, panic ≠ .memory q

/-- The panic is not one of unmapping or freeing a page table. -/
def Panic.Mapping (panic : Panic) : Prop := ∀ q, panic = .memory q → q = .walk

theorem Panic.Elsewhere.mapping {panic : Panic} (h : panic.Elsewhere) : panic.Mapping :=
  fun q hq => absurd hq (h q)

/-- The call returns with `P`, or it ends in a panic with `H`. -/
def CallOutcome {α : Type} (H : Panic → Prop) (P : α → Prop) : Except Panic α → Prop
  | .error panic => H panic
  | .ok x => P x

theorem CallOutcome.mono {α : Type} {H : Panic → Prop} {P Q : α → Prop} {r : Except Panic α}
    (h : CallOutcome H P r) (hPQ : ∀ x, P x → Q x) : CallOutcome H Q r := by
  cases r with
  | error panic => exact h
  | ok x => exact hPQ x h

theorem CallOutcome.map {α β : Type} {H : Panic → Prop} {P : α → Prop} {Q : β → Prop} {f : α → β}
    {r : Except Panic α} (h : CallOutcome H P r) (hPQ : ∀ x, P x → Q (f x)) : CallOutcome H Q (r.map f) := by
  cases r with
  | error panic => exact h
  | ok x => exact hPQ x h

theorem Ringbuf.deactivate_error {a : Allocator} {panic : Panic}
    (h : rb.deactivate a = .error panic) : panic.Elsewhere := by
  unfold Ringbuf.deactivate at h
  split at h
  · obtain rfl := Except.error.inj h
    exact nofun
  · simp only at h
    split at h
    · obtain rfl := Except.error.inj h
      exact nofun
    · exact absurd h nofun

section Calls
variable [DecidableEq π] {U S : ℕ → Prop} {s s' : State π} {t t' : PageTable} {a a' : Allocator}

/-- The table of the process maps `U` and its windows, and what it counts is no
less than what it owns. -/
structure Good (U : ℕ → Prop) (p : π) (s : State π) : Prop where
  table : (s.processes p).pageTable.Mapped (fun w => U w ∨ windows (allOwners s.ringbufs) p w)
  beside : ∀ w, windows (allOwners s.ringbufs) p w → ¬ U w
  apart : Apart (allOwners s.ringbufs) p
  count : (ownedPlaces (allOwners s.ringbufs) p).card ≤ (s.processes p).ownedRingbufsCount
  pages : ∀ i pages, (s.ringbufs i).pages = some pages → pages.buf.length = ringbufSize

/-- A call of the process keeps this, and changes nothing for others. -/
structure Keeps (U : ℕ → Prop) (p : π) (s s' : State π) : Prop where
  good : Good U p s'
  others : ∀ q, q ≠ p → Agree q (allOwners s.ringbufs) (allOwners s'.ringbufs)

theorem Good.keeps (h : Good U p s) : Keeps U p s s := ⟨h, fun q _ => .refl q _⟩

theorem Keeps.trans {s'' : State π} (h : Keeps U p s s') (h' : Keeps U p s' s'') :
    Keeps U p s s'' :=
  ⟨h'.good, fun q hq => (h.others q hq).trans (h'.others q hq)⟩

/-- The process gives up a place, and its window is unmapped. -/
theorem Good.release (h : Good U p s) (hx : Owns (allOwners s.ringbufs) p (i, o))
    (hrb : (s.ringbufs i).Released o rb')
    (hpages : ∀ pages, rb'.pages = some pages → pages.buf.length = ringbufSize)
    (ht : (s'.processes p).pageTable.Mapped (fun w =>
      (U w ∨ windows (allOwners s.ringbufs) p w) ∧ ¬ ((s.ringbufs i).owners o).window w))
    (hs' : s'.ringbufs = Function.update s.ringbufs i rb')
    (hcount : (s'.processes p).ownedRingbufsCount =
      ProcessMemory.Process.sub64 (s.processes p).ownedRingbufsCount 1) :
    Keeps U p s s' ∧ Without p (i, o) (allOwners s.ringbufs) (allOwners s'.ringbufs) := by
  have hwithout := hrb.without hx
  rw [← hs'] at hwithout
  have hcard := hwithout.card
  have hold := h.count
  refine ⟨⟨⟨ht.congr (fun w _ => ?_), fun w hw => ?_, hwithout.apart h.apart, ?_, fun j pages hj => ?_⟩,
    fun q hq => ?_⟩, hwithout⟩
  · constructor
    · intro hw
      refine ⟨hw.imp_right (fun hw => hwithout.windows_iff.mpr (.inl hw)), fun hin => ?_⟩
      obtain hU | hw := hw
      · exact h.beside w ⟨(i, o), hx, hin⟩ hU
      · exact hwithout.not_window h.apart hw hin
    · intro ⟨hw, hnot⟩
      exact hw.imp_right (fun hw => (hwithout.windows_iff.mp hw).resolve_right hnot)
  · exact h.beside w (hwithout.windows_iff.mpr (.inl hw))
  · rw [hcount, ProcessMemory.Process.sub64, if_pos (by omega)]
    omega
  · rw [hs'] at hj
    by_cases hji : j = i
    · subst hji
      rw [Function.update_self] at hj
      exact hpages pages hj
    · rw [Function.update_of_ne hji] at hj
      exact h.pages j pages hj
  · rw [hs']
    refine hrb.agree (fun hown => hq ?_)
    exact Option.some.inj (hown.symm.trans hx)

theorem disown_spec (h : Good U p s) (hx : Owns (allOwners s.ringbufs) p (i, o)) :
    CallOutcome Panic.Elsewhere (fun s' => Keeps U p s s' ∧
      Without p (i, o) (allOwners s.ringbufs) (allOwners s'.ringbufs)) (s.disown p i o) := by
  have hvbuf := h.apart.vbuf _ hx
  have hle := h.apart.le _ hx
  have hwindow : ∀ w, ((s.ringbufs i).owners o).window w →
      U w ∨ windows (allOwners s.ringbufs) p w := fun w hw => .inr ⟨_, hx, hw⟩
  unfold Owner.window at hwindow
  simp only [allOwners] at hvbuf hle
  unfold State.disown
  simp only
  split
  · exact nofun
  · obtain ⟨t₁, a₁, h₁, hmapped₁, -⟩ := PageTable.unmap_spec false h.table (a := s.allocator)
      (v := ((s.ringbufs i).owners o).vbuf) (n := ringbufSize * 2)
      (fun w hw hw' => hwindow w (by unfold windowSize; omega)) (by unfold windowSize at hle; omega)
    rw [h₁]
    simp only
    split
    · exact nofun
    · obtain ⟨t₂, a₂, h₂, hmapped₂, -⟩ := PageTable.unmap_spec false hmapped₁ (a := a₁)
        (v := ((s.ringbufs i).owners o).vbook) (n := 1)
        (fun w hw hw' => ⟨hwindow w (by unfold windowSize; omega), by omega⟩)
        (by unfold windowSize at hle; omega)
      rw [h₂]
      have ht : t₂.Mapped (fun w => (U w ∨ windows (allOwners s.ringbufs) p w) ∧
          ¬ ((s.ringbufs i).owners o).window w) := by
        refine hmapped₂.congr (fun w _ => ?_)
        rw [and_assoc, Owner.window, windowSize]
        refine and_congr_right (fun _ => ?_)
        omega
      have hreleased : (s.ringbufs i).Released o { s.ringbufs i with
          refcount := sub32 (s.ringbufs i).refcount 1
          owners := Function.update (s.ringbufs i).owners o .empty } := by
        refine ⟨by simp [Owner.empty], fun o' ho' => .inl ?_⟩
        simp only [Function.update_of_ne ho']
      simp only
      split
      · split
        next hd => exact Ringbuf.deactivate_error hd
        next rb' a' hd =>
          obtain ⟨rfl, hnone⟩ := Ringbuf.deactivate_ok hd
          refine h.release hx ⟨rfl, fun o' ho' => .inr ⟨?_, rfl⟩⟩
            (fun pages hp => by simp [Ringbuf.empty] at hp) ?_ rfl ?_
          · have := hnone o'
            simpa only [Function.update_of_ne ho'] using this
          · simpa [State.setRingbuf, State.setProcess] using ht
          · simp [State.setRingbuf, State.setProcess]
      · refine h.release hx hreleased (h.pages i) ?_ rfl ?_
        · simpa [State.setRingbuf, State.setProcess] using ht
        · simp [State.setRingbuf, State.setProcess]

theorem ownerOf_some (ho : (s.ringbufs i).ownerOf p = some o) :
    Owns (allOwners s.ringbufs) p (i, o) := by
  unfold Ringbuf.ownerOf at ho
  split at ho
  next h0 =>
    obtain rfl := Option.some.inj ho
    exact h0
  · split at ho
    next h1 =>
      obtain rfl := Option.some.inj ho
      exact h1
    · exact absurd ho nofun

theorem ownerOf_none (ho : (s.ringbufs i).ownerOf p = none) (o : Fin 2) :
    ¬ Owns (allOwners s.ringbufs) p (i, o) := by
  unfold Ringbuf.ownerOf at ho
  split at ho
  · cases ho
  next h0 =>
    split at ho
    · cases ho
    next h1 =>
      obtain rfl | rfl : o = 0 ∨ o = 1 := by omega
      · exact h0
      · exact h1

/-- What is owned afterwards was owned before, and is another ring buffer. -/
theorem disownIfOwned_spec (h : Good U p s) (i : Fin maxRingbufs) :
    CallOutcome Panic.Elsewhere (fun s' => Keeps U p s s' ∧ ∀ x, Owns (allOwners s'.ringbufs) p x →
      Owns (allOwners s.ringbufs) p x ∧ x.1 ≠ i) (s.disownIfOwned p i) := by
  unfold State.disownIfOwned
  split
  next ho =>
    refine ⟨h.keeps, fun x hx => ⟨hx, fun hi => ?_⟩⟩
    subst hi
    exact ownerOf_none ho x.2 hx
  next o ho =>
    refine (disown_spec h (ownerOf_some ho)).mono ?_
    intro s' ⟨hkeeps, hwithout⟩
    refine ⟨hkeeps, fun x hx => ?_⟩
    obtain ⟨hne, hown, -⟩ := hwithout.owns_of hx
    refine ⟨hown, fun hi => hne ?_⟩
    subst hi
    exact Prod.ext rfl (h.apart.once x.1 x.2 o hown hwithout.owns)

theorem disownEach_spec (h : Good U p s) (l : List (Fin maxRingbufs)) :
    CallOutcome Panic.Elsewhere (fun s' => Keeps U p s s' ∧ ∀ x, Owns (allOwners s'.ringbufs) p x →
      Owns (allOwners s.ringbufs) p x ∧ x.1 ∉ l)
      (l.foldlM (fun s i => s.disownIfOwned p i) s) := by
  induction l generalizing s with
  | nil => exact ⟨h.keeps, fun x hx => ⟨hx, List.not_mem_nil⟩⟩
  | cons i l ih =>
    rw [List.foldlM_cons]
    have hone := disownIfOwned_spec h i
    cases hi : s.disownIfOwned p i with
    | error panic =>
      rw [hi] at hone
      exact hone
    | ok s₁ =>
      rw [hi] at hone
      obtain ⟨hkeeps, hown⟩ := hone
      refine (ih hkeeps.good).mono ?_
      intro s' ⟨hkeeps', hown'⟩
      refine ⟨hkeeps.trans hkeeps', fun x hx => ?_⟩
      obtain ⟨hx', hl⟩ := hown' x hx
      obtain ⟨hx'', hne⟩ := hown x hx'
      exact ⟨hx'', fun hin => (List.mem_cons.mp hin).elim hne hl⟩

/-- Afterwards the process owns nothing. -/
theorem disownAll_spec (h : Good U p s) :
    CallOutcome Panic.Elsewhere (fun s' => Keeps U p s s' ∧ ∀ x, ¬ Owns (allOwners s'.ringbufs) p x)
      (s.disownAll p) := by
  refine (disownEach_spec h (List.finRange maxRingbufs)).mono ?_
  intro s' ⟨hkeeps, hown⟩
  exact ⟨hkeeps, fun x hx => (hown x hx).2 (List.mem_finRange x.1)⟩

theorem closeRingbuf_spec (h : Good U p s) (name : List UInt8) (address : ℕ) :
    CallOutcome Panic.Elsewhere (fun r => Keeps U p s r.2) (s.closeRingbuf p name address) := by
  unfold State.closeRingbuf
  split
  · exact h.keeps
  · split
    · exact h.keeps
    next bytes _ _ =>
      split
      · exact h.keeps
      next i _ =>
        simp only
        generalize LittleEndian.readLE (fun j => bytes.getD j 0) 8 = vaddr
        split
        · exact h.keeps
        · split
          · exact h.keeps
          · split
            · exact h.keeps
            · split
              · exact h.keeps
              · split
                · exact h.keeps
                · split
                  · exact nofun
                  · have hone := disownIfOwned_spec h i
                    split
                    next hi =>
                      rw [hi] at hone
                      exact hone
                    next s₁ hi =>
                      rw [hi] at hone
                      obtain ⟨hkeeps, -⟩ := hone
                      split
                      · have hgood := hkeeps.good
                        refine ⟨⟨?_, hgood.beside, hgood.apart, ?_, hgood.pages⟩, hkeeps.others⟩
                        · simpa [State.setProcess] using hgood.table
                        · simpa [State.setProcess] using hgood.count
                      · exact hkeeps

/-! ## Opening a ring buffer -/

theorem pagesAbove_pageBelow {v : ℕ} (hv : v < maxVirtualPage) :
    pagesAbove (pageBelow v) 1 = v := by
  unfold pagesAbove pageBelow
  simp only [maxVirtualPage] at hv
  split <;> omega

omit [DecidableEq π] in
/-- The pages end up one below the other, from `top` on, where nothing was mapped. -/
theorem mapPages_spec (h : t.Mapped S) (a : Allocator) (top : ℕ) (pages : List Page) :
    CallOutcome Panic.Mapping (fun r => (∃ S', r.2.1.Mapped S') ∧ (r.1 = true → pages ≠ [] →
      ∃ bottom, bottom + pages.length = top + 1 ∧ top < maxVirtualPage ∧
        pagesAbove r.2.2.2 1 = bottom ∧
        r.2.1.Mapped (fun w => S w ∨ (bottom ≤ w ∧ w ≤ top)) ∧
        ∀ w, bottom ≤ w → w ≤ top → ¬ S w)) (mapPages t a top pages) := by
  induction pages generalizing t a top S with
  | nil => exact ⟨⟨S, h⟩, fun _ hne => absurd rfl hne⟩
  | cons page pages ih =>
    rw [mapPages]
    split
    · intro q hq
      exact (Panic.memory.inj hq).symm
    next htop =>
      have htop : top < maxVirtualPage := Nat.not_le.mp htop
      have hspec := (t.map_spec a htop page .data true).2
      have hmap := (h.map a htop page .data (by decide) true).2
      generalize t.map a top page .data true = r at hspec hmap ⊢
      obtain ⟨result, t₁, a₁⟩ := r
      simp only at hspec hmap
      cases result with
      | ok =>
        simp only [true_and] at hmap
        have hnone : ¬ S top := by
          obtain ⟨-, hnone, -⟩ | ⟨hne, -⟩ := hspec
          · intro hS
            have := (h.isSome_iff top htop).mpr hS
            rw [hnone] at this
            exact absurd this Bool.false_ne_true
          · exact absurd rfl hne
        cases pages with
        | nil =>
          refine ⟨⟨_, hmap⟩, fun _ _ => ⟨top, rfl, htop, pagesAbove_pageBelow htop,
            hmap.congr (fun w _ => or_congr_right (by omega)), fun w hw hw' => ?_⟩⟩
          obtain rfl : w = top := by omega
          exact hnone
        | cons page' rest =>
          refine (ih hmap a₁ (pageBelow top)).mono ?_
          rintro ⟨mapped, t', a', top'⟩ ⟨hsome, hrest⟩
          refine ⟨hsome, fun hm _ => ?_⟩
          obtain ⟨bottom, hlength, hlt, habove, hmapped, hfresh⟩ := hrest hm (List.cons_ne_nil _ _)
          have hbelow : pageBelow top + 1 = top := by
            unfold pageBelow at hlt ⊢
            by_cases h0 : top = 0
            · rw [if_pos h0] at hlt
              simp only [maxVirtualPage] at hlt
              omega
            · rw [if_neg h0]
              omega
          simp only [List.length_cons] at hlength ⊢
          refine ⟨bottom, by omega, htop, habove, hmapped.congr (fun w _ => ?_), fun w hw hw' => ?_⟩
          · rw [or_assoc]
            exact or_congr_right (by omega)
          · by_cases hwt : w = top
            · exact hwt ▸ hnone
            · exact fun hS => hfresh w hw (by omega) (.inl hS)
      | outOfMemory => exact ⟨⟨_, hmap⟩, by simp⟩
      | alreadyMappedPage => exact ⟨⟨_, hmap⟩, by simp⟩

theorem allocBufPages_length (a : Allocator) (n : ℕ) : (allocBufPages a n).1.length ≤ n := by
  induction n generalizing a with
  | zero => exact le_rfl
  | succ n ih =>
    rw [allocBufPages]
    split
    · exact Nat.zero_le _
    · exact Nat.succ_le_succ (ih _)

omit [DecidableEq π] in
theorem Ringbuf.activate_spec {name : List UInt8} {r : Except RingbufError Unit × Ringbuf π × Allocator}
    (h : rb.activate name a = r) : r.2.1.owners = rb.owners ∧
      ((∀ pages, rb.pages = some pages → pages.buf.length = ringbufSize) →
        ∀ pages, r.2.1.pages = some pages → pages.buf.length = ringbufSize) := by
  subst h
  unfold Ringbuf.activate
  split
  · exact ⟨rfl, id⟩
  split
  · exact ⟨rfl, id⟩
  simp only
  split
  · exact ⟨rfl, fun _ => nofun⟩
  · split
    · exact ⟨rfl, fun _ => nofun⟩
    next hlength =>
      refine ⟨rfl, fun _ pages hp => ?_⟩
      obtain rfl := Option.some.inj hp
      exact le_antisymm (allocBufPages_length a ringbufSize) (Nat.not_lt.mp hlength)

omit [DecidableEq π] in
theorem owners_setRingbuf {rb : Ringbuf π} (h : rb.owners = (s.ringbufs i).owners) :
    allOwners (s.setRingbuf i rb).ringbufs = allOwners s.ringbufs := by
  funext x
  simp only [State.setRingbuf, allOwners_update]
  split
  next hi => rw [h, allOwners, hi]
  · rfl

omit [DecidableEq π] in
theorem pages_setRingbuf {rb : Ringbuf π}
    (h : ∀ pages, rb.pages = some pages → pages.buf.length = ringbufSize)
    (hs : ∀ i pages, (s.ringbufs i).pages = some pages → pages.buf.length = ringbufSize) :
    ∀ j pages, ((s.setRingbuf i rb).ringbufs j).pages = some pages →
      pages.buf.length = ringbufSize := by
  intro j pages hj
  simp only [State.setRingbuf] at hj
  by_cases hji : j = i
  · subst hji
    rw [Function.update_self] at hj
    exact h pages hj
  · rw [Function.update_of_ne hji] at hj
    exact hs j pages hj

/-- What a claim leaves alone, and the place that it finds. -/
structure Claimed (s : State π) (p : π) (result : Except RingbufError (Fin maxRingbufs × Fin 2))
    (s' : State π) : Prop where
  owners : allOwners s'.ringbufs = allOwners s.ringbufs
  processes : s'.processes = s.processes
  pages : (∀ i pages, (s.ringbufs i).pages = some pages → pages.buf.length = ringbufSize) →
    ∀ i pages, (s'.ringbufs i).pages = some pages → pages.buf.length = ringbufSize
  place : ∀ i o, result = .ok (i, o) → (allOwners s.ringbufs (i, o)).proc = none ∧
    ∀ o', ¬ Owns (allOwners s.ringbufs) p (i, o')

theorem claim_spec (s : State π) (p : π) (name : List UInt8) :
    CallOutcome Panic.Mapping (fun r => Claimed s p r.1 r.2) (s.claim p name) := by
  unfold State.claim
  split
  next i _ =>
    simp only
    split
    · exact ⟨rfl, rfl, id, nofun⟩
    next hnot =>
      split
      · exact nofun
      next hsome =>
        split
        · exact ⟨rfl, rfl, id, nofun⟩
        next hboth =>
          refine ⟨rfl, rfl, id, fun j o hj => ?_⟩
          obtain ⟨rfl, rfl⟩ := Prod.mk.inj (Except.ok.inj hj)
          rw [not_or] at hnot
          refine ⟨?_, fun o' => ?_⟩
          · unfold allOwners
            split
            next h1 => exact h1
            next h1 =>
              by_contra h0
              exact hboth ⟨Option.isSome_iff_ne_none.mpr h0, Option.isSome_iff_ne_none.mpr h1⟩
          · obtain rfl | rfl : o' = 0 ∨ o' = 1 := by omega
            · exact hnot.1
            · exact hnot.2
  next =>
    split
    · exact ⟨rfl, rfl, id, nofun⟩
    next i _ =>
      split
      next hact =>
        obtain ⟨howners, hpages⟩ := Ringbuf.activate_spec hact
        exact ⟨owners_setRingbuf howners, rfl, fun hs => pages_setRingbuf (hpages (hs i)) hs, nofun⟩
      next rb a hact =>
        obtain ⟨howners, hpages⟩ := Ringbuf.activate_spec hact
        split
        · exact nofun
        next hnone =>
          refine ⟨owners_setRingbuf howners, rfl, fun hs => pages_setRingbuf (hpages (hs i)) hs,
            fun j o hj => ?_⟩
          obtain ⟨rfl, rfl⟩ := Prod.mk.inj (Except.ok.inj hj)
          simp only [Bool.or_eq_true, not_or, Option.not_isSome_iff_eq_none] at hnone
          simp only at howners
          rw [howners] at hnone
          refine ⟨hnone.1, fun o' => ?_⟩
          unfold Owns allOwners
          obtain rfl | rfl : o' = 0 ∨ o' = 1 := by omega
          · rw [hnone.1]
            exact nofun
          · rw [hnone.2]
            exact nofun

/-- What is done to a claimed place. -/
structure Installed (S : ℕ → Prop) (s : State π) (p : π) (i : Fin maxRingbufs) (o : Fin 2)
    (result : Except RingbufError Unit) (s' : State π) : Prop where
  mapped : ∃ S', (s'.processes p).pageTable.Mapped S'
  count : (s'.processes p).ownedRingbufsCount = (s.processes p).ownedRingbufsCount
  ringbufs : ∃ owner, s'.ringbufs = Function.update s.ringbufs i { s.ringbufs i with
    owners := Function.update (s.ringbufs i).owners o owner } ∧
    owner.proc = ((s.ringbufs i).owners o).proc ∧
    (result = .ok () → owner.vbuf = owner.vbook + 1 ∧ owner.vbook + windowSize ≤ maxVirtualPage ∧
      (s'.processes p).pageTable.Mapped (fun w => S w ∨ owner.window w) ∧
      ∀ w, owner.window w → ¬ S w)

theorem install_spec (h : (s.processes p).pageTable.Mapped S)
    (hpages : ∀ pages, (s.ringbufs i).pages = some pages → pages.buf.length = ringbufSize)
    (address : ℕ) :
    CallOutcome Panic.Mapping (fun r => Installed S s p i o r.1 r.2) (s.install p i o address) := by
  unfold State.install
  split
  · simp [CallOutcome, Panic.Mapping]
  next pages hp =>
    have hlength := hpages pages hp
    have hmap := mapPages_spec h s.allocator (s.processes p).topFreeVirtualPage
      (pages.buf ++ pages.buf ++ [pages.book])
    simp only
    split
    next hm =>
      rw [hm] at hmap
      exact hmap
    next mapped t a top hm =>
      rw [hm] at hmap
      obtain ⟨hsome, hrest⟩ := hmap
      have hself : s.ringbufs = Function.update s.ringbufs i { s.ringbufs i with
          owners := Function.update (s.ringbufs i).owners o ((s.ringbufs i).owners o) } := by
        rw [Function.update_eq_self, Function.update_eq_self]
      cases mapped with
      | false =>
        refine ⟨?_, ?_, (s.ringbufs i).owners o, hself, rfl, by simp⟩
        · simpa [State.setProcess] using hsome
        · simp [State.setProcess]
      | true =>
        obtain ⟨bottom, hbottom, htop, habove, hmapped, hfresh⟩ :=
          hrest rfl (List.append_ne_nil_of_right_ne_nil _ (List.cons_ne_nil _ _))
        simp only at hmapped habove hsome
        simp only [List.length_append, hlength, List.length_cons, List.length_nil] at hbottom
        have hbuf : pagesAbove top 2 = bottom + 1 := by
          unfold pagesAbove at *
          simp only [maxVirtualPage] at htop
          omega
        simp only [if_true]
        split
        · refine ⟨?_, ?_, _, rfl, rfl, by simp⟩
          · simpa [State.setProcess, State.setRingbuf] using hsome
          · simp [State.setProcess, State.setRingbuf]
        · refine ⟨?_, ?_, _, rfl, rfl, fun _ => ?_⟩
          · simpa [State.setProcess, State.setRingbuf] using hsome
          · simp [State.setProcess, State.setRingbuf]
          · have hwindow : ∀ w, (bottom ≤ w ∧ w < bottom + windowSize) ↔
                (bottom ≤ w ∧ w ≤ (s.processes p).topFreeVirtualPage) := by
              unfold windowSize
              omega
            simp only [Owner.window, habove, hbuf, hwindow]
            refine ⟨trivial, ?_, ?_, fun w hw => hfresh w hw.1 hw.2⟩
            · unfold windowSize
              omega
            · simpa [State.setProcess, State.setRingbuf] using hmapped

/-- A state with the same owners. -/
theorem Good.of_agree (h : Good U p s)
    (hagree : ∀ q, Agree q (allOwners s.ringbufs) (allOwners s'.ringbufs))
    (htable : (s'.processes p).pageTable.Mapped
      (fun w => U w ∨ windows (allOwners s.ringbufs) p w))
    (hcount : (s.processes p).ownedRingbufsCount ≤ (s'.processes p).ownedRingbufsCount)
    (hpages : ∀ i pages, (s'.ringbufs i).pages = some pages → pages.buf.length = ringbufSize) :
    Keeps U p s s' := by
  refine ⟨⟨?_, fun w hw => ?_, (hagree p).apart h.apart, ?_, hpages⟩, fun q _ => hagree q⟩
  · exact htable.congr (fun w _ => or_congr_right (hagree p).windows_iff)
  · exact h.beside w ((hagree p).windows_iff.mp hw)
  · rw [(hagree p).ownedPlaces]
    exact h.count.trans hcount

/-- If the open fails at a place that it has claimed, it has mapped nothing. -/
def Tidy (s : State π) (p : π) (name : List UInt8) (address : ℕ) : Prop :=
  ∀ i o s₁ e s₂, s.claim p name = .ok (.ok (i, o), s₁) →
    (s₁.own p i o).install p i o address = .ok (.error e, s₂) →
      (s₂.processes p).pageTable.leaf = (s.processes p).pageTable.leaf

/-- The owners after a place has been claimed and dealt with. -/
theorem Installed.allOwners {result : Except RingbufError Unit}
    (h : Installed S (s.own p i o) p i o result s') :
    ∃ owner, (∀ x, allOwners s'.ringbufs x =
        if x = (i, o) then owner else allOwners s.ringbufs x) ∧ owner.proc = some p ∧
      (result = .ok () → owner.vbuf = owner.vbook + 1 ∧
        owner.vbook + windowSize ≤ maxVirtualPage ∧
        (s'.processes p).pageTable.Mapped (fun w => S w ∨ owner.window w) ∧
        ∀ w, owner.window w → ¬ S w) := by
  obtain ⟨owner, hrings, hproc, hok⟩ := h.ringbufs
  refine ⟨owner, fun x => ?_, ?_, hok⟩
  · rw [hrings, allOwners_update]
    by_cases hi : x.1 = i
    · by_cases ho : x.2 = o
      · have hx : x = (i, o) := Prod.ext hi ho
        simp [hx]
      · have hx : x ≠ (i, o) := fun hx => ho (congrArg Prod.snd hx)
        simp [hx, hi, ho, State.own, State.setProcess, State.setRingbuf, RingbufManager.allOwners]
    · have hx : x ≠ (i, o) := fun hx => hi (congrArg Prod.fst hx)
      simp [hx, hi, State.own, State.setProcess, State.setRingbuf, RingbufManager.allOwners]
  · rw [hproc]
    simp [State.own, State.setProcess, State.setRingbuf]

omit [DecidableEq π] in
theorem Installed.pages {result : Except RingbufError Unit} (h : Installed S s p i o result s')
    (hs : ∀ j pages, (s.ringbufs j).pages = some pages → pages.buf.length = ringbufSize) :
    ∀ j pages, (s'.ringbufs j).pages = some pages → pages.buf.length = ringbufSize := by
  obtain ⟨owner, hrings, -⟩ := h.ringbufs
  rw [hrings]
  exact pages_setRingbuf (hs i) hs

omit [DecidableEq π] in
/-- The ring buffer that is given up has had no other owner. -/
theorem giveUp_spec (s : State π) (i : Fin maxRingbufs) (o : Fin 2) :
    CallOutcome Panic.Mapping (fun s' => s'.processes = s.processes ∧
      s'.ringbufs = Function.update s.ringbufs i .empty ∧
      ∀ o', o' ≠ o → (allOwners s.ringbufs (i, o')).proc = none) (s.giveUp i o) := by
  unfold State.giveUp
  simp only
  split
  next hd => exact (Ringbuf.deactivate_error hd).mapping
  next rb a hd =>
    obtain ⟨rfl, hnone⟩ := Ringbuf.deactivate_ok hd
    refine ⟨rfl, rfl, fun o' ho' => ?_⟩
    have := hnone o'
    simpa only [allOwners, Function.update_of_ne ho'] using this

theorem openRingbuf_spec (h : Good U p s) {name : List UInt8} {address : ℕ}
    (htidy : Tidy s p name address) :
    CallOutcome Panic.Mapping (fun r => Keeps U p s r.2) (s.openRingbuf p name address) := by
  have hclaim := claim_spec s p name
  unfold State.openRingbuf
  split
  · exact h.keeps
  · split
    next hc =>
      rw [hc] at hclaim
      exact hclaim
    next e s₁ hc =>
      rw [hc] at hclaim
      have hclaimed : Claimed s p (.error e) s₁ := hclaim
      refine h.of_agree (fun q => ?_) ?_ ?_ (hclaimed.pages h.pages)
      · rw [hclaimed.owners]
        exact .refl q _
      · rw [hclaimed.processes]
        exact h.table
      · rw [hclaimed.processes]
    next i o s₁ hc =>
      rw [hc] at hclaim
      have hclaimed : Claimed s p (.ok (i, o)) s₁ := hclaim
      obtain ⟨hnone, honce⟩ := hclaimed.place i o rfl
      have hpages₁ := hclaimed.pages h.pages
      have htable : ((s₁.own p i o).processes p).pageTable.Mapped
          (fun w => U w ∨ windows (allOwners s.ringbufs) p w) := by
        simpa [State.own, State.setProcess, State.setRingbuf, hclaimed.processes] using h.table
      have hcount : ((s₁.own p i o).processes p).ownedRingbufsCount =
          (s.processes p).ownedRingbufsCount + 1 := by
        simp [State.own, State.setProcess, State.setRingbuf, hclaimed.processes]
      have hpages : ∀ j pages, ((s₁.own p i o).ringbufs j).pages = some pages →
          pages.buf.length = ringbufSize := pages_setRingbuf (hpages₁ i) hpages₁
      have hinstall := install_spec (i := i) (o := o) htable (hpages i) address
      split
      next hi =>
        rw [hi] at hinstall
        exact hinstall
      next s₂ hi =>
        rw [hi] at hinstall
        have hinstalled : Installed _ _ p i o (.ok ()) s₂ := hinstall
        obtain ⟨owner, howners, hproc, hok⟩ := hinstalled.allOwners
        obtain ⟨hvbuf, hle, hmapped, hnew⟩ := hok rfl
        rw [hclaimed.owners] at howners
        have hplace : allOwners s₂.ringbufs (i, o) = owner := by rw [howners, if_pos rfl]
        have hwithout : Without p (i, o) (allOwners s₂.ringbufs) (allOwners s.ringbufs) := by
          refine ⟨by rw [Owns, hplace, hproc], fun hown => ?_, fun y hy _ => ?_⟩
          · rw [Owns, hnone] at hown
            exact absurd hown nofun
          · rw [howners, if_neg hy]
        refine ⟨⟨?_, fun w hw => ?_, ?_, ?_, hinstalled.pages hpages⟩, fun q hq x hx => ?_⟩
        · refine hmapped.congr (fun w _ => ?_)
          rw [hwithout.windows_iff, hplace, or_assoc]
        · obtain hold | hin := hwithout.windows_iff.mp hw
          · exact h.beside w hold
          · exact fun hU => hnew w (hplace ▸ hin) (.inl hU)
        · refine hwithout.apart_of h.apart ?_ ?_ (fun w hw hold => ?_) honce
          · rw [hplace, hvbuf]
          · rw [hplace]
            exact hle
          · rw [hplace] at hw
            exact hnew w hw (.inr hold)
        · rw [hwithout.card, hinstalled.count, hcount]
          exact Nat.succ_le_succ h.count
        · rw [howners]
          split
          next hxi =>
            subst hxi
            rw [Owns, Owns, hplace, hproc, hnone] at hx
            exact absurd (hx.resolve_left nofun) (fun heq => hq (Option.some.inj heq).symm)
          · rfl
      next e s₂ hi =>
        rw [hi] at hinstall
        have hinstalled : Installed _ _ p i o (.error e) s₂ := hinstall
        obtain ⟨owner, howners, -⟩ := hinstalled.allOwners
        rw [hclaimed.owners] at howners
        have hgive := giveUp_spec s₂ i o
        split
        next hg =>
          rw [hg] at hgive
          exact hgive
        next s₃ hg =>
          rw [hg] at hgive
          obtain ⟨hprocesses, hrings, hother⟩ := hgive
          obtain ⟨S', hmapped⟩ := hinstalled.mapped
          have hleaf := htidy i o s₁ e s₂ hc hi
          refine h.of_agree (fun q x hx => ?_) ?_ ?_ ?_
          · -- At the ring buffer nobody is an owner, neither before nor afterwards.
            have hthere : allOwners s₃.ringbufs x =
                if x.1 = i then .empty else allOwners s₂.ringbufs x := by
              rw [hrings, allOwners_update]
              rfl
            by_cases hxi : x.1 = i
            · have hbefore : (allOwners s.ringbufs x).proc = none := by
                by_cases hxo : x.2 = o
                · rw [show x = (i, o) from Prod.ext hxi hxo, hnone]
                · have := hother x.2 hxo
                  rw [howners, if_neg (fun heq => hxo (congrArg Prod.snd heq)), ← hxi] at this
                  exact this
              rw [Owns, Owns, hbefore, hthere, if_pos hxi] at hx
              exact absurd hx (by simp [Owner.empty])
            · rw [hthere, if_neg hxi, howners, if_neg (fun heq => hxi (congrArg Prod.fst heq))]
          · rw [hprocesses]
            refine ⟨hmapped.upper, fun v hv => ?_, fun v hv pte hpte => ?_⟩
            · rw [hleaf]
              exact h.table.isSome_iff v hv
            · rw [hleaf] at hpte
              exact h.table.permissions v hv pte hpte
          · rw [hprocesses, hinstalled.count, hcount]
            exact Nat.le_succ _
          · rw [hrings]
            exact pages_setRingbuf (s := s₂) nofun (hinstalled.pages hpages)

end Calls

end Zigmaos.RingbufManager
