import Zigmaos.DiskDriver
import Zigmaos.RingWindow
import Mathlib.Data.List.Nodup
import Mathlib.Data.List.Perm.Basic

/-!
# Descriptor chains in flight

The chains of the requests in flight share the descriptors with the free ones.
A head is in one of four places from its submission to its completion: in the
available ring, taken by the device, with its status stored, or in the used
ring. As a chain takes three of eight descriptors, neither ring can fill up.
-/
namespace Zigmaos.DiskDriver

open RingWindow

section
variable {β : Type*}

/-! ## Allocation and release -/

theorem freeDescriptor_eq {d : Disk β} {i : ℕ} (hi : i < queueSize) (hf : d.free i = false) :
    freeDescriptor d i = .ok { d with
      descriptor := Function.update d.descriptor i .cleared
      free := Function.update d.free i true } := by
  simp [freeDescriptor, hf, Nat.not_le.mpr hi]

/-- The roll back of a failed allocation. -/
theorem foldlM_freeDescriptor (l : List ℕ) (d : Disk β) (hn : l.Nodup)
    (hl : ∀ i ∈ l, i < queueSize ∧ d.free i = false) :
    ∃ f, l.foldlM freeDescriptor d =
        .ok { d with descriptor := f, free := fun i => if i ∈ l then true else d.free i } ∧
      ∀ i, i ∉ l → f i = d.descriptor i := by
  induction l generalizing d with
  | nil => exact ⟨d.descriptor, by simp [pure, Except.pure], fun _ _ => rfl⟩
  | cons i l ih =>
    obtain ⟨hil, hn⟩ := List.nodup_cons.mp hn
    obtain ⟨hi, hfi⟩ := hl i List.mem_cons_self
    have hne : ∀ j ∈ l, j ≠ i := fun j hj h => hil (h ▸ hj)
    obtain ⟨f, hf, hdesc⟩ := ih { d with
        descriptor := Function.update d.descriptor i .cleared
        free := Function.update d.free i true } hn fun j hj => by
      obtain ⟨hj', hfj⟩ := hl j (List.mem_cons_of_mem i hj)
      exact ⟨hj', by simpa [Function.update_of_ne (hne j hj)] using hfj⟩
    refine ⟨f, ?_, fun j hj => ?_⟩
    · rw [List.foldlM_cons, freeDescriptor_eq hi hfi]
      simp only [bind, Except.bind, hf]
      congr 2
      funext j
      by_cases hji : j = i
      · simp [hji]
      · simp [hji]
    · rw [hdesc j fun h => hj (List.mem_cons_of_mem i h)]
      exact Function.update_of_ne (fun h => hj (by rw [h]; exact List.mem_cons_self)) _ _

theorem allocDescriptor_eq_some {d d' : Disk β} {i : ℕ} (h : allocDescriptor d = some (d', i)) :
    i < queueSize ∧ d.free i = true ∧ d' = { d with free := Function.update d.free i false } := by
  unfold allocDescriptor at h
  split at h
  · rename_i j hj
    simp only [Option.some.injEq, Prod.mk.injEq] at h
    obtain ⟨rfl, rfl⟩ := h
    exact ⟨List.mem_range.mp (List.mem_of_find?_eq_some hj), List.find?_some hj, rfl⟩
  · cases h

/-- An allocation takes free descriptors, or leaves the descriptors that are in use alone. -/
theorem allocDescriptorsSlice_spec (n : ℕ) (d : Disk β) (l : List ℕ) (hn : l.Nodup)
    (hl : ∀ i ∈ l, i < queueSize ∧ d.free i = false) :
    (∃ f, allocDescriptorsSlice n d l =
        .ok ({ d with descriptor := f, free := fun i => if i ∈ l then true else d.free i }, none) ∧
      ∀ i, i ∉ l → d.free i = false → f i = d.descriptor i) ∨
    ∃ l', allocDescriptorsSlice n d l =
        .ok ({ d with free := fun i => if i ∈ l' then false else d.free i }, some (l ++ l')) ∧
      l'.length = n ∧ (l ++ l').Nodup ∧ ∀ i ∈ l', i < queueSize ∧ d.free i = true := by
  induction n generalizing d l with
  | zero => exact .inr ⟨[], by simp [allocDescriptorsSlice], rfl, by simpa using hn, by simp⟩
  | succ n ih =>
    unfold allocDescriptorsSlice
    split
    · rename_i d₁ i h
      obtain ⟨hi, hfi, rfl⟩ := allocDescriptor_eq_some h
      have hil : i ∉ l := fun hm => by rw [(hl i hm).2] at hfi; cases hfi
      have hn' : (l ++ [i]).Nodup :=
        hn.append (List.nodup_singleton i) (List.disjoint_singleton.mpr hil)
      obtain ⟨f, hf, hdesc⟩ | ⟨l', hl', hlen, hnod, hfree⟩ :=
        ih { d with free := Function.update d.free i false } (l ++ [i]) hn' (by
          intro j hj
          rw [List.mem_append, List.mem_singleton] at hj
          obtain hj | rfl := hj
          · have hji : j ≠ i := fun h => hil (h ▸ hj)
            exact ⟨(hl j hj).1, by simpa [Function.update_of_ne hji] using (hl j hj).2⟩
          · exact ⟨hi, by simp⟩)
      · refine .inl ⟨f, ?_, fun j hj hfj => ?_⟩
        · rw [hf]
          congr 3
          funext j
          by_cases hji : j = i
          · subst hji
            simp [hfi]
          · simp [hji]
        · have hji : j ≠ i := fun h => by rw [h, hfi] at hfj; cases hfj
          exact hdesc j (by simp [hj, hji]) (by simpa [Function.update_of_ne hji] using hfj)
      · refine .inr ⟨i :: l', ?_, by simp [hlen], by simpa using hnod, ?_⟩
        · rw [hl', List.append_assoc, List.singleton_append]
          congr 3
          funext j
          by_cases hji : j = i
          · subst hji
            simp
          · simp [hji]
        · intro j hj
          obtain rfl | hj := List.mem_cons.mp hj
          · exact ⟨hi, hfi⟩
          · have hji : j ≠ i := fun h => by
              have := (hfree j hj).2
              simp [h] at this
            exact ⟨(hfree j hj).1, by
              simpa [Function.update_of_ne hji] using (hfree j hj).2⟩
    · obtain ⟨f, hf, hdesc⟩ := foldlM_freeDescriptor l d hn hl
      exact .inl ⟨f, by simp [hf, bind, Except.bind], fun i hi _ => hdesc i hi⟩

/-- The descriptors and the record of a request are as `format` has stored them. -/
structure Chain (d : Disk β) (b : β) (i₀ i₁ i₂ : ℕ) : Prop where
  first : d.descriptor i₀ = ⟨.operation i₀, 16, true, false, i₁⟩
  second : ∃ w, d.descriptor i₁ = ⟨.data b, 1024, true, w, i₂⟩
  third : d.descriptor i₂ = ⟨.status i₀, 1, false, true, 0⟩
  buffer : (d.info i₀).buffer = some b

theorem Chain.congr {d d' : Disk β} {b : β} {i₀ i₁ i₂ : ℕ} (h : Chain d b i₀ i₁ i₂)
    (hd : ∀ i ∈ [i₀, i₁, i₂], d'.descriptor i = d.descriptor i)
    (hi : (d'.info i₀).buffer = (d.info i₀).buffer) : Chain d' b i₀ i₁ i₂ where
  first := (hd i₀ (by simp)).trans h.first
  second := by rw [hd i₁ (by simp)]; exact h.second
  third := (hd i₂ (by simp)).trans h.third
  buffer := hi.trans h.buffer

theorem format_chain (d : Disk β) (b : β) (number : ℕ) (doWrite : Bool) {i₀ i₁ i₂ : ℕ}
    (hn : [i₀, i₁, i₂].Nodup) : Chain (format d b number doWrite i₀ i₁ i₂) b i₀ i₁ i₂ := by
  simp only [List.nodup_cons, List.mem_cons, List.not_mem_nil, or_false, not_or] at hn
  obtain ⟨⟨h₀₁, h₀₂⟩, h₁₂, _⟩ := hn
  constructor
  · simp [format, Function.update_of_ne h₀₁, Function.update_of_ne h₀₂]
  · exact ⟨!doWrite, by simp [format, Function.update_of_ne h₁₂]⟩
  · simp [format]
  · simp [format]

/-- The whole chain is freed, and nothing else. -/
theorem freeDescriptorChain_eq {d : Disk β} {b : β} {i₀ i₁ i₂ : ℕ} (hn : [i₀, i₁, i₂].Nodup)
    (hl : ∀ i ∈ [i₀, i₁, i₂], i < queueSize ∧ d.free i = false)
    (h₀ : d.descriptor i₀ = ⟨.operation i₀, 16, true, false, i₁⟩)
    (h₁ : ∃ w, d.descriptor i₁ = ⟨.data b, 1024, true, w, i₂⟩)
    (h₂ : d.descriptor i₂ = ⟨.status i₀, 1, false, true, 0⟩) (fuel : ℕ) :
    ∃ f, freeDescriptorChain (fuel + 3) d i₀ =
        .ok { d with
          descriptor := f, free := fun i => if i ∈ [i₀, i₁, i₂] then true else d.free i } ∧
      ∀ i, i ∉ [i₀, i₁, i₂] → f i = d.descriptor i := by
  obtain ⟨w, h₁⟩ := h₁
  simp only [List.nodup_cons, List.mem_cons, List.not_mem_nil, or_false, not_or] at hn
  obtain ⟨⟨h₀₁, h₀₂⟩, h₁₂, _⟩ := hn
  obtain ⟨hb₀, hf₀⟩ := hl i₀ (by simp)
  obtain ⟨hb₁, hf₁⟩ := hl i₁ (by simp)
  obtain ⟨hb₂, hf₂⟩ := hl i₂ (by simp)
  refine ⟨Function.update (Function.update (Function.update d.descriptor i₀ .cleared) i₁ .cleared)
    i₂ .cleared, ?_, fun i hi => ?_⟩
  · simp only [freeDescriptorChain, h₀, freeDescriptor_eq hb₀ hf₀, bind, Except.bind, if_true]
    rw [Function.update_of_ne (Ne.symm h₀₁), h₁, freeDescriptor_eq hb₁
      (by simpa [Function.update_of_ne (Ne.symm h₀₁)] using hf₁)]
    simp only [if_true]
    rw [Function.update_of_ne (Ne.symm h₁₂), Function.update_of_ne (Ne.symm h₀₂), h₂,
      freeDescriptor_eq hb₂ (by
        simpa [Function.update_of_ne (Ne.symm h₁₂), Function.update_of_ne (Ne.symm h₀₂)] using hf₂)]
    simp only [Bool.false_eq_true, if_false]
    congr 2
    funext i
    by_cases hi₂ : i = i₂
    · simp [hi₂]
    · by_cases hi₁ : i = i₁
      · simp [hi₁, Function.update_of_ne h₁₂]
      · by_cases hi₀ : i = i₀
        · simp [hi₀, Function.update_of_ne h₀₁, Function.update_of_ne h₀₂]
        · simp [hi₀, hi₁, hi₂]
  · simp only [List.mem_cons, List.not_mem_nil, or_false, not_or] at hi
    rw [Function.update_of_ne hi.2.2, Function.update_of_ne hi.2.1, Function.update_of_ne hi.1]

end

/-! ## The invariant -/

def Phase.chain {β : Type*} : Phase β → List ℕ
  | .submitted _ i₀ i₁ i₂ => [i₀, i₁, i₂]
  | _ => []

def Phase.buffer {β : Type*} : Phase β → Option β
  | .idle => none
  | .waiting b _ _ | .submitted b _ _ _ => some b

variable {π β : Type*}

/-- The head of a request whose buffer the disk still owns. -/
def Outstanding (phase : π → Phase β) (diskOwned : β → Bool) (head : ℕ) : Prop :=
  ∃ p b i₁ i₂, phase p = .submitted b head i₁ i₂ ∧ diskOwned b = true

/-- Every outstanding head is once in the available ring, with the device or in the used ring. -/
structure Flight (s : State π β) (pending done : List ℕ) : Prop where
  available : Window queueSize indexSize s.disk.available s.seen s.disk.availableIdx pending
  used : Window queueSize indexSize s.disk.used s.disk.usedIdx s.disk.usedRingIdx done
  nodup : (pending ++ s.taken ++ s.finished ++ done).Nodup
  mem : ∀ h, h ∈ pending ++ s.taken ++ s.finished ++ done ↔ Outstanding s.phase s.diskOwned h
  status : ∀ h ∈ s.finished ++ done, (s.disk.info h).status = .ok

structure Inv (s : State π β) : Prop where
  panicked : s.panicked = none
  bound : ∀ p, ∀ i ∈ (s.phase p).chain, i < queueSize
  nodup : ∀ p, (s.phase p).chain.Nodup
  disjoint : ∀ p q i, i ∈ (s.phase p).chain → i ∈ (s.phase q).chain → p = q
  free : ∀ i, i < queueSize → (s.disk.free i = true ↔ ∀ p, i ∉ (s.phase p).chain)
  chain : ∀ p b i₀ i₁ i₂, s.phase p = .submitted b i₀ i₁ i₂ → Chain s.disk b i₀ i₁ i₂
  holder : ∀ p b, (s.phase p).buffer = some b → s.holder b = some p
  cleared : ∀ p b i₀ i₁ i₂, s.phase p = .submitted b i₀ i₁ i₂ →
    s.cleared p = if s.diskOwned b then 0 else 1
  flight : ∃ pending done, Flight s pending done

theorem Inv.initial [DecidableEq π] [DecidableEq β] {s : State π β} (h : Initial s) : Inv s where
  panicked := h.panicked
  bound p := by simp [h.phase, Phase.chain]
  nodup p := by simp [h.phase, Phase.chain]
  disjoint p q i hp := by simp [h.phase, Phase.chain] at hp
  free i hi := by simp [h.free i hi, h.phase, Phase.chain]
  chain p b i₀ i₁ i₂ hp := by simp [h.phase] at hp
  holder p b hp := by simp [h.phase, Phase.buffer] at hp
  cleared p b i₀ i₁ i₂ hp := by simp [h.phase] at hp
  flight := by
    refine ⟨[], [], ?_, ?_, ?_, ?_, ?_⟩
    · rw [h.seen, h.availableIdx]
      exact .nil (by decide)
    · rw [h.usedIdx, h.usedRingIdx]
      exact .nil (by decide)
    · simp [h.taken, h.finished]
    · simp [h.taken, h.finished, Outstanding, h.phase]
    · simp [h.finished]

section
variable {s : State π β}

/-- Distinct outstanding heads have three descriptors each. -/
theorem Inv.chains (hi : Inv s) (l : List ℕ) (hn : l.Nodup)
    (hl : ∀ h ∈ l, Outstanding s.phase s.diskOwned h) :
    ∃ m : List ℕ, m.Nodup ∧ m.length = 3 * l.length ∧ (∀ i ∈ m, i < queueSize) ∧
      ∀ i ∈ m, ∃ p b h i₁ i₂, h ∈ l ∧ s.phase p = .submitted b h i₁ i₂ ∧
        i ∈ (s.phase p).chain := by
  induction l with
  | nil => exact ⟨[], List.nodup_nil, rfl, by simp, by simp⟩
  | cons h l ih =>
    obtain ⟨hhl, hn⟩ := List.nodup_cons.mp hn
    obtain ⟨m, hm, hlen, hbound, hmem⟩ := ih hn fun h' hh' => hl h' (List.mem_cons_of_mem h hh')
    obtain ⟨p, b, i₁, i₂, hp, _⟩ := hl h List.mem_cons_self
    refine ⟨(s.phase p).chain ++ m, ?_, ?_, ?_, ?_⟩
    · refine (hi.nodup p).append hm ?_
      intro i hip him
      obtain ⟨q, b', h', j₁, j₂, hh', hq, hiq⟩ := hmem i him
      have hpq := hi.disjoint p q i hip hiq
      rw [← hpq, hp] at hq
      cases hq
      exact hhl hh'
    · rw [List.length_append, hlen, hp]
      simp [Phase.chain]
      omega
    · intro i him
      obtain him | him := List.mem_append.mp him
      · exact hi.bound p i him
      · exact hbound i him
    · intro i him
      obtain him | him := List.mem_append.mp him
      · exact ⟨p, b, h, i₁, i₂, List.mem_cons_self, hp, him⟩
      · obtain ⟨q, b', h', j₁, j₂, hh', hq⟩ := hmem i him
        exact ⟨q, b', h', j₁, j₂, List.mem_cons_of_mem h hh', hq⟩

/-- At most two requests are in flight. -/
theorem Inv.length_le (hi : Inv s) {pending done : List ℕ} (hf : Flight s pending done) :
    (pending ++ s.taken ++ s.finished ++ done).length ≤ 2 := by
  obtain ⟨m, hm, hlen, hbound, _⟩ := hi.chains _ hf.nodup fun h hh => (hf.mem h).mp hh
  have hsub : m ⊆ List.range queueSize := fun i him => List.mem_range.mpr (hbound i him)
  have hle := (List.subperm_of_subset hm hsub).length_le
  rw [List.length_range, hlen] at hle
  unfold queueSize at hle
  omega

theorem Inv.pending_lt (hi : Inv s) {pending done : List ℕ} (hf : Flight s pending done) :
    pending.length < queueSize ∧ done.length < queueSize := by
  have h := hi.length_le hf
  simp only [List.length_append] at h
  unfold queueSize
  omega

theorem Inv.free_of_mem (hi : Inv s) {p : π} {i : ℕ} (h : i ∈ (s.phase p).chain) :
    i < queueSize ∧ s.disk.free i = false := by
  refine ⟨hi.bound p i h, ?_⟩
  by_contra hf
  exact (hi.free i (hi.bound p i h)).mp (by simpa using hf) p h

/-- The buffer of a request in flight is that of no other process. -/
theorem Inv.buffer_unique (hi : Inv s) {p q : π} {b : β} (hp : (s.phase p).buffer = some b)
    (hq : (s.phase q).buffer = some b) : p = q := by
  have h := hi.holder p b hp
  rw [hi.holder q b hq] at h
  exact (Option.some.inj h).symm

end

/-! ## One event -/

section
variable {s : State π β}

/-- The device keeps every chain and every holder. -/
theorem Inv.of_device (hi : Inv s) {s' : State π β} (hp : s'.panicked = s.panicked)
    (hphase : s'.phase = s.phase) (hfree : s'.disk.free = s.disk.free)
    (hdesc : s'.disk.descriptor = s.disk.descriptor)
    (hinfo : ∀ i, (s'.disk.info i).buffer = (s.disk.info i).buffer)
    (hholder : s'.holder = s.holder) (hcleared : s'.cleared = s.cleared)
    (howned : s'.diskOwned = s.diskOwned) (hf : ∃ pending done, Flight s' pending done) :
    Inv s' where
  panicked := hp.trans hi.panicked
  bound p := by rw [hphase]; exact hi.bound p
  nodup p := by rw [hphase]; exact hi.nodup p
  disjoint p q i := by rw [hphase]; exact hi.disjoint p q i
  free i h := by rw [hphase, hfree]; exact hi.free i h
  chain p b i₀ i₁ i₂ h := by
    rw [hphase] at h
    exact (hi.chain p b i₀ i₁ i₂ h).congr (fun i _ => by rw [hdesc]) (hinfo i₀)
  holder p b h := by rw [hphase] at h; rw [hholder]; exact hi.holder p b h
  cleared p b i₀ i₁ i₂ h := by
    rw [hphase] at h
    rw [hcleared, howned]
    exact hi.cleared p b i₀ i₁ i₂ h
  flight := hf

theorem Flight.perm (s' : State π β) {pending done pending' done' : List ℕ}
    (hf : Flight s pending done) (hphase : s'.phase = s.phase)
    (howned : s'.diskOwned = s.diskOwned)
    (hperm : (pending' ++ s'.taken ++ s'.finished ++ done').Perm
      (pending ++ s.taken ++ s.finished ++ done)) :
    (pending' ++ s'.taken ++ s'.finished ++ done').Nodup ∧
      ∀ h, h ∈ pending' ++ s'.taken ++ s'.finished ++ done' ↔
        Outstanding s'.phase s'.diskOwned h := by
  refine ⟨hperm.nodup_iff.mpr hf.nodup, fun h => ?_⟩
  rw [hphase, howned]
  exact hperm.mem_iff.trans (hf.mem h)

theorem Inv.deviceTake (hi : Inv s) (hne : s.seen ≠ s.disk.availableIdx) :
    Inv { s with
      seen := (s.seen + 1) % indexSize
      taken := s.taken ++ [s.disk.available (s.seen % queueSize)] } := by
  refine hi.of_device rfl rfl rfl rfl (fun _ => rfl) rfl rfl rfl ?_
  obtain ⟨pending, done, hf⟩ := hi.flight
  cases pending with
  | nil => exact absurd ((hf.available.eq_iff (by simp)).mpr rfl) hne
  | cons head pending =>
    have hhead : s.disk.available (s.seen % queueSize) = head := hf.available.head
    rw [hhead]
    have hperm : (pending ++ (s.taken ++ [head]) ++ s.finished ++ done).Perm
        (head :: pending ++ s.taken ++ s.finished ++ done) := by
      simp [List.perm_iff_count, List.count_append, List.count_cons]
      intro a
      omega
    obtain ⟨hn, hm⟩ := hf.perm ({ s with
      seen := (s.seen + 1) % indexSize
      taken := s.taken ++ [head] }) rfl rfl hperm
    exact ⟨pending, done, hf.available.pop (by decide), hf.used, hn, hm, hf.status⟩

theorem Inv.deviceFinish (hi : Inv s) {head : ℕ} (hmem : head ∈ s.taken) :
    Inv { s with
      disk := storeStatus s.disk head
      taken := s.taken.erase head
      finished := s.finished ++ [head] } := by
  obtain ⟨pending, done, hf⟩ := hi.flight
  obtain ⟨p, b, i₁, i₂, hp, _⟩ := (hf.mem head).mp (by simp [hmem])
  have hc := hi.chain p b head i₁ i₂ hp
  obtain ⟨w, hsecond⟩ := hc.second
  have hstore : storeStatus s.disk head = { s.disk with
      info := Function.update s.disk.info head { s.disk.info head with status := .ok } } := by
    simp [storeStatus, hc.first, hsecond, hc.third]
  rw [hstore]
  have hinfo : ∀ i, (Function.update s.disk.info head
      { s.disk.info head with status := .ok } i).buffer = (s.disk.info i).buffer := by
    intro i
    by_cases hih : i = head
    · simp [hih]
    · simp [Function.update_of_ne hih]
  refine hi.of_device rfl rfl rfl rfl hinfo rfl rfl rfl ?_
  have hperm : (pending ++ s.taken.erase head ++ (s.finished ++ [head]) ++ done).Perm
      (pending ++ s.taken ++ s.finished ++ done) := by
    have hcount := fun a => (List.perm_cons_erase hmem).count_eq a
    simp only [List.perm_iff_count, List.count_append, List.count_cons, List.count_nil] at hcount ⊢
    intro a
    have := hcount a
    omega
  obtain ⟨hn, hm⟩ := hf.perm ({ s with
      taken := s.taken.erase head, finished := s.finished ++ [head] }) rfl rfl hperm
  refine ⟨pending, done, hf.available, hf.used, hn, hm, fun h hh => ?_⟩
  by_cases hhead : h = head
  · simp [hhead]
  · simp only [Function.update_of_ne hhead]
    refine hf.status h ?_
    simpa [hhead] using hh

theorem Inv.devicePublish (hi : Inv s) {head : ℕ} (hmem : head ∈ s.finished) :
    Inv { s with
      disk := { s.disk with
        used := Function.update s.disk.used (s.disk.usedRingIdx % queueSize) head
        usedRingIdx := (s.disk.usedRingIdx + 1) % indexSize }
      finished := s.finished.erase head } := by
  refine hi.of_device rfl rfl rfl rfl (fun _ => rfl) rfl rfl rfl ?_
  obtain ⟨pending, done, hf⟩ := hi.flight
  have hperm : (pending ++ s.taken ++ s.finished.erase head ++ (done ++ [head])).Perm
      (pending ++ s.taken ++ s.finished ++ done) := by
    have hcount := fun a => (List.perm_cons_erase hmem).count_eq a
    simp only [List.perm_iff_count, List.count_append, List.count_cons, List.count_nil] at hcount ⊢
    intro a
    have := hcount a
    omega
  obtain ⟨hn, hm⟩ := hf.perm ({ s with finished := s.finished.erase head }) rfl rfl hperm
  refine ⟨pending, done ++ [head], hf.available,
    hf.used.push (by decide) (hi.pending_lt hf).2 head, hn, hm, fun h hh => hf.status h ?_⟩
  simp only [List.mem_append, List.mem_singleton] at hh ⊢
  obtain hh | hh | rfl := hh
  · exact .inl (List.mem_of_mem_erase hh)
  · exact .inr hh
  · exact .inl hmem

theorem Inv.resume (hi : Inv s) {p : π} {b : β} {i₀ i₁ i₂ : ℕ}
    (hp : s.phase p = .submitted b i₀ i₁ i₂) :
    ∃ f, freeDescriptorChain (queueSize + 1) { s.disk with
        info := Function.update s.disk.info i₀ { s.disk.info i₀ with buffer := none } } i₀ =
      .ok { s.disk with
        info := Function.update s.disk.info i₀ { s.disk.info i₀ with buffer := none }
        descriptor := f
        free := fun i => if i ∈ [i₀, i₁, i₂] then true else s.disk.free i } ∧
      ∀ i, i ∉ [i₀, i₁, i₂] → f i = s.disk.descriptor i := by
  have hc := hi.chain p b i₀ i₁ i₂ hp
  have hpc : (s.phase p).chain = [i₀, i₁, i₂] := by rw [hp]; rfl
  have hn := hi.nodup p
  rw [hpc] at hn
  exact freeDescriptorChain_eq (d := { s.disk with
      info := Function.update s.disk.info i₀ { s.disk.info i₀ with buffer := none } }) hn
    (fun i hm => hi.free_of_mem (p := p) (by rw [hpc]; exact hm)) hc.first hc.second hc.third 6

end

section
variable [DecidableEq π] {s : State π β}

theorem outstanding_setPhase {p : π} {f : Phase β} (hf : f.chain = [])
    (hp : (s.phase p).chain = []) (h : ℕ) :
    Outstanding (Function.update s.phase p f) s.diskOwned h ↔
      Outstanding s.phase s.diskOwned h := by
  have hne : ∀ g : Phase β, g.chain = [] → ∀ b i₀ i₁ i₂, g ≠ .submitted b i₀ i₁ i₂ := by
    intro g hg b i₀ i₁ i₂ he
    rw [he] at hg
    cases hg
  constructor
  · intro ⟨q, b, i₁, i₂, hq, hb⟩
    by_cases hqp : q = p
    · rw [hqp, Function.update_self] at hq
      exact absurd hq (hne f hf _ _ _ _)
    · rw [Function.update_of_ne hqp] at hq
      exact ⟨q, b, i₁, i₂, hq, hb⟩
  · intro ⟨q, b, i₁, i₂, hq, hb⟩
    have hqp : q ≠ p := fun h => hne _ hp _ _ _ _ (by rw [← h]; exact hq)
    exact ⟨q, b, i₁, i₂, by rw [Function.update_of_ne hqp]; exact hq, hb⟩

/-- The process is put to sleep for free descriptors, which may have been cleared. -/
theorem Inv.wait (hi : Inv s) {p : π} {b : β} {number : ℕ} {doWrite : Bool}
    {f : ℕ → Descriptor β} (hp : (s.phase p).chain = []) (hb : s.holder b = some p)
    (hf : ∀ i, s.disk.free i = false → f i = s.disk.descriptor i) :
    Inv ({ s with disk := { s.disk with descriptor := f } }.setPhase p
      (.waiting b number doWrite)) := by
  have hchain : ∀ q, (Function.update s.phase p (.waiting b number doWrite) q).chain =
      (s.phase q).chain := by
    intro q
    by_cases hqp : q = p
    · rw [hqp, Function.update_self, hp]
      rfl
    · rw [Function.update_of_ne hqp]
  have hphase : ∀ q b' i₀ i₁ i₂, Function.update s.phase p (.waiting b number doWrite) q =
      .submitted b' i₀ i₁ i₂ → s.phase q = .submitted b' i₀ i₁ i₂ := by
    intro q b' i₀ i₁ i₂ hq
    by_cases hqp : q = p
    · simp [hqp] at hq
    · rwa [Function.update_of_ne hqp] at hq
  constructor
  · exact hi.panicked
  · intro q i hq
    simp only [State.setPhase, hchain] at hq
    exact hi.bound q i hq
  · intro q
    simp only [State.setPhase, hchain]
    exact hi.nodup q
  · intro q r i hq hr
    simp only [State.setPhase, hchain] at hq hr
    exact hi.disjoint q r i hq hr
  · intro i h
    simp only [State.setPhase, hchain]
    exact hi.free i h
  · intro q b' i₀ i₁ i₂ hq
    have hq := hphase q b' i₀ i₁ i₂ hq
    refine (hi.chain q b' i₀ i₁ i₂ hq).congr (fun i hm => ?_) rfl
    have hm : i ∈ (s.phase q).chain := by rw [hq]; exact hm
    exact hf i (hi.free_of_mem hm).2
  · intro q b' hq
    by_cases hqp : q = p
    · subst hqp
      simp only [State.setPhase, Function.update_self, Phase.buffer, Option.some.injEq] at hq
      rw [← hq]
      exact hb
    · simp only [State.setPhase, Function.update_of_ne hqp] at hq
      exact hi.holder q b' hq
  · intro q b' i₀ i₁ i₂ hq
    exact hi.cleared q b' i₀ i₁ i₂ (hphase q b' i₀ i₁ i₂ hq)
  · obtain ⟨pending, done, hfl⟩ := hi.flight
    refine ⟨pending, done, hfl.available, hfl.used, hfl.nodup, fun h => ?_, hfl.status⟩
    exact (hfl.mem h).trans (outstanding_setPhase (f := .waiting b number doWrite) rfl hp h).symm

/-- The request is complete, and its chain is freed. -/
theorem Inv.finish (hi : Inv s) {p : π} {b : β} {i₀ i₁ i₂ : ℕ} {f : ℕ → Descriptor β}
    (hp : s.phase p = .submitted b i₀ i₁ i₂) (hd : s.diskOwned b = false)
    (hf : ∀ i, i ∉ [i₀, i₁, i₂] → f i = s.disk.descriptor i) :
    Inv ({ s with disk := { s.disk with
      info := Function.update s.disk.info i₀ { s.disk.info i₀ with buffer := none }
      descriptor := f
      free := fun i => if i ∈ [i₀, i₁, i₂] then true else s.disk.free i } }.setPhase p .idle) := by
  have hself : Function.update s.phase p .idle p = .idle := Function.update_self _ _ _
  have hother : ∀ q, q ≠ p → Function.update s.phase p .idle q = s.phase q :=
    fun q hq => Function.update_of_ne hq _ _
  have hsub : ∀ q b' j₀ j₁ j₂, Function.update s.phase p .idle q = .submitted b' j₀ j₁ j₂ →
      q ≠ p ∧ s.phase q = .submitted b' j₀ j₁ j₂ := by
    intro q b' j₀ j₁ j₂ hq
    by_cases hqp : q = p
    · simp [hqp] at hq
    · exact ⟨hqp, by rwa [hother q hqp] at hq⟩
  have hchain : ∀ q i, i ∈ (Function.update s.phase p .idle q).chain ↔
      q ≠ p ∧ i ∈ (s.phase q).chain := by
    intro q i
    by_cases hqp : q = p
    · simp [hqp, Phase.chain]
    · simp [hqp]
  have hpc : (s.phase p).chain = [i₀, i₁, i₂] := by rw [hp]; rfl
  have hne : ∀ q, q ≠ p → ∀ i ∈ (s.phase q).chain, i ∉ [i₀, i₁, i₂] := by
    intro q hqp i hq hm
    exact hqp (hi.disjoint q p i hq (by rw [hpc]; exact hm))
  constructor
  · exact hi.panicked
  · intro q i hq
    exact hi.bound q i ((hchain q i).mp hq).2
  · intro q
    by_cases hqp : q = p
    · simp [State.setPhase, hqp, Phase.chain]
    · simpa only [State.setPhase, hother q hqp] using hi.nodup q
  · intro q r i hq hr
    exact hi.disjoint q r i ((hchain q i).mp hq).2 ((hchain r i).mp hr).2
  · intro i h
    simp only [State.setPhase, hchain]
    by_cases hm : i ∈ [i₀, i₁, i₂]
    · simp only [hm, if_true, true_iff, not_and]
      intro q hqp hq
      exact hne q hqp i hq hm
    · simp only [hm, if_false, hi.free i h]
      constructor
      · intro hq q hq'
        exact hq q hq'.2
      · intro hq q hq'
        by_cases hqp : q = p
        · rw [hqp, hpc] at hq'
          exact hm hq'
        · exact hq q ⟨hqp, hq'⟩
  · intro q b' j₀ j₁ j₂ hq
    obtain ⟨hqp, hq⟩ := hsub q b' j₀ j₁ j₂ hq
    have hqc : (s.phase q).chain = [j₀, j₁, j₂] := by rw [hq]; rfl
    refine (hi.chain q b' j₀ j₁ j₂ hq).congr (fun i hm => hf i ?_) ?_
    · exact hne q hqp i (by rw [hqc]; exact hm)
    · have h₀ : j₀ ≠ i₀ := fun h => hne q hqp j₀ (by simp [hqc]) (by simp [h])
      simp [State.setPhase, Function.update_of_ne h₀]
  · intro q b' hq
    by_cases hqp : q = p
    · simp [State.setPhase, hqp, Phase.buffer] at hq
    · simp only [State.setPhase, hother q hqp] at hq
      exact hi.holder q b' hq
  · intro q b' j₀ j₁ j₂ hq
    exact hi.cleared q b' j₀ j₁ j₂ (hsub q b' j₀ j₁ j₂ hq).2
  · obtain ⟨pending, done, hfl⟩ := hi.flight
    refine ⟨pending, done, hfl.available, hfl.used, hfl.nodup, fun h => ?_, fun h hh => ?_⟩
    · refine (hfl.mem h).trans ⟨?_, ?_⟩
      · intro ⟨q, b', j₁, j₂, hq, hd'⟩
        have hqp : q ≠ p := by
          intro he
          rw [he, hp] at hq
          cases hq
          rw [hd] at hd'
          cases hd'
        exact ⟨q, b', j₁, j₂, (hother q hqp).trans hq, hd'⟩
      · intro ⟨q, b', j₁, j₂, hq, hd'⟩
        exact ⟨q, b', j₁, j₂, (hsub q b' h j₁ j₂ hq).2, hd'⟩
    · have hs := hfl.status h hh
      by_cases h₀ : h = i₀
      · subst h₀
        simpa [State.setPhase] using hs
      · simpa [State.setPhase, Function.update_of_ne h₀] using hs

variable [DecidableEq β]

/-- The request is formatted in three free descriptors and put into the available ring. -/
theorem Inv.submit (hi : Inv s) {p : π} {b : β} {number : ℕ} {doWrite : Bool} {i₀ i₁ i₂ : ℕ}
    (hp : (s.phase p).chain = []) (hb : s.holder b = some p) (hn : [i₀, i₁, i₂].Nodup)
    (hfree : ∀ i ∈ [i₀, i₁, i₂], i < queueSize ∧ s.disk.free i = true) :
    Inv ({ s with
      disk := format { s.disk with
        free := fun i => if i ∈ [i₀, i₁, i₂] then false else s.disk.free i }
          b number doWrite i₀ i₁ i₂
      diskOwned := Function.update s.diskOwned b true
      cleared := Function.update s.cleared p 0 }.setPhase p (.submitted b i₀ i₁ i₂)) := by
  have hself : Function.update s.phase p (.submitted b i₀ i₁ i₂) p = .submitted b i₀ i₁ i₂ :=
    Function.update_self _ _ _
  have hother : ∀ q, q ≠ p →
      Function.update s.phase p (.submitted b i₀ i₁ i₂) q = s.phase q :=
    fun q hq => Function.update_of_ne hq _ _
  -- the new chain meets no other one
  have hnew : ∀ q, ∀ i ∈ [i₀, i₁, i₂], i ∉ (s.phase q).chain := by
    intro q i hm
    exact (hi.free i (hfree i hm).1).mp (hfree i hm).2 q
  have hhead : ∀ q b' h j₁ j₂, s.phase q = .submitted b' h j₁ j₂ → h ≠ i₀ := by
    intro q b' h j₁ j₂ hq he
    exact hnew q i₀ (by simp) (by simp [hq, Phase.chain, he])
  have hbuffer : ∀ q b', q ≠ p → (s.phase q).buffer = some b' → b' ≠ b := by
    intro q b' hqp hq he
    have h := hi.holder q b' hq
    rw [he, hb] at h
    exact hqp (Option.some.inj h).symm
  constructor
  · exact hi.panicked
  · intro q i hq
    by_cases hqp : q = p
    · subst hqp
      simp only [State.setPhase, hself] at hq
      exact (hfree i hq).1
    · simp only [State.setPhase, hother q hqp] at hq
      exact hi.bound q i hq
  · intro q
    by_cases hqp : q = p
    · subst hqp
      simp only [State.setPhase, hself]
      exact hn
    · simpa only [State.setPhase, hother q hqp] using hi.nodup q
  · intro q r i hq hr
    simp only [State.setPhase] at hq hr
    by_cases hqp : q = p
    · by_cases hrp : r = p
      · rw [hqp, hrp]
      · rw [hqp, hself] at hq
        rw [hother r hrp] at hr
        exact absurd hr (hnew r i hq)
    · rw [hother q hqp] at hq
      by_cases hrp : r = p
      · rw [hrp, hself] at hr
        exact absurd hq (hnew q i hr)
      · rw [hother r hrp] at hr
        exact hi.disjoint q r i hq hr
  · intro i h
    simp only [State.setPhase, format]
    by_cases hm : i ∈ [i₀, i₁, i₂]
    · simp only [hm, if_true, Bool.false_eq_true, false_iff, not_forall, not_not]
      exact ⟨p, by rw [hself]; exact hm⟩
    · simp only [hm, if_false, hi.free i h]
      constructor
      · intro hq q
        by_cases hqp : q = p
        · rw [hqp, hself]; exact hm
        · rw [hother q hqp]; exact hq q
      · intro hq q
        by_cases hqp : q = p
        · rw [hqp, hp]; simp
        · rw [← hother q hqp]; exact hq q
  · intro q b' j₀ j₁ j₂ hq
    by_cases hqp : q = p
    · subst hqp
      simp only [State.setPhase, hself, Phase.submitted.injEq] at hq
      obtain ⟨rfl, rfl, rfl, rfl⟩ := hq
      exact format_chain _ _ _ _ hn
    · simp only [State.setPhase, hother q hqp] at hq
      refine (hi.chain q b' j₀ j₁ j₂ hq).congr (fun i hm => ?_) ?_
      · have hm : i ∈ (s.phase q).chain := by rw [hq]; exact hm
        have h₀ : i ≠ i₀ := fun h => hnew q i₀ (by simp) (h ▸ hm)
        have h₁ : i ≠ i₁ := fun h => hnew q i₁ (by simp) (h ▸ hm)
        have h₂ : i ≠ i₂ := fun h => hnew q i₂ (by simp) (h ▸ hm)
        simp [State.setPhase, format, Function.update_of_ne h₀, Function.update_of_ne h₁,
          Function.update_of_ne h₂]
      · simp [State.setPhase, format, Function.update_of_ne (hhead q b' j₀ j₁ j₂ hq)]
  · intro q b' hq
    by_cases hqp : q = p
    · subst hqp
      simp only [State.setPhase, hself, Phase.buffer, Option.some.injEq] at hq
      rw [← hq]
      exact hb
    · simp only [State.setPhase, hother q hqp] at hq
      exact hi.holder q b' hq
  · intro q b' j₀ j₁ j₂ hq
    by_cases hqp : q = p
    · subst hqp
      simp only [State.setPhase, hself, Phase.submitted.injEq] at hq
      simp [State.setPhase, ← hq.1]
    · simp only [State.setPhase, hother q hqp] at hq
      have hb' := hbuffer q b' hqp (by rw [hq]; rfl)
      simpa [State.setPhase, Function.update_of_ne hqp, Function.update_of_ne hb'] using
        hi.cleared q b' j₀ j₁ j₂ hq
  · obtain ⟨pending, done, hf⟩ := hi.flight
    have hlen := hi.pending_lt hf
    have hi₀ : i₀ ∉ pending ++ s.taken ++ s.finished ++ done := by
      intro hm
      obtain ⟨q, b', j₁, j₂, hq, _⟩ := (hf.mem i₀).mp hm
      exact hhead q b' i₀ j₁ j₂ hq rfl
    have hperm : (pending ++ [i₀] ++ s.taken ++ s.finished ++ done).Perm
        (i₀ :: (pending ++ s.taken ++ s.finished ++ done)) := by
      simp [List.perm_iff_count, List.count_append, List.count_cons]
      intro a
      omega
    refine ⟨pending ++ [i₀], done, hf.available.push (by decide) hlen.1 i₀, hf.used, ?_,
      fun h => ?_, fun h hh => ?_⟩
    · exact hperm.nodup_iff.mpr (List.nodup_cons.mpr ⟨hi₀, hf.nodup⟩)
    · refine (hperm.mem_iff.trans List.mem_cons).trans ?_
      constructor
      · intro hh
        obtain rfl | hh := hh
        · exact ⟨p, b, i₁, i₂, hself, by simp [State.setPhase]⟩
        · obtain ⟨q, b', j₁, j₂, hq, hd⟩ := (hf.mem h).mp hh
          have hqp : q ≠ p := fun he => by
            rw [he] at hq
            rw [hq] at hp
            cases hp
          have hb' := hbuffer q b' hqp (by rw [hq]; rfl)
          exact ⟨q, b', j₁, j₂, (hother q hqp).trans hq, by
            simpa [State.setPhase, Function.update_of_ne hb'] using hd⟩
      · intro ⟨q, b', j₁, j₂, hq, hd⟩
        by_cases hqp : q = p
        · subst hqp
          simp only [State.setPhase, hself, Phase.submitted.injEq] at hq
          exact .inl hq.2.1.symm
        · simp only [State.setPhase, hother q hqp] at hq
          have hb' := hbuffer q b' hqp (by rw [hq]; rfl)
          refine .inr ((hf.mem h).mpr ⟨q, b', j₁, j₂, hq, ?_⟩)
          simpa [State.setPhase, Function.update_of_ne hb'] using hd
    · have hne : h ≠ i₀ := fun he => hi₀ (by
        rw [← he]
        simp only [List.mem_append] at hh ⊢
        obtain hh | hh := hh
        · exact .inl (.inr hh)
        · exact .inr hh)
      simpa [State.setPhase, format, Function.update_of_ne hne] using hf.status h hh

/-- The loop that allocates the descriptors puts the process to sleep or submits. -/
theorem Inv.attempt (hi : Inv s) {p : π} {b : β} {number : ℕ} {doWrite : Bool} {s' : State π β}
    (hp : (s.phase p).chain = []) (hb : s.holder b = some p)
    (h : attempt s p b number doWrite = some s') : Inv s' := by
  unfold DiskDriver.attempt at h
  obtain ⟨f, hf, hdesc⟩ | ⟨l, hl, hlen, hn, hfree⟩ :=
    allocDescriptorsSlice_spec 3 s.disk [] List.nodup_nil (by simp)
  · rw [hf] at h
    simp only [List.not_mem_nil, if_false, Option.some.injEq] at h
    subst h
    exact hi.wait hp hb fun i hfi => hdesc i (by simp) hfi
  · obtain ⟨i₀, i₁, i₂, rfl⟩ := List.length_eq_three.mp hlen
    rw [hl] at h
    simp only [List.nil_append, Option.some.injEq] at h hn
    subst h
    exact hi.submit hp hb hn hfree

/-- What a turn of `interrupt` finds in the used ring: a request in flight. -/
theorem Inv.completion (hi : Inv s) (hne : s.disk.usedIdx ≠ s.disk.usedRingIdx) :
    ∃ p b i₁ i₂, s.phase p = .submitted b (s.disk.used (s.disk.usedIdx % queueSize)) i₁ i₂ ∧
      s.diskOwned b = true ∧ s.holder b = some p ∧
      interruptTurn s = { s with
        diskOwned := Function.update s.diskOwned b false
        disk := { s.disk with usedIdx := (s.disk.usedIdx + 1) % indexSize }
        cleared := Function.update s.cleared p (s.cleared p + 1) } := by
  obtain ⟨pending, done, hf⟩ := hi.flight
  cases done with
  | nil =>
    exact absurd ((hf.used.eq_iff (by simp)).mpr rfl) hne
  | cons head done =>
    have hhead : s.disk.used (s.disk.usedIdx % queueSize) = head := hf.used.head
    obtain ⟨p, b, i₁, i₂, hp, hd⟩ := (hf.mem head).mp (by simp)
    have hb := hi.holder p b (by rw [hp]; rfl)
    have hlt : head < queueSize := hi.bound p head (by rw [hp]; simp [Phase.chain])
    have hs := hf.status head (by simp)
    have hbuf := (hi.chain p b head i₁ i₂ hp).buffer
    refine ⟨p, b, i₁, i₂, by rw [hhead]; exact hp, hd, hb, ?_⟩
    simp [interruptTurn, hhead, Nat.not_le.mpr hlt, hs, hbuf, hb]

theorem Inv.interruptTurn (hi : Inv s) (hne : s.disk.usedIdx ≠ s.disk.usedRingIdx) :
    Inv (DiskDriver.interruptTurn s) := by
  obtain ⟨p, b, i₁, i₂, hp, hd, hb, heq⟩ := hi.completion hne
  rw [heq]
  have hbuffer : ∀ q b', q ≠ p → (s.phase q).buffer = some b' → b' ≠ b := by
    intro q b' hqp hq he
    exact hqp (hi.buffer_unique (hq.trans (by rw [he])) (by rw [hp]; rfl))
  refine ⟨hi.panicked, hi.bound, hi.nodup, hi.disjoint, hi.free, ?_, hi.holder, ?_, ?_⟩
  · intro q b' j₀ j₁ j₂ hq
    exact (hi.chain q b' j₀ j₁ j₂ hq).congr (fun _ _ => rfl) rfl
  · intro q b' j₀ j₁ j₂ hq
    by_cases hqp : q = p
    · subst hqp
      rw [hp] at hq
      cases hq
      have hc := hi.cleared q b _ i₁ i₂ hp
      simp [hc, hd]
    · have hb' := hbuffer q b' hqp (by rw [hq]; rfl)
      simpa [Function.update_of_ne hqp, Function.update_of_ne hb'] using
        hi.cleared q b' j₀ j₁ j₂ hq
  · obtain ⟨pending, done, hf⟩ := hi.flight
    cases done with
    | nil => exact absurd ((hf.used.eq_iff (by simp)).mpr rfl) hne
    | cons head done =>
      have hhead : s.disk.used (s.disk.usedIdx % queueSize) = head := hf.used.head
      rw [hhead] at hp
      have hperm : (pending ++ s.taken ++ s.finished ++ head :: done).Perm
          (head :: (pending ++ s.taken ++ s.finished ++ done)) := List.perm_middle
      obtain ⟨hnot, hn⟩ := List.nodup_cons.mp (hperm.nodup_iff.mp hf.nodup)
      refine ⟨pending, done, hf.available, hf.used.pop (by decide), hn, fun h => ?_,
        fun h hh => hf.status h ?_⟩
      · have hm := (hperm.mem_iff (a := h)).symm.trans (hf.mem h)
        rw [List.mem_cons] at hm
        constructor
        · intro hh
          obtain ⟨q, b', j₁, j₂, hq, hd'⟩ := hm.mp (.inr hh)
          have hqp : q ≠ p := by
            intro he
            rw [he, hp] at hq
            cases hq
            exact hnot hh
          have hb' := hbuffer q b' hqp (by rw [hq]; rfl)
          exact ⟨q, b', j₁, j₂, hq, by simpa [Function.update_of_ne hb'] using hd'⟩
        · intro ⟨q, b', j₁, j₂, hq, hd'⟩
          dsimp only at hq hd'
          have hb' : b' ≠ b := fun he => by simp [he] at hd'
          rw [Function.update_of_ne hb'] at hd'
          obtain rfl | hh := hm.mpr ⟨q, b', j₁, j₂, hq, hd'⟩
          · have hqp := hi.disjoint q p h (by rw [hq]; simp [Phase.chain])
              (by rw [hp]; simp [Phase.chain])
            rw [hqp, hp] at hq
            cases hq
            exact absurd rfl hb'
          · exact hh
      · simp only [List.mem_append, List.mem_cons] at hh ⊢
        obtain hh | hh := hh
        · exact .inl hh
        · exact .inr (.inr hh)

end

/-! ## Runs -/

section
variable [DecidableEq π] [DecidableEq β] {s s' : State π β}

theorem Inv.step (hi : Inv s) {e : Event π β} (h : DiskDriver.step s e = some s') : Inv s' := by
  unfold DiskDriver.step at h
  rw [if_neg (by simp [hi.panicked])] at h
  cases e with
  | lockBuffer p b =>
    simp only [Option.ite_none_right_eq_some, Option.some.injEq] at h
    obtain ⟨hb, rfl⟩ := h
    refine ⟨hi.panicked, hi.bound, hi.nodup, hi.disjoint, hi.free, hi.chain, fun q b' hq => ?_,
      hi.cleared, ?_⟩
    · have hq' := hi.holder q b' hq
      have hne : b' ≠ b := fun he => by rw [he, hb] at hq'; cases hq'
      simpa [Function.update_of_ne hne] using hq'
    · obtain ⟨pending, done, hf⟩ := hi.flight
      exact ⟨pending, done, hf.available, hf.used, hf.nodup, hf.mem, hf.status⟩
  | unlockBuffer p b =>
    simp only [Option.ite_none_right_eq_some, Option.some.injEq] at h
    obtain ⟨⟨hb, hp⟩, rfl⟩ := h
    refine ⟨hi.panicked, hi.bound, hi.nodup, hi.disjoint, hi.free, hi.chain, fun q b' hq => ?_,
      hi.cleared, ?_⟩
    · have hq' := hi.holder q b' hq
      have hne : b' ≠ b := by
        intro he
        rw [he, hb] at hq'
        rw [← Option.some.inj hq', hp] at hq
        cases hq
      simpa [Function.update_of_ne hne] using hq'
    · obtain ⟨pending, done, hf⟩ := hi.flight
      exact ⟨pending, done, hf.available, hf.used, hf.nodup, hf.mem, hf.status⟩
  | request p b number doWrite =>
    simp only [Option.ite_none_right_eq_some] at h
    obtain ⟨⟨_, hp, hb⟩, h⟩ := h
    exact hi.attempt (by rw [hp]; rfl) hb h
  | retry p =>
    cases hp : s.phase p with
    | idle => simp [hp] at h
    | submitted b i₀ i₁ i₂ => simp [hp] at h
    | waiting b number doWrite =>
      simp only [hp, Option.ite_none_right_eq_some] at h
      exact hi.attempt (by rw [hp]; rfl) (hi.holder p b (by rw [hp]; rfl)) h.2
  | resume p =>
    cases hp : s.phase p with
    | idle => simp [hp] at h
    | waiting b number doWrite => simp [hp] at h
    | submitted b i₀ i₁ i₂ =>
      simp only [hp, Option.ite_none_right_eq_some] at h
      obtain ⟨⟨_, hd⟩, h⟩ := h
      obtain ⟨f, hf, hdesc⟩ := hi.resume hp
      rw [hf] at h
      obtain rfl := Option.some.inj h
      exact hi.finish hp hd hdesc
  | interrupt =>
    simp only [Option.ite_none_right_eq_some, Option.some.injEq] at h
    obtain ⟨_, rfl⟩ := h
    refine ⟨hi.panicked, hi.bound, hi.nodup, hi.disjoint, hi.free, hi.chain, hi.holder,
      hi.cleared, ?_⟩
    obtain ⟨pending, done, hf⟩ := hi.flight
    exact ⟨pending, done, hf.available, hf.used, hf.nodup, hf.mem, hf.status⟩
  | interruptTurn =>
    simp only [Option.ite_none_right_eq_some] at h
    obtain ⟨_, h⟩ := h
    split_ifs at h with hne
    · obtain rfl := Option.some.inj h
      exact hi.interruptTurn hne
    · obtain rfl := Option.some.inj h
      refine ⟨hi.panicked, hi.bound, hi.nodup, hi.disjoint, hi.free, hi.chain, hi.holder,
        hi.cleared, ?_⟩
      obtain ⟨pending, done, hf⟩ := hi.flight
      exact ⟨pending, done, hf.available, hf.used, hf.nodup, hf.mem, hf.status⟩
  | deviceTake =>
    simp only [Option.ite_none_right_eq_some, Option.some.injEq] at h
    obtain ⟨hne, rfl⟩ := h
    exact hi.deviceTake hne
  | deviceFinish head =>
    simp only [Option.ite_none_right_eq_some, Option.some.injEq] at h
    obtain ⟨hm, rfl⟩ := h
    exact hi.deviceFinish hm
  | devicePublish head =>
    simp only [Option.ite_none_right_eq_some, Option.some.injEq] at h
    obtain ⟨hm, rfl⟩ := h
    exact hi.devicePublish hm

theorem Inv.run {s₀ : State π β} {events : List (Event π β)} (h₀ : Initial s₀)
    (h : Transition.run DiskDriver.step s₀ events = some s) : Inv s := by
  refine Transition.run_induction (P := fun _ s => Inv s) (.initial h₀) ?_ events s h
  intro _ _ _ _ _ hi he
  exact hi.step he

theorem attempt_frame {p : π} {b : β} {number : ℕ} {doWrite : Bool}
    (h : attempt s p b number doWrite = some s') :
    (∀ q, q ≠ p → s'.phase q = s.phase q) ∧ ∀ b', s.diskOwned b' = true → s'.diskOwned b' = true := by
  unfold attempt at h
  split at h
  · obtain rfl := Option.some.inj h
    exact ⟨fun _ _ => rfl, fun _ => id⟩
  · obtain rfl := Option.some.inj h
    exact ⟨fun q hq => Function.update_of_ne hq _ _, fun _ => id⟩
  · obtain rfl := Option.some.inj h
    refine ⟨fun q hq => Function.update_of_ne hq _ _, fun b' hb' => ?_⟩
    by_cases hbb : b' = b
    · simp [State.setPhase, hbb]
    · simpa [State.setPhase, Function.update_of_ne hbb] using hb'
  · cases h

/-- A request stays as it is until its process finds that the disk has given up the buffer. -/
theorem Inv.phase_step (hi : Inv s) {e : Event π β} (h : DiskDriver.step s e = some s') {p : π}
    {b : β} {i₀ i₁ i₂ : ℕ} (hp : s.phase p = .submitted b i₀ i₁ i₂) :
    s'.phase p = s.phase p ∨ s'.phase p = .idle ∧ s.diskOwned b = false := by
  unfold DiskDriver.step at h
  rw [if_neg (by simp [hi.panicked])] at h
  cases e with
  | request q b' number doWrite =>
    simp only [Option.ite_none_right_eq_some] at h
    obtain ⟨⟨_, hq, _⟩, h⟩ := h
    have hpq : p ≠ q := fun he => by rw [he, hq] at hp; cases hp
    exact .inl ((attempt_frame h).1 p hpq)
  | retry q =>
    cases hq : s.phase q with
    | idle => simp [hq] at h
    | submitted b i₀ i₁ i₂ => simp [hq] at h
    | waiting b number doWrite =>
      simp only [hq, Option.ite_none_right_eq_some] at h
      have hpq : p ≠ q := fun he => by rw [he, hq] at hp; cases hp
      exact .inl ((attempt_frame h.2).1 p hpq)
  | resume q =>
    cases hq : s.phase q with
    | idle => simp [hq] at h
    | waiting b number doWrite => simp [hq] at h
    | submitted b' j₀ j₁ j₂ =>
      simp only [hq, Option.ite_none_right_eq_some] at h
      obtain ⟨⟨_, hd⟩, h⟩ := h
      obtain ⟨f, hf, _⟩ := hi.resume hq
      rw [hf] at h
      obtain rfl := Option.some.inj h
      by_cases hpq : p = q
      · subst hpq
        rw [hp] at hq
        cases hq
        exact .inr ⟨Function.update_self _ _ _, hd⟩
      · exact .inl (Function.update_of_ne hpq _ _)
  | interruptTurn =>
    simp only [Option.ite_none_right_eq_some] at h
    obtain ⟨_, h⟩ := h
    split_ifs at h with hne
    · obtain rfl := Option.some.inj h
      obtain ⟨_, _, _, _, _, _, _, heq⟩ := hi.completion hne
      exact .inl (by rw [heq])
    · obtain rfl := Option.some.inj h
      exact .inl rfl
  | _ =>
    simp only [Option.ite_none_right_eq_some, Option.some.injEq] at h
    obtain ⟨_, rfl⟩ := h
    exact .inl rfl

/-- The disk gives up a buffer only in `interrupt`, for the head that is next in the used ring. -/
theorem Inv.owned_step (hi : Inv s) {e : Event π β} (h : DiskDriver.step s e = some s') {b : β}
    (hb : s.diskOwned b = true) (hb' : s'.diskOwned b = false) :
    ∃ p i₁ i₂, s.phase p = .submitted b (s.disk.used (s.disk.usedIdx % queueSize)) i₁ i₂ ∧
      s.cleared p = 0 ∧ s'.cleared p = 1 := by
  unfold DiskDriver.step at h
  rw [if_neg (by simp [hi.panicked])] at h
  have hkeep : s'.diskOwned b = true → False := fun ht => by rw [ht] at hb'; cases hb'
  cases e with
  | request q b' number doWrite =>
    simp only [Option.ite_none_right_eq_some] at h
    exact (hkeep ((attempt_frame h.2).2 b hb)).elim
  | retry q =>
    cases hq : s.phase q with
    | idle => simp [hq] at h
    | submitted b' i₀ i₁ i₂ => simp [hq] at h
    | waiting b' number doWrite =>
      simp only [hq, Option.ite_none_right_eq_some] at h
      exact (hkeep ((attempt_frame h.2).2 b hb)).elim
  | resume q =>
    cases hq : s.phase q with
    | idle => simp [hq] at h
    | waiting b number doWrite => simp [hq] at h
    | submitted b' j₀ j₁ j₂ =>
      simp only [hq, Option.ite_none_right_eq_some] at h
      obtain ⟨f, hf, _⟩ := hi.resume hq
      rw [hf] at h
      obtain rfl := Option.some.inj h.2
      exact (hkeep hb).elim
  | interruptTurn =>
    simp only [Option.ite_none_right_eq_some] at h
    obtain ⟨_, h⟩ := h
    split_ifs at h with hne
    · obtain rfl := Option.some.inj h
      obtain ⟨p, b', i₁, i₂, hp, hd, _, heq⟩ := hi.completion hne
      rw [heq] at hb' ⊢
      have hbb : b = b' := by
        by_contra hbb
        simp [Function.update_of_ne hbb, hb] at hb'
      subst hbb
      have hc := hi.cleared p b _ i₁ i₂ hp
      rw [hd, if_pos rfl] at hc
      exact ⟨p, i₁, i₂, hp, hc, by simp [hc]⟩
    · obtain rfl := Option.some.inj h
      exact (hkeep hb).elim
  | _ =>
    simp only [Option.ite_none_right_eq_some, Option.some.injEq] at h
    obtain ⟨_, rfl⟩ := h
    exact (hkeep hb).elim

end

/-- The entries of the available ring that the device has not taken. -/
def State.untaken (s : State π β) : ℕ := (s.disk.availableIdx + indexSize - s.seen) % indexSize

/-- The entries of the used ring that `interrupt` has not looked at. -/
def State.unread (s : State π β) : ℕ :=
  (s.disk.usedRingIdx + indexSize - s.disk.usedIdx) % indexSize

/-- The head is neither in a ring nor with the device. -/
structure State.Completed (s : State π β) (head : ℕ) : Prop where
  available : ∀ k, k < s.untaken → s.disk.available ((s.seen + k) % queueSize) ≠ head
  taken : head ∉ s.taken
  finished : head ∉ s.finished
  used : ∀ k, k < s.unread → s.disk.used ((s.disk.usedIdx + k) % queueSize) ≠ head

theorem Inv.counts {s : State π β} (hi : Inv s) {pending done : List ℕ}
    (hf : Flight s pending done) : s.untaken = pending.length ∧ s.unread = done.length := by
  obtain ⟨hp, hd⟩ := hi.pending_lt hf
  unfold queueSize at hp hd
  exact ⟨hf.available.count (by unfold indexSize; omega),
    hf.used.count (by unfold indexSize; omega)⟩

theorem Inv.completed {s : State π β} (hi : Inv s) {p : π} {b : β} {i₀ i₁ i₂ : ℕ}
    (hp : s.phase p = .submitted b i₀ i₁ i₂) (hd : s.diskOwned b = false) : s.Completed i₀ := by
  obtain ⟨pending, done, hf⟩ := hi.flight
  obtain ⟨hcp, hcd⟩ := hi.counts hf
  have hnot : i₀ ∉ pending ++ s.taken ++ s.finished ++ done := by
    intro hm
    obtain ⟨q, b', j₁, j₂, hq, hd'⟩ := (hf.mem i₀).mp hm
    have hqp := hi.disjoint q p i₀ (by rw [hq]; simp [Phase.chain]) (by rw [hp]; simp [Phase.chain])
    rw [hqp, hp] at hq
    cases hq
    rw [hd] at hd'
    cases hd'
  simp only [List.mem_append, not_or] at hnot
  constructor
  · intro k hk he
    rw [hcp] at hk
    rw [hf.available.slot k hk] at he
    exact hnot.1.1.1 (he ▸ List.getElem_mem hk)
  · exact hnot.1.1.2
  · exact hnot.1.2
  · intro k hk he
    rw [hcd] at hk
    rw [hf.used.slot k hk] at he
    exact hnot.2 (he ▸ List.getElem_mem hk)

/-- The driver and the device share the descriptors and the rings. -/
theorem descriptor_discipline [DecidableEq π] [DecidableEq β] {s₀ s : State π β}
    {events : List (Event π β)} (h₀ : Initial s₀)
    (h : Transition.run step s₀ events = some s) :
    s.panicked = none ∧
    (∀ p q i, i ∈ (s.phase p).chain → i ∈ (s.phase q).chain → p = q) ∧
    (∀ p, (s.phase p).chain.Nodup ∧ ∀ i ∈ (s.phase p).chain, i < queueSize) ∧
    (∀ i, i < queueSize → (s.disk.free i = true ↔ ∀ p, i ∉ (s.phase p).chain)) ∧
    (∀ k, k < s.untaken → (s.seen + k) % queueSize ≠ s.disk.availableIdx % queueSize) ∧
    (∀ p b i₀ i₁ i₂, s.phase p = .submitted b i₀ i₁ i₂ →
      Chain s.disk b i₀ i₁ i₂ ∧ s.cleared p = if s.diskOwned b then 0 else 1) ∧
    ∀ e s', step s e = some s' →
      (∀ p b i₀ i₁ i₂, s.phase p = .submitted b i₀ i₁ i₂ → s'.phase p = s.phase p ∨
        s'.phase p = .idle ∧ s.cleared p = 1 ∧ s.Completed i₀) ∧
      ∀ b, s.diskOwned b = true → s'.diskOwned b = false →
        ∃ p i₁ i₂, s.phase p = .submitted b (s.disk.used (s.disk.usedIdx % queueSize)) i₁ i₂ ∧
          s.cleared p = 0 ∧ s'.cleared p = 1 := by
  have hi : Inv s := Inv.run h₀ h
  refine ⟨hi.panicked, hi.disjoint, fun p => ⟨hi.nodup p, hi.bound p⟩, hi.free, ?_, ?_, ?_⟩
  · intro k hk
    obtain ⟨pending, done, hf⟩ := hi.flight
    rw [(hi.counts hf).1] at hk
    exact hf.available.slot_ne (by decide) (hi.pending_lt hf).1 hk
  · intro p b i₀ i₁ i₂ hp
    exact ⟨hi.chain p b i₀ i₁ i₂ hp, hi.cleared p b i₀ i₁ i₂ hp⟩
  · intro e s' he
    refine ⟨fun p b i₀ i₁ i₂ hp => ?_, fun b hb hb' => hi.owned_step he hb hb'⟩
    obtain hsame | ⟨hidle, hd⟩ := hi.phase_step he hp
    · exact .inl hsame
    · have hc := hi.cleared p b i₀ i₁ i₂ hp
      rw [hd, if_neg (by simp)] at hc
      exact .inr ⟨hidle, hc, hi.completed hp hd⟩

/-- No descriptor is in use, and no buffer is locked. -/
def start : State Bool Bool where
  disk := {
    descriptor := fun _ => .cleared
    available := fun _ => 0
    availableIdx := 0
    used := fun _ => 0
    usedRingIdx := 0
    free := fun _ => true
    usedIdx := 0
    info := fun _ => ⟨none, .pending⟩
    operations := fun _ => ⟨false, 0⟩ }
  diskOwned _ := false
  holder _ := none
  phase _ := .idle
  interrupting := false
  seen := 0
  taken := []
  finished := []
  cleared _ := 0
  panicked := none

theorem start_initial : Initial start := by
  constructor <;> first | rfl | intros; rfl

/-- Two requests, of which the second is completed first. -/
theorem descriptor_discipline_two :
    ∃ s, Transition.run step start [.lockBuffer false false, .lockBuffer true true,
        .request false false 7 true, .request true true 9 false, .deviceTake, .deviceTake,
        .deviceFinish 3, .devicePublish 3, .interrupt, .interruptTurn, .interruptTurn,
        .resume true] = some s ∧
      s.phase false = .submitted false 0 1 2 ∧ s.cleared false = 0 ∧
      (s.disk.free 3 = true ↔ ∀ p, 3 ∉ (s.phase p).chain) := by
  have hrun : (Transition.run step start [.lockBuffer false false, .lockBuffer true true,
      .request false false 7 true, .request true true 9 false, .deviceTake, .deviceTake,
      .deviceFinish 3, .devicePublish 3, .interrupt, .interruptTurn, .interruptTurn,
      .resume true]).any (fun s => decide (s.phase false = .submitted false 0 1 2 ∧
        s.diskOwned false = true)) = true := by decide +kernel
  obtain ⟨s, hs, hp⟩ := (Option.any_eq_true _ _).mp hrun
  obtain ⟨hp, hd⟩ := of_decide_eq_true hp
  have hall := descriptor_discipline start_initial hs
  have hc := (hall.2.2.2.2.2.1 false false 0 1 2 hp).2
  exact ⟨s, hs, hp, by simpa [hd] using hc, hall.2.2.2.1 3 (by decide)⟩

end Zigmaos.DiskDriver
