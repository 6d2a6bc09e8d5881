import Zigmaos.RingWindow
import Zigmaos.Uart

/-!
# Output is in order, and goes on

What `start` has written to the device, the character that it has in hand and the
ring are what `putCharacter` has accepted. A process that waits for room while
there is room has a wakeup before it, and as long as there are characters in the
ring the device is sending, or asks for an interrupt, or `start` is to be run.
-/
namespace Zigmaos.Uart

open ProcessTable (Slot Channel)
open Scheduler (Agent)
open RingTransfer (add64)
open RingWindow (Window)

variable {κ : Type*} [DecidableEq κ] {channel : Channel} {initialProcess : Slot}
  {s s' : State κ}

/-- The characters are accepted, written, in hand, or in the ring. -/
def Accounted (t : Transmit) (accepted sent hand : List UInt8) : Prop :=
  ∃ l, Window bufferSize (2 ^ 64) t.buffer t.readCount t.writeCount l ∧
    l.length ≤ bufferSize ∧ accepted = sent ++ hand ++ l

/-- The character in hand is that of the agent with the lock, if there is one. -/
structure InHand (position : Agent κ → Position) (hand : List UInt8) : Prop where
  holder : ∀ a, (position a).hasLock = true → hand = (position a).hand
  nobody : (∀ a, (position a).hasLock = false) → hand = []

variable (channel) in
structure Inv (s : State κ) : Prop where
  monitor : SleepWakeup.Inv channel hasRoom s.monitor
  putting : ∀ p, s.monitor.scheduler.stage p = .sleepLocked channel →
    ∃ char, s.position (.process p) = .putting char
  lock : ∀ a, (s.position a).hasLock = true → s.monitor.mutex = some a
  ring : ∃ hand, InHand s.position hand ∧ Accounted s.monitor.data s.accepted s.sent hand
  goesOn : s.monitor.data.isEmpty = false → s.device.idle = false ∨ s.device.raised = true ∨
    ∃ a, (s.position a).willStart = true

/-! ## The ring -/

theorem two_pow_dvd : bufferSize ∣ 2 ^ 64 := by decide

theorem Accounted.transmitChar {t : Transmit} {accepted sent : List UInt8}
    (h : Accounted t accepted sent []) (hfull : t.isFull = false) (char : UInt8) :
    Accounted (t.transmitChar char) (accepted ++ [char]) sent [] := by
  obtain ⟨l, hwindow, hlen, heq⟩ := h
  have hlt : l.length < bufferSize := by
    apply Nat.lt_of_le_of_ne hlen
    intro hbuffer
    have hlast := hwindow.last_eq
    rw [hbuffer] at hlast
    simp [Transmit.isFull, add64, hlast] at hfull
  refine ⟨l ++ [char], hwindow.push two_pow_dvd hlt char, ?_, ?_⟩
  · rw [List.length_append, List.length_singleton]
    exact hlt
  · rw [heq]
    simp

theorem Accounted.readChar {t : Transmit} {accepted sent : List UInt8}
    (h : Accounted t accepted sent []) (hempty : t.isEmpty = false) :
    Accounted t.readChar accepted sent [t.character] := by
  obtain ⟨l, hwindow, hlen, heq⟩ := h
  have hlt : l.length < 2 ^ 64 := hlen.trans_lt (by decide)
  cases l with
  | nil =>
    have hsame := (hwindow.eq_iff hlt).mpr rfl
    simp [Transmit.isEmpty, hsame] at hempty
  | cons x l =>
    have hhead : t.character = x := hwindow.head
    refine ⟨l, hwindow.pop two_pow_dvd, ?_, ?_⟩
    · rw [List.length_cons] at hlen
      omega
    · rw [heq, hhead]
      simp

theorem Accounted.write {t : Transmit} {accepted sent hand : List UInt8}
    (h : Accounted t accepted sent hand) : Accounted t accepted (sent ++ hand) [] := by
  obtain ⟨l, hwindow, hlen, heq⟩ := h
  exact ⟨l, hwindow, hlen, by rw [heq, List.append_nil]⟩

/-! ## Positions -/

omit [DecidableEq κ] in
theorem Position.hand_of_not_hasLock {x : Position} (h : x.hasLock = false) : x.hand = [] := by
  cases x <;> first | rfl | cases h

omit [DecidableEq κ] in
theorem InHand.eq {position : Agent κ → Position} {hand : List UInt8} (h : InHand position hand)
    {a : Agent κ} (hothers : ∀ b, b ≠ a → (position b).hasLock = false) :
    hand = (position a).hand := by
  cases ha : (position a).hasLock with
  | true => exact h.holder a ha
  | false =>
    rw [Position.hand_of_not_hasLock ha]
    apply h.nobody
    intro b
    by_cases hb : b = a
    · rw [hb]
      exact ha
    · exact hothers b hb

theorem InHand.update {position : Agent κ → Position} {a : Agent κ}
    (hothers : ∀ b, b ≠ a → (position b).hasLock = false) (x : Position) :
    InHand (Function.update position a x) x.hand where
  holder b hb := by
    by_cases hba : b = a
    · rw [hba, Function.update_self]
    · rw [Function.update_of_ne hba, hothers b hba] at hb
      cases hb
  nobody h := by
    have ha := h a
    rw [Function.update_self] at ha
    exact Position.hand_of_not_hasLock ha

/-- Between positions without the lock, nothing else changes hands. -/
theorem InHand.update_free {position : Agent κ → Position} {hand : List UInt8}
    (h : InHand position hand) {a : Agent κ} (ha : (position a).hasLock = false) {x : Position}
    (hx : x.hasLock = false) : InHand (Function.update position a x) hand where
  holder b hb := by
    by_cases hba : b = a
    · rw [hba, Function.update_self, hx] at hb
      cases hb
    · rw [Function.update_of_ne hba] at hb ⊢
      exact h.holder b hb
  nobody hnone := by
    apply h.nobody
    intro b
    by_cases hba : b = a
    · rw [hba]
      exact ha
    · have hb := hnone b
      rwa [Function.update_of_ne hba] at hb

theorem willStart_update {position : Agent κ → Position} {a : Agent κ} {x : Position}
    (hx : (position a).willStart = true → x.willStart = true)
    (h : ∃ b, (position b).willStart = true) :
    ∃ b, (Function.update position a x b).willStart = true := by
  obtain ⟨b, hb⟩ := h
  apply Exists.intro b
  by_cases hba : b = a
  · rw [hba] at hb ⊢
    rw [Function.update_self]
    exact hx hb
  · rw [Function.update_of_ne hba]
    exact hb

theorem Inv.others (hi : Inv channel s) {a : Agent κ}
    (hm : s.monitor.mutex = none ∨ s.monitor.mutex = some a) (b : Agent κ) (hb : b ≠ a) :
    (s.position b).hasLock = false := by
  by_contra h
  have hmutex := hi.lock b (Bool.eq_true_of_not_eq_false h)
  rcases hm with hm | hm
  · rw [hm] at hmutex
    cases hmutex
  · rw [hm] at hmutex
    exact hb (Option.some.inj hmutex).symm

/-- Output that waits goes on where no one has lost the test of `start`. -/
theorem goesOn_update {position : Agent κ → Position} {a : Agent κ} {x : Position} {device : Device}
    (hx : (position a).willStart = true → x.willStart = true)
    (h : device.idle = false ∨ device.raised = true ∨ ∃ b, (position b).willStart = true) :
    device.idle = false ∨ device.raised = true ∨
      ∃ b, (Function.update position a x b).willStart = true := by
  rcases h with hidle | hraised | hstart
  · exact .inl hidle
  · exact .inr (.inl hraised)
  · exact .inr (.inr (willStart_update hx hstart))

/-! ## Steps -/

theorem Inv.initial (h : Initial initialProcess s) : Inv channel s where
  monitor := .initial h.monitor
  putting p hp := by simp [h.monitor.scheduler.stage] at hp
  lock a ha := by
    rw [h.position] at ha
    cases ha
  ring := by
    refine ⟨[], ⟨fun a ha => ?_, fun _ => rfl⟩, [], ?_, by decide, ?_⟩
    · rw [h.position] at ha
      cases ha
    · rw [h.readCount, h.writeCount]
      exact Window.nil (by decide)
    · rw [h.accepted, h.sent]
      rfl
  goesOn hempty := by simp [Transmit.isEmpty, h.readCount, h.writeCount] at hempty

/-- What an event of the scheduler changes, as far as the driver goes. -/
theorem Inv.scheduler_step (hi : Inv channel s) {e : Scheduler.Event κ}
    {m : SleepWakeup.State κ Transmit}
    (h : SleepWakeup.step channel hasRoom initialProcess s.monitor (.scheduler e) = some m) :
    m.data = s.monitor.data ∧
    (∀ a, (s.position a).hasLock = true → m.mutex = some a) ∧
    ∀ p, m.scheduler.stage p = .sleepLocked channel →
      (∃ char, s.position (.process p) = .putting char) ∨ ∃ c, e = .sleepWithLock c p channel := by
  simp only [SleepWakeup.step, Option.ite_none_right_eq_some, Option.map_eq_some_iff] at h
  obtain ⟨ha, t, ht, rfl⟩ := h
  refine ⟨by simp, ?_, ?_⟩
  · intro a hlock
    have hm := hi.lock a hlock
    by_contra hne
    obtain ⟨c, q, he⟩ := SleepWakeup.follow_mutex (by rw [hm]; exact hne)
    rcases he with rfl | rfl
    · simp only [Scheduler.step, Option.ite_none_right_eq_some] at ht
      have hq := (hi.monitor.locked q ht.1.2).1
      rw [hm] at hq
      obtain ⟨char, hchar⟩ := hi.putting q ht.1.2
      rw [Option.some.inj hq, hchar] at hlock
      cases hlock
    · simp [SleepWakeup.allowed, hm] at ha
  · intro p hp
    have hg := Scheduler.stage_step ht p
    simp only [SleepWakeup.follow_scheduler] at hp
    rw [hp] at hg
    generalize hx : s.monitor.scheduler.stage p = x at hg
    cases hg with
    | same => exact .inl (hi.putting p hx)
    | sleepWithLock c => exact .inr ⟨c, rfl⟩

/-- An event of the scheduler, by which an agent comes to another position with the
lock if it had it, and with the same in hand. -/
theorem Inv.of_scheduler (hi : Inv channel s) {e : Scheduler.Event κ}
    {m : SleepWakeup.State κ Transmit} {a : Agent κ} {x : Position} {device : Device}
    (h : SleepWakeup.step channel hasRoom initialProcess s.monitor (.scheduler e) = some m)
    (hsleep : ∀ c p, e = .sleepWithLock c p channel →
      ∃ char, Function.update s.position a x (.process p) = .putting char)
    (hlock : x.hasLock = (s.position a).hasLock) (hhand : x.hand = (s.position a).hand)
    (hputting : ∀ char, s.position a = .putting char → x = .putting char)
    (hgoes : (s.device.idle = false ∨ s.device.raised = true ∨
      ∃ b, (s.position b).willStart = true) → device.idle = false ∨ device.raised = true ∨
      ∃ b, (Function.update s.position a x b).willStart = true) :
    Inv channel { s with monitor := m, position := Function.update s.position a x,
                         device := device } := by
  obtain ⟨hdata, hmutex, hstage⟩ := hi.scheduler_step h
  have hsame : ∀ b, (Function.update s.position a x b).hasLock = (s.position b).hasLock ∧
      (Function.update s.position a x b).hand = (s.position b).hand := by
    intro b
    by_cases hb : b = a
    · rw [hb, Function.update_self]
      exact ⟨hlock, hhand⟩
    · rw [Function.update_of_ne hb]
      exact ⟨rfl, rfl⟩
  constructor
  · exact hi.monitor.step h
  · intro p hp
    rcases hstage p hp with hchar | hcall
    · obtain ⟨char, hchar⟩ := hchar
      apply Exists.intro char
      by_cases hpa : Agent.process p = a
      · dsimp only
        rw [hpa, Function.update_self]
        exact hputting char (hpa ▸ hchar)
      · exact (Function.update_of_ne hpa _ _).trans hchar
    · obtain ⟨c, he⟩ := hcall
      exact hsleep c p he
  · intro b hb
    exact hmutex b ((hsame b).1 ▸ hb)
  · obtain ⟨hand, hin, hacc⟩ := hi.ring
    refine ⟨hand, ⟨fun b hb => ?_, fun hnone => ?_⟩, hdata ▸ hacc⟩
    · rw [(hsame b).2]
      exact hin.holder b ((hsame b).1 ▸ hb)
    · exact hin.nobody fun b => (hsame b).1 ▸ hnone b
  · intro hempty
    rw [hdata] at hempty
    exact hgoes (hi.goesOn hempty)

/-- An event of an agent that has the lock before or after it, and is executed. -/
theorem Inv.of_ready (hi : Inv channel s) {c : κ} {a : Agent κ} {x : Position}
    {m : SleepWakeup.State κ Transmit} {device : Device} {accepted sent : List UInt8}
    (hm : SleepWakeup.Inv channel hasRoom m) (hs : m.scheduler = s.monitor.scheduler)
    (hready : s.monitor.Ready c a) (hothers : ∀ b, b ≠ a → (s.position b).hasLock = false)
    (hlock : x.hasLock = true → m.mutex = some a)
    (hacc : Accounted m.data accepted sent x.hand)
    (hgoes : m.data.isEmpty = false → device.idle = false ∨ device.raised = true ∨
      ∃ b, (Function.update s.position a x b).willStart = true) :
    Inv channel ⟨m, Function.update s.position a x, device, accepted, sent⟩ where
  monitor := hm
  putting p hp := by
    simp only [hs] at hp
    obtain ⟨char, hchar⟩ := hi.putting p hp
    exact ⟨char, (Function.update_of_ne (hready.not_locked hp).symm _ _).trans hchar⟩
  lock b hb := by
    dsimp only at hb
    by_cases hba : b = a
    · rw [hba, Function.update_self] at hb
      rw [hba]
      exact hlock hb
    · rw [Function.update_of_ne hba, hothers b hba] at hb
      cases hb
  ring := ⟨x.hand, InHand.update hothers x, hacc⟩
  goesOn := hgoes

theorem Inv.accounted (hi : Inv channel s) {a : Agent κ}
    (hothers : ∀ b, b ≠ a → (s.position b).hasLock = false) :
    Accounted s.monitor.data s.accepted s.sent (s.position a).hand := by
  obtain ⟨hand, hin, hacc⟩ := hi.ring
  rwa [hin.eq hothers] at hacc

theorem Inv.other (hi : Inv channel s) {e : Scheduler.Event κ}
    (h : Uart.step channel initialProcess s (.other e) = some s') : Inv channel s' := by
  simp only [Uart.step, Option.ite_none_right_eq_some, Option.map_eq_some_iff] at h
  obtain ⟨hperm, m, hm, rfl⟩ := h
  obtain ⟨hdata, hmutex, hstage⟩ := hi.scheduler_step hm
  refine ⟨hi.monitor.step hm, fun p hp => ?_, hmutex, ?_, ?_⟩
  · rcases hstage p hp with hchar | hcall
    · exact hchar
    · obtain ⟨c, rfl⟩ := hcall
      simp [State.permits] at hperm
  · simp only [hdata]
    exact hi.ring
  · simp only [hdata]
    exact hi.goesOn

theorem Inv.putCharacter (hi : Inv channel s) {c : κ} {p : Slot} {char : UInt8}
    (h : Uart.step channel initialProcess s (.putCharacter c p char) = some s') : Inv channel s' := by
  simp only [Uart.step, Option.ite_none_right_eq_some, Option.some.injEq] at h
  obtain ⟨⟨hready, hp⟩, rfl⟩ := h
  have hfree : (s.position (.process p)).hasLock = false := by rw [hp]; rfl
  refine ⟨hi.monitor, fun q hq => ?_, fun b hb => ?_, ?_, fun hempty => ?_⟩
  · obtain ⟨char', hchar⟩ := hi.putting q hq
    exact ⟨char', (Function.update_of_ne (hready.not_locked hq).symm _ _).trans hchar⟩
  · dsimp only at hb
    by_cases hbp : b = .process p
    · rw [hbp, Function.update_self] at hb
      cases hb
    · rw [Function.update_of_ne hbp] at hb
      exact hi.lock b hb
  · obtain ⟨hand, hin, hacc⟩ := hi.ring
    exact ⟨hand, hin.update_free hfree rfl, hacc⟩
  · exact goesOn_update (by rw [hp]; exact id) (hi.goesOn hempty)

theorem Inv.acquire (hi : Inv channel s) {c : κ} {a : Agent κ}
    (h : Uart.step channel initialProcess s (.acquire c a) = some s') : Inv channel s' := by
  rw [Uart.step] at h
  cases ha : s.position a with
  | putting char =>
    rw [ha] at h
    obtain ⟨m, hm, rfl⟩ := Option.map_eq_some_iff.mp h
    have hmi := hi.monitor.step hm
    simp only [SleepWakeup.step, Option.ite_none_right_eq_some, Option.some.injEq] at hm
    obtain ⟨⟨hready, hmx⟩, rfl⟩ := hm
    have hothers := hi.others (.inl hmx) (a := a)
    have hacc := hi.accounted hothers
    rw [ha] at hacc
    have hsame : Function.update s.position a (.putting char) = s.position := by
      rw [← ha]
      exact Function.update_eq_self a s.position
    apply hi.of_ready hmi rfl hready hothers (fun hx => by cases hx)
    · exact hacc
    · rw [hsame]
      exact hi.goesOn
  | interrupted =>
    rw [ha] at h
    obtain ⟨m, hm, rfl⟩ := Option.map_eq_some_iff.mp h
    have hmi := hi.monitor.step hm
    simp only [SleepWakeup.step, Option.ite_none_right_eq_some, Option.some.injEq] at hm
    obtain ⟨⟨hready, hmx⟩, rfl⟩ := hm
    have hothers := hi.others (.inl hmx) (a := a)
    have hacc := hi.accounted hothers
    rw [ha] at hacc
    apply hi.of_ready hmi rfl hready hothers (fun _ => rfl)
    · exact hacc
    · intro _
      exact .inr (.inr ⟨a, by rw [Function.update_self]; rfl⟩)
  | _ =>
    rw [ha] at h
    cases h

theorem Inv.sleep (hi : Inv channel s) {c : κ} {p : Slot}
    (h : Uart.step channel initialProcess s (.sleep c p) = some s') : Inv channel s' := by
  simp only [Uart.step, State.perform] at h
  split at h
  next char hp =>
    simp only [Option.ite_none_right_eq_some] at h
    obtain ⟨m, hm, rfl⟩ := Option.map_eq_some_iff.mp h.2
    apply hi.of_scheduler hm
    · intro c' q he
      cases he
      exact ⟨char, Function.update_self _ _ _⟩
    · rw [hp]
    · rw [hp]
    · intro char' hchar
      rw [hp] at hchar
      exact hchar
    · exact goesOn_update (by rw [hp]; exact id)
  next => cases h

theorem Inv.transmitChar (hi : Inv channel s) {c : κ} {p : Slot}
    (h : Uart.step channel initialProcess s (.transmitChar c p) = some s') : Inv channel s' := by
  simp only [Uart.step, State.perform] at h
  split at h
  next char hp =>
    split at h
    next => cases h
    next hfull =>
    obtain ⟨t, ht, rfl⟩ := Option.map_eq_some_iff.mp h
    obtain ⟨m, hm, rfl⟩ := Option.map_eq_some_iff.mp ht
    have hmi := hi.monitor.step hm
    simp only [SleepWakeup.step, Option.ite_none_right_eq_some, Option.some.injEq] at hm
    obtain ⟨⟨hready, hmx⟩, rfl⟩ := hm
    have hothers := hi.others (.inr hmx) (a := .process p)
    have hacc := hi.accounted hothers
    rw [hp] at hacc
    apply hi.of_ready hmi rfl hready hothers (fun _ => hmx)
    · exact hacc.transmitChar (Bool.eq_false_iff.mpr hfull) char
    · intro _
      exact .inr (.inr ⟨.process p, by rw [Function.update_self]; rfl⟩)
  next => cases h

theorem Inv.start (hi : Inv channel s) {c : κ} {a : Agent κ}
    (h : Uart.step channel initialProcess s (.start c a) = some s') : Inv channel s' := by
  simp only [Uart.step, State.perform, Option.ite_none_right_eq_some] at h
  obtain ⟨ha, h⟩ := h
  have hmx := hi.lock a (by rw [ha]; rfl)
  have hothers := hi.others (.inr hmx) (a := a)
  have hacc := hi.accounted hothers
  rw [ha] at hacc
  split at h
  next hstop =>
    simp only [Option.ite_none_right_eq_some, Option.some.injEq] at h
    obtain ⟨hready, rfl⟩ := h
    apply hi.of_ready hi.monitor rfl hready hothers (fun _ => hmx)
    · exact hacc
    · intro hempty
      rw [hempty, Bool.false_or, Bool.not_eq_true'] at hstop
      exact .inl hstop
  next hgo =>
    obtain ⟨m, hm, rfl⟩ := Option.map_eq_some_iff.mp h
    have hmi := hi.monitor.step hm
    simp only [SleepWakeup.step, Option.ite_none_right_eq_some, Option.some.injEq] at hm
    obtain ⟨⟨hready, -⟩, rfl⟩ := hm
    have hempty : s.monitor.data.isEmpty = false := by
      simp only [Bool.or_eq_true, not_or, Bool.not_eq_true] at hgo
      exact hgo.1
    apply hi.of_ready hmi rfl hready hothers (fun _ => hmx)
    · exact hacc.readChar hempty
    · intro _
      exact .inr (.inr ⟨a, by rw [Function.update_self]; rfl⟩)

theorem Inv.wakeup (hi : Inv channel s) {c : κ} {a : Agent κ}
    (h : Uart.step channel initialProcess s (.wakeup c a) = some s') : Inv channel s' := by
  simp only [Uart.step, State.perform] at h
  split at h
  next char ha =>
    obtain ⟨m, hm, rfl⟩ := Option.map_eq_some_iff.mp h
    apply hi.of_scheduler hm
    · intro c' q he
      cases he
    · rw [ha]
      rfl
    · rw [ha]
      rfl
    · intro char' hchar
      rw [ha] at hchar
      cases hchar
    · exact goesOn_update (fun _ => rfl)
  next => cases h

theorem Inv.write (hi : Inv channel s) {c : κ} {a : Agent κ}
    (h : Uart.step channel initialProcess s (.write c a) = some s') : Inv channel s' := by
  simp only [Uart.step] at h
  split at h
  next char ha =>
    simp only [Option.ite_none_right_eq_some, Option.some.injEq] at h
    obtain ⟨hready, rfl⟩ := h
    have hmx := hi.lock a (by rw [ha]; rfl)
    have hothers := hi.others (.inr hmx) (a := a)
    have hacc := hi.accounted hothers
    rw [ha] at hacc
    exact hi.of_ready hi.monitor rfl hready hothers (fun _ => hmx) hacc.write
      fun _ => .inl rfl
  next => cases h

theorem Inv.release (hi : Inv channel s) {c : κ} {a : Agent κ}
    (h : Uart.step channel initialProcess s (.release c a) = some s') : Inv channel s' := by
  simp only [Uart.step, State.perform, Option.ite_none_right_eq_some] at h
  obtain ⟨ha, h⟩ := h
  obtain ⟨m, hm, rfl⟩ := Option.map_eq_some_iff.mp h
  have hmi := hi.monitor.step hm
  simp only [SleepWakeup.step, Option.ite_none_right_eq_some, Option.some.injEq] at hm
  obtain ⟨⟨hready, hmx⟩, rfl⟩ := hm
  have hothers := hi.others (.inr hmx) (a := a)
  have hacc := hi.accounted hothers
  rw [ha] at hacc
  apply hi.of_ready hmi rfl hready hothers (fun hx => by cases hx)
  · exact hacc
  · intro hempty
    exact goesOn_update (by rw [ha]; exact id) (hi.goesOn hempty)

theorem Inv.interrupt (hi : Inv channel s) {c : κ}
    (h : Uart.step channel initialProcess s (.interrupt c) = some s') : Inv channel s' := by
  simp only [Uart.step, State.perform, Option.ite_none_right_eq_some] at h
  obtain ⟨⟨-, ha⟩, h⟩ := h
  obtain ⟨t, ht, rfl⟩ := Option.map_eq_some_iff.mp h
  obtain ⟨m, hm, rfl⟩ := Option.map_eq_some_iff.mp ht
  apply hi.of_scheduler hm
  · intro c' q he
    cases he
  · rw [ha]
    rfl
  · rw [ha]
    rfl
  · intro char hchar
    rw [ha] at hchar
    cases hchar
  · intro _
    exact .inr (.inr ⟨.handler c, by rw [Function.update_self]; rfl⟩)

theorem Inv.step (hi : Inv channel s) {e : Event κ}
    (h : Uart.step channel initialProcess s e = some s') : Inv channel s' := by
  cases e with
  | other e => exact hi.other h
  | putCharacter c p char => exact hi.putCharacter h
  | acquire c a => exact hi.acquire h
  | sleep c p => exact hi.sleep h
  | transmitChar c p => exact hi.transmitChar h
  | start c a => exact hi.start h
  | wakeup c a => exact hi.wakeup h
  | write c a => exact hi.write h
  | release c a => exact hi.release h
  | interrupt c => exact hi.interrupt h
  | putCharSync =>
    simp only [Uart.step, Option.ite_none_right_eq_some, Option.some.injEq] at h
    obtain ⟨-, rfl⟩ := h
    exact ⟨hi.monitor, hi.putting, hi.lock, hi.ring, fun _ => .inl rfl⟩
  | done =>
    simp only [Uart.step, Option.ite_none_left_eq_some, Option.some.injEq] at h
    obtain ⟨-, rfl⟩ := h
    exact ⟨hi.monitor, hi.putting, hi.lock, hi.ring, fun _ => .inr (.inl rfl)⟩
  | raise =>
    simp only [Uart.step, Option.some.injEq] at h
    obtain rfl := h
    exact ⟨hi.monitor, hi.putting, hi.lock, hi.ring, fun _ => .inr (.inl rfl)⟩
  | withdraw =>
    simp only [Uart.step, Option.ite_none_left_eq_some, Option.some.injEq] at h
    obtain ⟨hidle, rfl⟩ := h
    exact ⟨hi.monitor, hi.putting, hi.lock, hi.ring, fun _ => .inl (Bool.eq_false_iff.mpr hidle)⟩

theorem Inv.run {s₀ : State κ} {events : List (Event κ)} (h₀ : Initial initialProcess s₀)
    (h : Transition.run (Uart.step channel initialProcess) s₀ events = some s) :
    Inv channel s := by
  refine Transition.run_induction (P := fun _ s => Inv channel s) (.initial h₀) ?_ events s h
  intro _ _ _ _ _ hi he
  exact hi.step he

/-- The characters written to the device are those accepted, in order, but for at most a
full ring and one in hand; with the lock free they are all but the ring. Who sleeps
while there is room has a wakeup before it, and output that waits goes on. -/
theorem output_in_order (channel : Channel) {s₀ : State κ} {events : List (Event κ)}
    (h₀ : Initial initialProcess s₀)
    (h : Transition.run (Uart.step channel initialProcess) s₀ events = some s) :
    (∃ rest, s.accepted = s.sent ++ rest ∧ rest.length ≤ bufferSize + 1) ∧
      (s.monitor.mutex = none → Accounted s.monitor.data s.accepted s.sent []) ∧
      (∀ p, (s.monitor.scheduler.table p).state = .sleeping →
        (s.monitor.scheduler.table p).sleepingChannel = some channel →
        s.monitor.data.isFull = false →
        ∃ a, a ≠ .process p ∧ s.monitor.Pending channel a p) ∧
      (s.monitor.data.isEmpty = false → s.device.idle = false ∨ s.device.raised = true ∨
        ∃ a, (s.position a).willStart = true) := by
  have hi : Inv channel s := Inv.run h₀ h
  obtain ⟨hand, hin, hacc⟩ := hi.ring
  refine ⟨?_, fun hmutex => ?_, fun p hp hch hfull => ?_, hi.goesOn⟩
  · obtain ⟨l, -, hlen, heq⟩ := hacc
    have hhand : hand.length ≤ 1 := by
      by_cases hsome : ∃ a, (s.position a).hasLock = true
      · obtain ⟨a, ha⟩ := hsome
        rw [hin.holder a ha]
        cases s.position a <;> simp [Position.hand]
      · rw [hin.nobody fun a => Bool.eq_false_iff.mpr fun ha => hsome ⟨a, ha⟩]
        exact Nat.zero_le 1
    refine ⟨hand ++ l, by rw [heq, List.append_assoc], ?_⟩
    rw [List.length_append]
    omega
  · rw [hin.nobody fun a => Bool.eq_false_iff.mpr fun ha => ?_] at hacc
    · exact hacc
    · rw [hi.lock a ha] at hmutex
      cases hmutex
  · exact hi.monitor.sleeping hp hch (by simp [hasRoom, hfull])

/-- The first process of two CPUs, and nothing to send. -/
def boot : State Bool where
  monitor := ⟨Scheduler.boot, none, ⟨fun _ => 0, 0, 0⟩, fun _ => false⟩
  position _ := .outside
  device := ⟨true, false⟩
  accepted := []
  sent := []

theorem boot_initial : Initial 0 boot :=
  ⟨⟨Scheduler.boot_initial, rfl, fun _ => rfl⟩, rfl, rfl, fun _ => rfl, rfl, rfl⟩

/-- The first process puts a character, which is sent at once. -/
def putsOne : List (Event Bool) :=
  [.other (.lockNext false 0), .other (.test false 0), .other (.resumed false 0 .forkReturn),
    .putCharacter false 0 65, .acquire false (.process 0), .transmitChar false 0,
    .start false (.process 0), .wakeup false (.process 0)] ++
  (List.range 65).map (fun k => .other (.wakeNext false (.process 0) (.other 0) k)) ++
  [.write false (.process 0), .start false (.process 0), .release false (.process 0)]

theorem output_in_order_one : ∃ s, Transition.run (step (.other 0) 0) boot putsOne = some s ∧
    s.sent = [65] ∧ ∃ rest, s.accepted = 65 :: rest := by
  have hrun : (Transition.run (step (.other 0) 0) boot putsOne).any
      (fun s => decide (s.sent = [65])) = true := by
    decide +kernel
  obtain ⟨s, hs, hsent⟩ := (Option.any_eq_true _ _).mp hrun
  have hsent := of_decide_eq_true hsent
  obtain ⟨rest, hrest, -⟩ := (output_in_order (.other 0) boot_initial hs).1
  rw [hsent] at hrest
  exact ⟨s, hs, hsent, rest, hrest⟩

end Zigmaos.Uart
