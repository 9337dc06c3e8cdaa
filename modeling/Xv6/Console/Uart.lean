import Xv6.Lib.Ring
import Xv6.Lib.Trans
import Xv6.Params

/-!
# The transmit ring of the UART

`uartputc` puts bytes into a ring of 32 and sleeps while it is full; `uartstart`, called by the
writers and by the interrupt handler, moves bytes from the ring to the device while that is idle,
and wakes the writers for each of them. Both run with `uart_tx_lock` held. A step here is a section
between two tests of a loop, one slot of a `wakeup` or one half of `sleep`; any number of processes
write, and handlers run on any number of CPUs, each over a process or over none.

A writer that sleeps although the ring is not full is still to be woken by the holder of the lock,
which is inside `wakeup` and has not come to its slot (`Inv.owed`).
-/

namespace Xv6.Uart

open Lib

/-- Source: `uart.c`. -/
def UART_TX_BUF_SIZE : ℕ := 32

/-- A thread: a process, or a handler of an interrupt. -/
inductive Who
  | proc (p : Slot)
  | intr (i : ℕ)
  deriving DecidableEq

/-- Where a thread is in `uart.c`. -/
inductive Point
  /-- In none of its functions. -/
  | out
  /-- In `uartputc(c)`, before `acquire(&uart_tx_lock)`. -/
  | enter (c : UInt8)
  /-- Holds the lock, before the test of `panicked`. -/
  | check (c : UInt8)
  /-- In the endless loop of a kernel that has panicked. -/
  | spin
  /-- Before the test of the loop of `uartputc`. -/
  | head (c : UInt8)
  /-- In `sleep`: holds `p->lock`, has released `uart_tx_lock`, and is not `SLEEPING` yet. -/
  | entering (c : UInt8)
  /-- In `sleep`, before `acquire(&uart_tx_lock)`; the process may be `SLEEPING`. -/
  | relock (c : UInt8)
  /-- In `uartintr`, before `acquire(&uart_tx_lock)`. -/
  | intr
  /-- In `uartstart`, before a turn of its loop. -/
  | start
  /-- In the `wakeup` of `uartstart`, before slot `k`, with the byte `b` taken from the ring. -/
  | wakeup (b : UInt8) (k : ℕ)
  /-- Before `release(&uart_tx_lock)`. -/
  | unlock

namespace Point

/-- The thread holds `uart_tx_lock`. -/
def holds : Point → Bool
  | check _ | spin | head _ | start | wakeup _ _ | unlock => true
  | _ => false

/-- The thread is a process that has its own lock, about to sleep. -/
def isEntering : Point → Bool
  | entering _ => true
  | _ => false

/-- The byte that `uartstart` has taken from the ring and not yet given to the device. -/
def hand : Point → List UInt8
  | wakeup b _ => [b]
  | _ => []

end Point

structure State where
  /-- `uart_tx_buf`, `uart_tx_w` and `uart_tx_r`. -/
  buf : ℕ → UInt8
  w : UInt64
  r : UInt64
  /-- The holder of `uart_tx_lock`. -/
  lock : Option Who
  panicked : Bool
  /-- The process is `SLEEPING` on `&uart_tx_r`. -/
  asleep : Slot → Bool
  point : Who → Point
  /-- The process a handler has interrupted. -/
  under : ℕ → Option Slot
  /-- The bytes that `uartputc` has accepted, in order. -/
  accepted : List UInt8
  /-- The bytes that `uartstart` has written to `THR`, in order. -/
  sent : List UInt8

namespace State

/-- The test of `uartputc`. -/
def Full (s : State) : Prop := s.w = s.r + UInt64.ofNat UART_TX_BUF_SIZE

/-- `myproc()` of a thread. -/
def myproc (s : State) : Who → Option Slot
  | .proc p => some p
  | .intr i => s.under i

/-- A handler runs over the process. -/
def Interrupted (s : State) (p : Slot) : Prop := ∃ i, s.under i = some p ∧ s.point (.intr i) ≠ .out

/-- Moves a thread. -/
def goto (s : State) (t : Who) (pt : Point) : State :=
  { s with point := Function.update s.point t pt }

/-- The byte between the ring and the device. -/
def hand (s : State) : List UInt8 :=
  match s.lock with
  | some t => (s.point t).hand
  | none => []

/-- The bytes in the ring, as the counters give them. -/
def ring (s : State) : List UInt8 :=
  (List.range (s.w - s.r).toNat).map fun j =>
    s.buf ((s.r.toNat + j) % 2 ^ 64 % UART_TX_BUF_SIZE)

end State

open State in
/-- The steps of a thread. Source: `uart.c` `uartputc`, `uartstart`, `uartintr`; `proc.c` `sleep`,
`wakeup`. -/
inductive Step (s : State) : Who → State → Prop
  | call {p} (c) : s.point (.proc p) = .out → ¬ s.Interrupted p →
      Step s (.proc p) (s.goto (.proc p) (.enter c))
  | acquire {p c} : s.point (.proc p) = .enter c → ¬ s.Interrupted p → s.lock = none →
      Step s (.proc p) { s.goto (.proc p) (.check c) with lock := some (.proc p) }
  | spin {p c} : s.point (.proc p) = .check c → s.panicked →
      Step s (.proc p) (s.goto (.proc p) .spin)
  | check {p c} : s.point (.proc p) = .check c → s.panicked = false →
      Step s (.proc p) (s.goto (.proc p) (.head c))
  | sleep {p c} : s.point (.proc p) = .head c → s.Full →
      Step s (.proc p) { s.goto (.proc p) (.entering c) with lock := none }
  | sched {p c} : s.point (.proc p) = .entering c →
      Step s (.proc p)
        { s.goto (.proc p) (.relock c) with asleep := Function.update s.asleep p true }
  | relock {p c} : s.point (.proc p) = .relock c → s.asleep p = false → ¬ s.Interrupted p →
      s.lock = none → Step s (.proc p) { s.goto (.proc p) (.head c) with lock := some (.proc p) }
  | put {p c} : s.point (.proc p) = .head c → ¬ s.Full →
      Step s (.proc p)
        { s.goto (.proc p) .start with
          buf := Function.update s.buf (s.w.toNat % UART_TX_BUF_SIZE) c
          w := s.w + 1
          accepted := s.accepted ++ [c] }
  /-- An interrupt is taken, over a process that runs with interrupts on or over none. -/
  | interrupt {i} (me : Option Slot) : s.point (.intr i) = .out →
      (∀ p, me = some p → s.asleep p = false ∧ (s.point (.proc p)).isEntering = false ∧
        (s.point (.proc p)).holds = false) →
      Step s (.intr i)
        { s.goto (.intr i) .intr with under := Function.update s.under i me }
  | acquireIntr {i} : s.point (.intr i) = .intr → s.lock = none →
      Step s (.intr i) { s.goto (.intr i) .start with lock := some (.intr i) }
  | empty {t} : s.point t = .start → s.w = s.r → Step s t (s.goto t .unlock)
  /-- The device is not idle. -/
  | busy {t} : s.point t = .start → s.w ≠ s.r → Step s t (s.goto t .unlock)
  /-- The device is idle. -/
  | take {t} : s.point t = .start → s.w ≠ s.r →
      Step s t
        { s.goto t (.wakeup (s.buf (s.r.toNat % UART_TX_BUF_SIZE)) 0) with r := s.r + 1 }
  | skip {t b} {k : Slot} : s.point t = .wakeup b k → s.myproc t = some k →
      Step s t (s.goto t (.wakeup b (k + 1)))
  | wake {t b} {k : Slot} : s.point t = .wakeup b k → s.myproc t ≠ some k →
      (s.point (.proc k)).isEntering = false →
      Step s t
        { s.goto t (.wakeup b (k + 1)) with asleep := Function.update s.asleep k false }
  | send {t b} : s.point t = .wakeup b NPROC →
      Step s t { s.goto t .start with sent := s.sent ++ [b] }
  | release {t} : s.point t = .unlock → Step s t { s.goto t .out with lock := none }
  /-- Another part of the kernel panics. -/
  | panic (t) : Step s t { s with panicked := true }
  /-- Another part of the kernel makes the process `RUNNABLE`, as `kill` does. -/
  | kill {p} : (s.point (.proc p)).isEntering = false →
      Step s (.proc p) { s with asleep := Function.update s.asleep p false }

/-- The driver after `uartinit`. -/
def system : Lts State Who where
  init s := s.w = 0 ∧ s.r = 0 ∧ s.lock = none ∧ (∀ p, s.asleep p = false) ∧
    (∀ t, s.point t = .out) ∧ s.accepted = [] ∧ s.sent = []
  step := Step

/-! ### The invariant -/

/-- The process sleeps on `&uart_tx_r` or is about to. -/
def Pending (s : State) (j : Slot) : Prop :=
  s.asleep j = true ∨ (s.point (.proc j)).isEntering = true

/-- A process over which a handler may run: it is awake and has interrupts on. -/
def Idle (s : State) (p : Slot) : Prop :=
  s.asleep p = false ∧ (s.point (.proc p)).isEntering = false ∧ (s.point (.proc p)).holds = false

structure Inv (s : State) : Prop where
  holder : ∀ t, (s.point t).holds = true ↔ s.lock = some t
  asleep : ∀ p, s.asleep p = true → ∃ c, s.point (.proc p) = .relock c
  /-- A process over which a handler runs does not sleep. -/
  under : ∀ p, s.Interrupted p → Idle s p
  /-- A writer that sleeps although the ring is not full is going to be woken. -/
  owed : ∀ j, Pending s j → ¬ s.Full →
    ∃ t b k, s.lock = some t ∧ s.point t = .wakeup b k ∧ k ≤ (j : ℕ)
  ring : ∃ q, Ring.Queue (2 ^ 64) UART_TX_BUF_SIZE s.buf s.r.toNat s.w.toNat q ∧
    s.accepted = s.sent ++ s.hand ++ q

variable {s s' : State} {t : Who}

theorem Inv.step_holder (h : Inv s) (hs : Step s t s') (u : Who) :
    (s'.point u).holds = true ↔ s'.lock = some u := by
  have hu := h.holder u
  have ht := h.holder t
  rcases eq_or_ne u t with rfl | hut
  · cases hs <;> simp_all [State.goto, Point.holds]
  · have hne := hut.symm
    cases hs <;> simp_all [State.goto, Point.holds]

theorem Inv.step_asleep (h : Inv s) (hs : Step s t s') (p : Slot) (hp : s'.asleep p = true) :
    ∃ c, s'.point (.proc p) = .relock c := by
  have hold := h.asleep p
  by_cases hpt : t = .proc p
  · subst hpt
    cases hs <;> simp_all [State.goto, Function.update_apply]
  · have hne := Ne.symm hpt
    cases hs <;> simp_all [State.goto, Function.update_apply]

theorem Step.interrupted (hs : Step s t s') {p : Slot} (hp : s'.Interrupted p) :
    s.Interrupted p ∨ Idle s' p := by
  obtain ⟨i, hu, hpt⟩ := hp
  cases hs with
  | @interrupt j me hout hme =>
    by_cases hij : i = j
    · subst hij
      refine .inr ?_
      simp only [Function.update_self] at hu
      simpa [Idle, State.goto] using hme p hu
    · simp only [Function.update_of_ne hij] at hu
      refine .inl ⟨i, hu, ?_⟩
      simpa [State.goto, hij] using hpt
  | _ =>
    refine .inl ⟨i, hu, fun hout => hpt ?_⟩
    simp_all [State.goto, Function.update_apply]

theorem Inv.step_under (h : Inv s) (hs : Step s t s') (p : Slot) (hp : s'.Interrupted p) :
    Idle s' p := by
  rcases hs.interrupted hp with hold | hidle
  · obtain ⟨h1, h2, h3⟩ := h.under p hold
    by_cases hpt : t = .proc p
    · subst hpt
      cases hs <;> simp_all [Idle, Point.holds, Point.isEntering]
    · have hne := Ne.symm hpt
      cases hs <;> simp_all [Idle, State.goto, Function.update_apply]
  · exact hidle

/-- Only a writer that has found the ring full goes to sleep. -/
theorem Step.pending (hs : Step s t s') {j : Slot} (hj : Pending s' j) : Pending s j ∨ s'.Full := by
  by_cases hjt : t = .proc j
  · subst hjt
    cases hs with
    | sleep hpt hfull => exact .inr hfull
    | _ => simp_all [Pending, State.goto, Point.isEntering, Function.update_apply]
  · have hne := Ne.symm hjt
    left
    cases hs <;> simp_all [Pending, State.goto, Function.update_apply]
    exact hj.imp And.right id

/-- Slot `k` has been dealt with by the holder of the lock. -/
theorem Inv.not_pending_me (h : Inv s) (ht : s.lock = some t) {k : Slot}
    (hk : s.myproc t = some k) (hpt : s.point t ≠ .out) : ¬ Pending s k := by
  cases t with
  | proc p =>
    obtain rfl : p = k := Option.some.inj hk
    have hholds := (h.holder _).mpr ht
    rintro (ha | he)
    · obtain ⟨c, hc⟩ := h.asleep p ha
      simp [hc, Point.holds] at hholds
    · cases hp : s.point (.proc p) <;> simp_all [Point.holds, Point.isEntering]
  | intr i =>
    obtain ⟨h1, h2, -⟩ := h.under k ⟨i, hk, hpt⟩
    simp [Pending, h1, h2]

theorem Inv.step_owed (h : Inv s) (hs : Step s t s') (j : Slot) (hj : Pending s' j)
    (hfull : ¬ s'.Full) : ∃ u b k, s'.lock = some u ∧ s'.point u = .wakeup b k ∧ k ≤ (j : ℕ) := by
  have hold : Pending s j := (hs.pending hj).resolve_right hfull
  have hlock := (h.holder t).mp
  by_cases hwas : s.Full
  · -- only taking a byte makes room, and then every slot is still to be looked at
    cases hs with
    | take hpt hne =>
      exact ⟨t, _, 0, hlock (by rw [hpt]; rfl), Function.update_self .., Nat.zero_le _⟩
    | put hpt hnot => exact absurd hwas hnot
    | _ => exact absurd hwas hfull
  · obtain ⟨u, b, k, hu, hpt, hk⟩ := h.owed j hold hwas
    have hholds := (h.holder u).mpr hu
    by_cases hut : t = u
    · subst hut
      cases hs with
      | @skip _ b' k' hpt' hme =>
        have hjk : j ≠ k' := by
          rintro rfl
          exact h.not_pending_me hu hme (by rw [hpt']; simp) hold
        rw [hpt'] at hpt
        cases hpt
        exact ⟨t, b, k' + 1, hu, by simp [State.goto], by
          have : (j : ℕ) ≠ k' := fun h0 => hjk (Fin.ext h0)
          omega⟩
      | @wake _ b' k' hpt' hme hent =>
        have hjk : j ≠ k' := by
          rintro rfl
          have hself : Who.proc j ≠ t := by
            rintro rfl
            exact hme rfl
          simp [Pending, State.goto, Function.update_of_ne hself, hent] at hj
        rw [hpt'] at hpt
        cases hpt
        exact ⟨t, b, k' + 1, hu, by simp [State.goto], by
          have : (j : ℕ) ≠ k' := fun h0 => hjk (Fin.ext h0)
          omega⟩
      | send hpt' =>
        rw [hpt'] at hpt
        cases hpt
        exact absurd j.isLt (by omega)
      | panic => exact ⟨t, b, k, hu, hpt, hk⟩
      | kill => exact ⟨_, b, k, hu, hpt, hk⟩
      | _ => simp_all
    · have hne := Ne.symm hut
      refine ⟨u, b, k, ?_, ?_, hk⟩ <;> cases hs <;> simp_all [State.goto, Point.holds]

theorem State.hand_of_lock (ht : s.lock = some t) : s.hand = (s.point t).hand := by
  rw [State.hand, ht]

theorem State.hand_of_free (hfree : s.lock = none) : s.hand = [] := by
  rw [State.hand, hfree]

/-- Steps that leave the ring alone leave the byte in hand alone. -/
theorem Inv.hand_eq (h : Inv s) (hs : Step s t s') (hr : s'.r = s.r) (hsent : s'.sent = s.sent) :
    s'.hand = s.hand := by
  have hlock := (h.holder t).mp
  cases hlk : s.lock with
  | none =>
    have hno : (s.point t).holds = false := by
      by_contra hne
      rw [hlock (by simpa using hne)] at hlk
      cases hlk
    rw [State.hand_of_free hlk]
    cases hs <;> simp_all [State.hand, State.goto, Point.hand, Point.holds]
  | some u =>
    rw [State.hand_of_lock hlk]
    by_cases hut : t = u
    · subst hut
      have hholds := (h.holder t).mpr hlk
      cases hs <;> simp_all [State.hand, State.goto, Point.hand, Point.holds]
    · have hne := Ne.symm hut
      cases hs <;> simp_all [State.hand, State.goto, Point.holds]

/-- In a ring that is not full there is room. -/
theorem length_lt {q : List UInt8}
    (hq : Ring.Queue (2 ^ 64) UART_TX_BUF_SIZE s.buf s.r.toNat s.w.toNat q) (hfull : ¬ s.Full) :
    q.length < UART_TX_BUF_SIZE := by
  refine lt_of_le_of_ne hq.length_le fun hlen => hfull ?_
  have hw := hq.upper_eq
  rw [hlen] at hw
  exact UInt64.toNat_inj.mp hw

theorem Inv.step_ring (h : Inv s) (hs : Step s t s') :
    ∃ q, Ring.Queue (2 ^ 64) UART_TX_BUF_SIZE s'.buf s'.r.toNat s'.w.toNat q ∧
      s'.accepted = s'.sent ++ s'.hand ++ q := by
  obtain ⟨q, hq, hacc⟩ := h.ring
  have hlock := (h.holder t).mp
  have hhand := h.hand_eq hs
  have hdvd : UART_TX_BUF_SIZE ∣ 2 ^ 64 := by decide
  cases hs with
  | @put p c hpt hfull =>
    have hroom := length_lt hq hfull
    refine ⟨q ++ [c], ?_, ?_⟩
    · exact (hq.write hdvd hroom).push hdvd hroom (Function.update_self ..)
    · rw [hhand rfl rfl]
      show s.accepted ++ [c] = s.sent ++ s.hand ++ (q ++ [c])
      rw [hacc, List.append_assoc _ q]
  | take hpt hne =>
    cases q with
    | nil => exact absurd (UInt64.toNat_inj.mp ((hq.eq_iff (by decide)).mpr rfl)).symm hne
    | cons x q =>
      have hlk : s.lock = some t := hlock (by rw [hpt]; rfl)
      rw [State.hand_of_lock hlk, hpt] at hacc
      refine ⟨q, hq.pop, ?_⟩
      simpa [State.hand, State.goto, hlk, Point.hand, hq.front hdvd] using hacc
  | @send t b hpt =>
    have hlk : s.lock = some t := hlock (by rw [hpt]; rfl)
    rw [State.hand_of_lock hlk, hpt] at hacc
    refine ⟨q, hq, ?_⟩
    simpa [State.hand, State.goto, hlk, Point.hand] using hacc
  | _ => exact ⟨q, hq, by rw [hhand rfl rfl]; exact hacc⟩

theorem inv_of_reach (h : system.Reach s) : Inv s := by
  refine Lts.Reach.induct (M := system) (I := Inv) (fun s h0 => ?_) (fun s t s' _ ih hs => ?_) h
  · obtain ⟨hw, hr, hlock, hawake, hout, hacc, hsent⟩ := h0
    refine ⟨fun t => ?_, fun p hp => ?_, fun p hp => ?_, fun j hj => ?_, [], ?_, ?_⟩
    · simp [hout, hlock, Point.holds]
    · simp [hawake] at hp
    · simp [Idle, hawake, hout, Point.isEntering, Point.holds]
    · simp [Pending, hawake, hout, Point.isEntering] at hj
    · rw [hw, hr]
      exact Ring.Queue.empty ..
    · rw [hacc, hsent, State.hand_of_free hlock]
      rfl
  · exact ⟨ih.step_holder hs, ih.step_asleep hs, ih.step_under hs, ih.step_owed hs, ih.step_ring hs⟩

/-- The ring as the counters give it. -/
theorem ring_eq {q : List UInt8}
    (hq : Ring.Queue (2 ^ 64) UART_TX_BUF_SIZE s.buf s.r.toNat s.w.toNat q) :
    (s.w - s.r).toNat = q.length ∧ s.ring = q := by
  have hlen : (s.w - s.r).toNat = q.length := by
    rw [UInt64.toNat_sub]
    exact hq.sub_mod (by decide)
  refine ⟨hlen, List.ext_getElem (by simp [State.ring, hlen]) fun j hj hj' => ?_⟩
  simp only [State.ring, List.getElem_map, List.getElem_range]
  exact hq.cell (by decide) hj'

/-- **The transmit ring of the UART**, for any number of writers and handlers and whenever the
device is idle: the counters are at most the size of the ring apart; the bytes written to `THR` are
a prefix of the bytes accepted, the rest of which lies in the ring, apart from the byte that the
holder of the lock has in hand between the two; and nobody sleeps on `&uart_tx_r` while the lock is
free and the ring is not full. -/
theorem transmit_ring (h : system.Reach s) :
    (s.w - s.r).toNat ≤ UART_TX_BUF_SIZE ∧
    s.accepted = s.sent ++ s.hand ++ s.ring ∧
    (s.lock = none → s.hand = [] ∧ (¬ s.Full → ∀ p, s.asleep p = false)) := by
  have hinv := inv_of_reach h
  obtain ⟨q, hq, hacc⟩ := hinv.ring
  obtain ⟨hlen, hring⟩ := ring_eq hq
  refine ⟨hlen ▸ hq.length_le, hring ▸ hacc, fun hfree => ⟨State.hand_of_free hfree, ?_⟩⟩
  intro hfull p
  by_contra hne
  obtain ⟨t, -, -, ht, -⟩ := hinv.owed p (.inl (by simpa using hne)) hfull
  rw [hfree] at ht
  cases ht

/-- The driver at the start. -/
def fresh : State where
  buf _ := 0
  w := 0
  r := 0
  lock := none
  panicked := false
  asleep _ := false
  point _ := .out
  under _ := none
  accepted := []
  sent := []

/-- One writer puts a byte while the device is busy. -/
theorem transmit_ring_one_byte :
    ∃ s, system.Reach s ∧ s.accepted = [65] ∧ s.sent = [] ∧ s.lock = none ∧ s.ring = [65] := by
  have h0 : system.Reach fresh :=
    .init ⟨rfl, rfl, rfl, fun _ => rfl, fun _ => rfl, rfl, rfl⟩
  let p : Slot := ⟨0, by decide⟩
  have h1 := h0.step (Step.call (p := p) 65 rfl (by simp [State.Interrupted, fresh]))
  have h2 := h1.step (Step.acquire (p := p) (c := 65) rfl
    (by simp [State.Interrupted, State.goto, fresh]) rfl)
  have h3 := h2.step (Step.check (p := p) (c := 65) rfl rfl)
  have h4 := h3.step (Step.put (p := p) (c := 65) rfl (by show ¬ (0 : UInt64) = 0 + 32; decide))
  have h5 := h4.step (Step.busy (t := .proc p) rfl (by show (0 : UInt64) + 1 ≠ 0; decide))
  have h6 := h5.step (Step.release (t := .proc p) rfl)
  exact ⟨_, h6, rfl, rfl, rfl, (transmit_ring h6).2.1.symm⟩

end Xv6.Uart
