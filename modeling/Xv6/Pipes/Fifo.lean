import Mathlib.Data.List.Infix
import Xv6.Lib.Ring
import Xv6.Pipes.Model

/-!
# Pipes are exact FIFOs

The counters `nread` and `nwrite` wrap at 2^32, the ring index is taken modulo `PIPESIZE`. `Exact`
ties them to the recorded history: each counter is the length of its history modulo 2^32, and the
ring holds what was sent and not yet received. `put` and `take` keep it under the tests the code
makes before them, hence the loops of `pipewrite` and `piperead` and every step do.
-/

namespace Xv6.Pipes

open Lib

/-- The pipe agrees with its history. -/
structure Exact (pi : Pipe) : Prop where
  nread : pi.nread.toNat = pi.received.length % 2 ^ 32
  nwrite : pi.nwrite.toNat = pi.sent.length % 2 ^ 32
  received : pi.received <+: pi.sent
  ring : Ring.Holds PIPESIZE pi.data pi.sent pi.received.length

namespace Exact

variable {pi : Pipe}

theorem full_iff (h : Exact pi) : pi.nwrite = pi.nread + UInt32.ofNat PIPESIZE ↔
    pi.sent.length = pi.received.length + PIPESIZE := by
  have hsize : PIPESIZE = 512 := rfl
  have hroom := h.ring.room
  have hle := h.ring.taken_le
  have hto : (pi.nread + UInt32.ofNat PIPESIZE).toNat =
      (pi.received.length + PIPESIZE) % 2 ^ 32 := by
    rw [UInt32.toNat_add, h.nread, UInt32.toNat_ofNat', Nat.add_mod_mod, Nat.mod_add_mod]
  rw [← UInt32.toNat_inj, hto, h.nwrite, eq_comm]
  exact (Ring.mod_eq_iff (M := 2 ^ 32) (by omega) (by omega)).trans eq_comm

theorem empty_iff (h : Exact pi) :
    pi.nread = pi.nwrite ↔ pi.received.length = pi.sent.length := by
  have hsize : PIPESIZE = 512 := rfl
  have hroom := h.ring.room
  rw [← UInt32.toNat_inj, h.nread, h.nwrite, eq_comm]
  exact (Ring.mod_eq_iff (M := 2 ^ 32) h.ring.taken_le (by omega)).trans eq_comm

/-- The number of bytes in the ring, as the counters give it. -/
theorem toNat_sub (h : Exact pi) :
    (pi.nwrite - pi.nread).toNat = pi.sent.length - pi.received.length := by
  have hsize : PIPESIZE = 512 := rfl
  have hroom := h.ring.room
  rw [UInt32.toNat_sub, h.nread, h.nwrite]
  exact Ring.sub_mod_eq (M := 2 ^ 32) h.ring.taken_le (by omega)

theorem cell_index (h : Exact pi) (j : ℕ) :
    (pi.nread + UInt32.ofNat j).toNat % PIPESIZE = (pi.received.length + j) % PIPESIZE := by
  rw [UInt32.toNat_add, h.nread, UInt32.toNat_ofNat', Nat.add_mod_mod, Nat.mod_add_mod]
  exact Ring.mod_mod_cell (by decide) _

theorem received_take (h : Exact pi) : pi.sent.take pi.received.length = pi.received :=
  (List.prefix_iff_eq_take.mp h.received).symm

/-- What was sent and not received lies in the ring. -/
theorem sent_eq (h : Exact pi) : pi.sent = pi.received ++ pi.buffered := by
  have hbuf : pi.buffered = pi.sent.drop pi.received.length := by
    rw [h.ring.drop_eq, Pipe.buffered, h.toNat_sub]
    exact List.map_congr_left fun j _ => by rw [h.cell_index]
  rw [hbuf]
  conv_lhs => rw [← List.take_append_drop pi.received.length pi.sent, h.received_take]

theorem alloc (data : ℕ → UInt8) : Exact (.alloc data) :=
  ⟨rfl, rfl, List.nil_prefix, Ring.Holds.empty _ _⟩

theorem put (h : Exact pi) (hfull : pi.nwrite ≠ pi.nread + UInt32.ofNat PIPESIZE) (ch : UInt8) :
    Exact (pi.put ch) := by
  have hroom := h.ring.room
  have hle := h.ring.taken_le
  have hne := mt h.full_iff.mpr hfull
  refine ⟨h.nread, ?_, h.received.trans (List.prefix_append _ _), ?_⟩
  · show (pi.nwrite + 1).toNat = (pi.sent ++ [ch]).length % 2 ^ 32
    rw [UInt32.toNat_add, h.nwrite, List.length_append]
    simp
  · have hcell : pi.nwrite.toNat % PIPESIZE = pi.sent.length % PIPESIZE := by
      rw [h.nwrite]
      exact Ring.mod_mod_cell (by decide) _
    show Ring.Holds PIPESIZE (Function.update pi.data (pi.nwrite.toNat % PIPESIZE) ch) _ _
    rw [hcell]
    exact h.ring.put (by omega)

theorem take (h : Exact pi) (hempty : pi.nread ≠ pi.nwrite) : Exact pi.take := by
  have hle := h.ring.taken_le
  have hlt : pi.received.length < pi.sent.length := by
    have := mt h.empty_iff.mpr hempty
    omega
  have hfront : pi.front = pi.sent[pi.received.length] := by
    rw [← h.ring.front hlt, Pipe.front, h.nread]
    exact congrArg pi.data (Ring.mod_mod_cell (by decide) _)
  have htaken : pi.received ++ [pi.front] = pi.sent.take (pi.received.length + 1) := by
    rw [List.take_add_one, h.received_take, List.getElem?_eq_getElem hlt, hfront]
    rfl
  refine ⟨?_, h.nwrite, ?_, ?_⟩
  · show (pi.nread + 1).toNat = (pi.received ++ [pi.front]).length % 2 ^ 32
    rw [UInt32.toNat_add, h.nread, List.length_append]
    simp
  · show pi.received ++ [pi.front] <+: pi.sent
    rw [htaken]
    exact List.take_prefix _ _
  · show Ring.Holds PIPESIZE pi.data pi.sent (pi.received ++ [pi.front]).length
    rw [List.length_append]
    exact h.ring.take hlt

theorem pipeclose (h : Exact pi) (writable : Bool) : Exact (pi.pipeclose writable) := by
  cases writable <;> exact ⟨h.nread, h.nwrite, h.received, h.ring⟩

/-! ### The loops -/

theorem writeFrom (h : Exact pi) (src : ℕ → Option UInt8) (killed : ℕ → Bool) (k i : ℕ) :
    Exact (writeFrom src killed k i pi).1 := by
  induction k generalizing i pi with
  | zero => exact h
  | succ k ih =>
    simp only [Pipes.writeFrom]
    split
    · exact h
    · split
      · exact h
      · rename_i hfull
        cases src i with
        | none => exact h
        | some ch => exact ih (h.put hfull ch) (i + 1)

theorem readFrom (h : Exact pi) (dst : ℕ → Bool) (k i : ℕ) : Exact (readFrom dst k i pi).1 := by
  induction k generalizing i pi with
  | zero => exact h
  | succ k ih =>
    simp only [Pipes.readFrom]
    split
    · exact h
    · rename_i hempty
      split
      · exact ih (h.take hempty) (i + 1)
      · exact h.take hempty

theorem runCall (h : Exact pi) (killed : ℕ → Bool) (c : Call) : Exact (runCall killed pi c).1 := by
  cases c with
  | none => exact h
  | write src n i => exact h.writeFrom src killed _ i
  | read dst n =>
    simp only [Pipes.runCall]
    split
    · split <;> exact h
    · exact h.readFrom dst _ 0

end Exact

/-! ### Reads that take nothing -/

/-- The copying loop only adds to what was received. -/
theorem readFrom_received_le (dst : ℕ → Bool) (k i : ℕ) (pi : Pipe) :
    pi.received.length ≤ (readFrom dst k i pi).1.received.length := by
  induction k generalizing i pi with
  | zero => simp [readFrom]
  | succ k ih =>
    have htake : pi.received.length ≤ pi.take.received.length := by simp [Pipe.take]
    simp only [readFrom]
    split
    · exact le_refl _
    · split
      · exact htake.trans (ih (i + 1) pi.take)
      · exact htake

/-- A copying loop with something to copy that takes no byte has found the pipe empty. -/
theorem readFrom_takes_none {dst : ℕ → Bool} {k i : ℕ} {pi : Pipe} (hk : 0 < k)
    (h : (readFrom dst k i pi).1.received = pi.received) : pi.nread = pi.nwrite := by
  obtain ⟨k, rfl⟩ : ∃ m, k = m + 1 := ⟨k - 1, by omega⟩
  have htake : pi.take.received.length = pi.received.length + 1 := by simp [Pipe.take]
  by_contra hne
  simp only [readFrom, if_neg hne] at h
  split at h
  · have hle := readFrom_received_le dst k (i + 1) pi.take
    rw [h] at hle
    omega
  · rw [h] at htake
    omega

/-- A call of `piperead` that takes no byte and returns 0 has found the pipe empty and the write end
closed. -/
theorem runCall_read_zero {killed : ℕ → Bool} {dst : ℕ → Bool} {n : ℤ} {pi : Pipe} (hn : 0 < n)
    (hret : (runCall killed pi (.read dst n)).2 = .ret 0)
    (htaken : (runCall killed pi (.read dst n)).1.received = pi.received) :
    pi.nread = pi.nwrite ∧ pi.writeopen = false := by
  by_cases hwait : pi.nread = pi.nwrite ∧ pi.writeopen
  · simp only [runCall, if_pos hwait] at hret
    split at hret <;> simp at hret
  · simp only [runCall, if_neg hwait] at htaken
    have hempty := readFrom_takes_none (by omega) htaken
    simp only [hempty, true_and, Bool.not_eq_true] at hwait
    exact ⟨hempty, hwait⟩

/-! ### The whole run -/

variable {P : Type} [DecidableEq P]

theorem Exact.step {s s' : State P} {l : Label P} (h : Exact s.pipe) (hs : Step s l s') :
    Exact s'.pipe := by
  cases hs with
  | write src n hnone => exact h
  | read dst n hnone => exact h
  | run killed hcall => exact h.runCall killed _
  | close writable => exact h.pipeclose writable

theorem exact_of_reach {s : State P} (h : (system P).Reach s) : Exact s.pipe := by
  induction h with
  | init h0 =>
    obtain ⟨data, rfl⟩ := h0
    exact Exact.alloc data
  | step _ hs ih => exact ih.step hs

/-- In every state of every run the ring holds at most `PIPESIZE` bytes, and what went in is what
came out followed by what the ring holds. A `piperead` of `n > 0` bytes that takes no byte and
returns 0 does so on an empty pipe whose write end is closed.
Source: `pipe.c` `pipewrite`, `piperead`. -/
theorem pipe_exact_fifo {s : State P} (h : (system P).Reach s) :
    (s.pipe.nwrite - s.pipe.nread).toNat ≤ PIPESIZE ∧
    s.pipe.sent = s.pipe.received ++ s.pipe.buffered ∧
    ∀ (p : P) (dst : ℕ → Bool) (n : ℤ) (s' : State P), s.call p = .read dst n → 0 < n →
      Step s (.run p (.ret 0)) s' → s'.pipe.received = s.pipe.received →
      s.pipe.buffered = [] ∧ s.pipe.writeopen = false := by
  have hex := exact_of_reach h
  refine ⟨?_, hex.sent_eq, ?_⟩
  · rw [hex.toNat_sub]
    exact hex.ring.room
  · intro p dst n s' hcall hn hs htaken
    generalize hl : Label.run p (.ret 0) = l at hs
    cases hs with
    | run killed hne =>
      obtain ⟨rfl, hret⟩ : p = _ ∧ _ := Label.run.inj hl
      rw [hcall] at hret htaken
      obtain ⟨hempty, hclosed⟩ := runCall_read_zero hn hret.symm htaken
      refine ⟨?_, hclosed⟩
      rw [Pipe.buffered, hempty]
      simp
    | write src m hnone => cases hl
    | read dst m hnone => cases hl
    | close writable => cases hl

/-- One process writes two bytes, another reads one of them. -/
theorem pipe_exact_fifo_two : ∃ s : State Bool, (system Bool).Reach s ∧
    s.pipe.sent = [104, 105] ∧ s.pipe.received = [104] ∧
    (s.pipe.nwrite - s.pipe.nread).toNat ≤ PIPESIZE ∧
    s.pipe.sent = s.pipe.received ++ s.pipe.buffered := by
  have h0 : (system Bool).Reach ⟨.alloc fun _ => 0, fun _ => .none⟩ := .init ⟨_, rfl⟩
  have h1 := h0.step (.write (p := true) (fun i => [104, 105][i]?) 2 rfl)
  have h2 := h1.step (.run (p := true) (fun _ => false) (by simp))
  have h3 := h2.step (.read (p := false) (fun _ => true) 1 rfl)
  have h4 := h3.step (.run (p := false) (fun _ => false) (by simp))
  exact ⟨_, h4, by decide, by decide, (pipe_exact_fifo h4).1, (pipe_exact_fifo h4).2.1⟩

end Xv6.Pipes
