import Xv6.Console.Lines
import Xv6.Pipes.Fifo

/-!
# Reads into memory that faults

`piperead` and `consoleread` advance the read index before they copy the byte out. What a call takes
is therefore what it returns only if every copy succeeds: the byte whose copy fails is gone, and no
later read delivers it. A read of the console also takes a control-D that it does not count, and one
that is killed while it sleeps loses the bytes it has.

The ring may be in any state here. A byte taken from it is the first of the bytes that its two indices
delimit, also where they wrap.
-/

namespace Xv6

/-! ### Rings with wrapped indices -/

theorem range_map_wrapped {f : UInt32 → UInt8} {a b : UInt32} (h : a ≠ b) :
    ((List.range (b - a).toNat).map fun j => f (a + UInt32.ofNat j)) =
      f a :: (List.range (b - (a + 1)).toNat).map fun j => f (a + 1 + UInt32.ofNat j) := by
  have hone : (b - (a + 1)).toNat + 1 = (b - a).toNat := by
    have hne : a.toNat ≠ b.toNat := fun he => h (UInt32.toNat_inj.mp he)
    have ha := a.toNat_lt
    have hb := b.toNat_lt
    rw [UInt32.toNat_sub, UInt32.toNat_sub, UInt32.toNat_add, UInt32.toNat_one]
    omega
  rw [← hone, List.range_succ_eq_map, List.map_cons, List.map_map]
  congr 1
  · simp
  · refine List.map_congr_left fun j _ => congrArg f ?_
    rw [Nat.succ_eq_add_one, UInt32.ofNat_add, UInt32.add_assoc, UInt32.add_comm 1]
    rfl

/-! ### Pipes -/

namespace Pipes

variable {pi : Pipe}

/-- `ch = pi->data[pi->nread++ % PIPESIZE]` takes the first byte. -/
theorem Pipe.buffered_take (h : pi.nread ≠ pi.nwrite) :
    pi.buffered = pi.front :: pi.take.buffered :=
  range_map_wrapped (f := fun a => pi.data (a.toNat % PIPESIZE)) h

/-- How a read ends: a copy fails, at a byte that is gone then, or none does. -/
theorem readFrom_takes (dst : ℕ → Bool) (k i : ℕ) (pi : Pipe) :
    ∃ m, m ≤ k ∧ m ≤ pi.buffered.length ∧ (∀ j < m, dst (i + j) = true) ∧
      (readFrom dst k i pi).2 = .ret (i + m : ℕ) ∧
      ((m = k ∨ m = pi.buffered.length) ∧
          (readFrom dst k i pi).1.buffered = pi.buffered.drop m ∧
          (readFrom dst k i pi).1.received = pi.received ++ pi.buffered.take m ∨
        m < k ∧ m < pi.buffered.length ∧ dst (i + m) = false ∧
          (readFrom dst k i pi).1.buffered = pi.buffered.drop (m + 1)) := by
  induction k generalizing i pi with
  | zero => exact ⟨0, by simp, by simp, by simp, by simp [readFrom], .inl (by simp [readFrom])⟩
  | succ k ih =>
    by_cases hempty : pi.nread = pi.nwrite
    · have hnil : pi.buffered = [] := by simp [Pipe.buffered, hempty]
      exact ⟨0, by simp, by simp, by simp, by simp [readFrom, hempty],
        .inl (by simp [readFrom, hempty, hnil])⟩
    · have htake := Pipe.buffered_take hempty
      cases hdst : dst i with
      | false =>
        refine ⟨0, by simp, by simp, by simp, by simp [readFrom, hempty, hdst], .inr ?_⟩
        simp [readFrom, hempty, hdst, htake]
      | true =>
        obtain ⟨m, hk, hle, hok, hret, hends⟩ := ih (i + 1) pi.take
        have hadd (j : ℕ) : i + 1 + j = i + (j + 1) := by omega
        simp only [readFrom, if_neg hempty, hdst, if_true]
        refine ⟨m + 1, by omega, by simpa [htake] using hle, ?_, by rw [hret, hadd], ?_⟩
        · rintro (_ | j) hj
          · exact hdst
          · exact hadd j ▸ hok j (by omega)
        · rw [htake, List.length_cons, Nat.add_right_cancel_iff, Nat.add_right_cancel_iff]
          refine hends.imp (fun h => ⟨h.1, h.2.1, ?_⟩) fun h =>
            ⟨Nat.succ_lt_succ h.1, Nat.succ_lt_succ h.2.1, hadd m ▸ h.2.2.1, h.2.2.2⟩
          rw [h.2.2, List.take_succ_cons]
          simp [Pipe.take]

/-- `piperead` has taken from the pipe what it returns. -/
structure Removed (pi pi' : Pipe) (r : ℤ) : Prop where
  le : r.toNat ≤ pi.buffered.length
  buffered : pi'.buffered = pi.buffered.drop r.toNat
  received : pi'.received = pi.received ++ pi.buffered.take r.toNat

/-- `piperead` takes what it returns if and only if each byte that it takes can be copied. -/
theorem removed_iff {killed : ℕ → Bool} {dst : ℕ → Bool} {n r : ℤ}
    (hret : (runCall killed pi (.read dst n)).2 = .ret r) :
    Removed pi (runCall killed pi (.read dst n)).1 r ↔
      ∀ i : ℕ, i < n → i < pi.buffered.length → dst i = true := by
  by_cases hwait : pi.nread = pi.nwrite ∧ pi.writeopen
  · have hnil : pi.buffered = [] := by simp [Pipe.buffered, hwait.1]
    simp only [runCall, if_pos hwait] at hret ⊢
    split_ifs at hret ⊢ with hk
    cases hret
    exact iff_of_true ⟨by simp, by simp, by simp⟩ (by simp [hnil])
  · simp only [runCall, if_neg hwait] at hret ⊢
    obtain ⟨m, hk, hle, hok, hm, hends⟩ := readFrom_takes dst n.toNat 0 pi
    simp only [Nat.zero_add] at hok hm hends
    obtain rfl : (m : ℤ) = r := Out.ret.inj (hm.symm.trans hret)
    obtain ⟨hall, hbuf, hrec⟩ | ⟨hn, hlen, hbad, hbuf⟩ := hends
    · refine iff_of_true ⟨hle, hbuf, hrec⟩ fun i hi hlen => hok i ?_
      omega
    · refine iff_of_false (fun h => ?_) fun h => ?_
      · have := congrArg List.length (hbuf.symm.trans h.buffered)
        simp only [List.length_drop, Int.toNat_natCast] at this
        omega
      · exact Bool.false_ne_true (hbad.symm.trans (h m (by omega) hlen))

end Pipes

/-! ### The console -/

namespace Console

variable {cs : Cons}

/-- `c = cons.buf[cons.r++ % INPUT_BUF]` takes the first byte. -/
theorem Cons.committed_pop (h : cs.r ≠ cs.w) :
    cs.committed = cs.buf (cs.r.toNat % INPUT_BUF) :: { cs with r := cs.r + 1 }.committed :=
  range_map_wrapped (f := fun a => cs.buf (a.toNat % INPUT_BUF)) h

/-- The bytes up to the end of a line, which control-D does not belong to. -/
def firstLine : List UInt8 → List UInt8
  | [] => []
  | c :: q => if c = ctrl 'D' then [] else if c = newline then [c] else c :: firstLine q

/-- A reader with `i` bytes that wants `m` more does not lose a byte of the queue `q`: the bytes up to
the end of the line can be copied; it does not find control-D first; and it is not killed when it has
bytes and the queue has no more. -/
structure Keeps (dst : ℕ → Bool) (killed : Bool) (m i : ℕ) (q : List UInt8) : Prop where
  copies : ∀ j < ((firstLine q).take m).length, dst (i + j) = true
  eof : 0 < m → i = 0 → q.head? ≠ some (ctrl 'D')
  kill : killed = true → ctrl 'D' ∉ q → newline ∉ q → q.length < m → i = 0 ∧ q = []

/-- A section of `consoleread` takes what it copies, and is not killed with bytes. -/
structure Exact (cs : Cons) (i : ℕ) (out : Cons × List UInt8 × Exit) : Prop where
  takes : cs.committed = out.2.1 ++ out.1.committed
  kill : out.2.2 = .killed → i = 0 ∧ out.2.1 = []

section

variable {dst : ℕ → Bool} {killed : Bool} {m i : ℕ} {q : List UInt8} {c : UInt8}

theorem keeps_nil : Keeps dst killed (m + 1) i [] ↔ (killed = true → i = 0) :=
  ⟨fun h hk => (h.kill hk (by simp) (by simp) (by simp)).1,
    fun h => ⟨by simp [firstLine], by simp, fun hk _ _ _ => ⟨h hk, rfl⟩⟩⟩

theorem keeps_eof : Keeps dst killed (m + 1) i (ctrl 'D' :: q) ↔ i ≠ 0 :=
  ⟨fun h hi => h.eof (by simp) hi rfl,
    fun h => ⟨by simp [firstLine], fun _ hi => absurd hi h, fun _ hd => absurd (by simp) hd⟩⟩

theorem keeps_line (hd : newline ≠ ctrl 'D') :
    Keeps dst killed (m + 1) i (newline :: q) ↔ dst i = true :=
  ⟨fun h => h.copies 0 (by simp [firstLine, hd]), fun h => ⟨by simp [firstLine, hd, h],
    by simp [hd], fun _ _ hn => absurd (by simp) hn⟩⟩

theorem keeps_cons (hd : c ≠ ctrl 'D') (hn : c ≠ newline) :
    Keeps dst killed (m + 1) i (c :: q) ↔ dst i = true ∧ Keeps dst killed m (i + 1) q := by
  have hadd (j : ℕ) : i + 1 + j = i + (j + 1) := by omega
  have hline : (firstLine (c :: q)).take (m + 1) = c :: (firstLine q).take m := by
    simp [firstLine, hd, hn]
  constructor
  · intro h
    have hcopies := h.copies
    rw [hline] at hcopies
    refine ⟨hcopies 0 (by simp), fun j hj => hadd j ▸ hcopies (j + 1) (Nat.succ_lt_succ hj), by simp,
      fun hk hd' hn' hlen => ?_⟩
    have := h.kill hk (by simp [hd', hd.symm]) (by simp [hn', hn.symm]) (Nat.succ_lt_succ hlen)
    simp at this
  · rintro ⟨h0, h⟩
    refine ⟨?_, by simp [hd], fun hk hd' hn' hlen => ?_⟩
    · rw [hline]
      rintro (_ | j) hj
      · exact h0
      · exact hadd j ▸ h.copies j (Nat.lt_of_succ_lt_succ hj)
    · have := h.kill hk (fun hx => hd' (List.mem_cons_of_mem c hx))
        (fun hx => hn' (List.mem_cons_of_mem c hx)) (Nat.lt_of_succ_lt_succ hlen)
      simp at this

/-- A byte that is taken without a copy is lost. -/
theorem not_exact_pop (hr : cs.r ≠ cs.w) (exit : Exit) :
    ¬ Exact cs i ({ cs with r := cs.r + 1 }, [], exit) := fun h => by
  have := congrArg List.length ((Cons.committed_pop hr).symm.trans h.takes)
  simp at this

theorem readFrom_exact {target : UInt32} {k : ℕ} (hk : 0 < k → k + i = target.toNat) :
    Exact cs i (readFrom dst killed target k i cs) ↔ Keeps dst killed k i cs.committed := by
  induction k generalizing i cs with
  | zero => exact iff_of_true ⟨rfl, by simp [readFrom]⟩ ⟨by simp, by simp, by simp⟩
  | succ k ih =>
    by_cases hempty : cs.r = cs.w
    · have hnil : cs.committed = [] := by simp [Cons.committed, Cons.bytes, hempty]
      rw [hnil, keeps_nil, readFrom, if_pos hempty]
      refine ⟨fun h hk => (h.kill (by simp [hk])).1, fun h => ⟨rfl, fun hk => ⟨h ?_, rfl⟩⟩⟩
      by_contra hne
      simp [hne] at hk
    · have htarget := hk (by simp)
      have hsaved : UInt32.ofNat (k + 1) < target ↔ i ≠ 0 := by
        have hlt : k + 1 < 2 ^ 32 := by have := target.toNat_lt; omega
        rw [UInt32.lt_iff_toNat_lt, UInt32.toNat_ofNat_of_lt' hlt]
        omega
      have hpop := Cons.committed_pop hempty
      rw [hpop]
      simp only [readFrom, if_neg hempty]
      generalize hc : cs.buf (cs.r.toNat % INPUT_BUF) = c at hpop ⊢
      split_ifs with hd hlt hdst hn
      · subst hd
        rw [keeps_eof]
        exact iff_of_true ⟨by simp [Cons.committed, Cons.bytes], by simp⟩ (hsaved.mp hlt)
      · subst hd
        rw [keeps_eof]
        exact iff_of_false (not_exact_pop hempty _) fun hi => hlt (hsaved.mpr hi)
      · refine iff_of_false (not_exact_pop hempty _) fun h => ?_
        have h0 := h.copies 0 (by rw [firstLine, if_neg hd]; split <;> simp)
        exact absurd (hdst.symm.trans h0) Bool.false_ne_true
      · subst hn
        rw [keeps_line hd]
        exact iff_of_true ⟨hpop, by simp⟩ (by simpa using hdst)
      · rw [keeps_cons hd hn, ← ih (by omega), and_iff_right (by simpa using hdst)]
        refine ⟨fun h => ⟨?_, fun hx => absurd (h.kill hx).2 (by simp)⟩, fun h => ⟨?_, fun hx => ?_⟩⟩
        · exact List.cons.inj (hpop.symm.trans h.takes) |>.2
        · exact hpop.trans (congrArg (c :: ·) h.takes)
        · exact absurd (h.kill hx).1 (by simp)

end

end Console

/-! ### Both -/

open Pipes Console in
/-- **A read removes what it returns** exactly if it loses no byte. For every state of the pipe and every
call of `piperead` that returns, it takes as many bytes as it returns, from the front, if and only if
the copies of all bytes that it asks for and finds succeed. For every state of the console, a section of
`consoleread` takes the bytes it copies, and the number of all bytes that the call has copied is what it
returns, if it returns, if and only if `Keeps` holds. -/
theorem read_removes_what_it_returns (pi : Pipe) (cs : Cons) :
    (∀ (dst : ℕ → Bool) (n : ℤ) (killed : ℕ → Bool) (r : ℤ),
      (runCall killed pi (.read dst n)).2 = .ret r →
      (Removed pi (runCall killed pi (.read dst n)).1 r ↔
        ∀ i : ℕ, i < n → i < pi.buffered.length → dst i = true)) ∧
    ∀ (c : Console.Call) (killed : Bool),
      (cs.committed = (c.run killed cs).2.1 ++ (c.run killed cs).1.committed ∧
        (∀ r, (c.run killed cs).2.2.ret (c.got ++ (c.run killed cs).2.1) = some r →
          r.toNat = (c.got ++ (c.run killed cs).2.1).length)) ↔
      Keeps c.dst killed (c.n.toNatClampNeg - c.got.length) c.got.length cs.committed := by
  refine ⟨fun dst n killed r => removed_iff, fun c killed => ?_⟩
  rw [← readFrom_exact c.toNat_target]
  change _ ↔ Exact cs c.got.length (c.run killed cs)
  refine ⟨fun h => ⟨h.1, fun hk => ?_⟩, fun h => ⟨h.takes, fun r hr => ?_⟩⟩
  · have := h.2 (-1) (by rw [hk]; rfl)
    simpa [List.length_eq_zero_iff] using this.symm
  · cases hexit : (c.run killed cs).2.2 with
    | asleep => simp [hexit, Exit.ret] at hr
    | killed =>
      rw [hexit] at hr
      obtain ⟨hgot, hbytes⟩ := h.kill hexit
      rw [← Option.some.inj hr, List.length_append, hgot, hbytes]
      rfl
    | full | line | eof saved | fault =>
      rw [hexit] at hr
      rw [← Option.some.inj hr, Int.toNat_natCast]

/-- A pipe that holds `hi`, and the console after the line `a` was typed, and reads of both that do not
fault. -/
theorem read_removes_what_it_returns_two :
    (Pipes.runCall (fun _ => false) ⟨fun i => if i = 0 then 104 else 105, 0, 2, true, true, [], []⟩
        (.read (fun _ => true) 1)).1.buffered = [105] ∧
    (Console.Cons.committed ⟨fun i => if i = 0 then 97 else 10, 0, 2, 2⟩ =
      [97, 10] ++ (Console.Call.run false ⟨fun _ => true, 2, []⟩
        ⟨fun i => if i = 0 then 97 else 10, 0, 2, 2⟩).1.committed) := by
  obtain ⟨hpipe, hcons⟩ := read_removes_what_it_returns
    ⟨fun i => if i = 0 then 104 else 105, 0, 2, true, true, [], []⟩
    ⟨fun i => if i = 0 then 97 else 10, 0, 2, 2⟩
  constructor
  · have h := (hpipe (fun _ => true) 1 (fun _ => false) 1 (by decide +kernel)).mpr fun _ _ _ => rfl
    rw [h.buffered]
    decide +kernel
  · exact ((hcons ⟨fun _ => true, 2, []⟩ false).mpr ⟨fun _ _ => rfl, fun _ _ => by decide +kernel,
      fun h => absurd h Bool.false_ne_true⟩).1

/-- **A read that faults loses a byte.** A pipe holds `hi`: a read whose destination is invalid returns
0, and the pipe holds `i`. The console holds the line `a`: a read whose destination is invalid returns
0, and the console holds the newline. -/
theorem faulting_read_loses_a_byte :
    (∃ s : Pipes.State Bool, (Pipes.system Bool).Reach s ∧ s.pipe.buffered = [104, 105] ∧
      (Pipes.runCall (fun _ => false) s.pipe (.read (fun _ => false) 2)).2 = .ret 0 ∧
      (Pipes.runCall (fun _ => false) s.pipe (.read (fun _ => false) 2)).1.buffered = [105]) ∧
    ∃ s : Console.State Unit, (Console.system Unit).Reach s ∧ s.cons.committed = [97, 10] ∧
      (Console.Call.run false ⟨fun _ => false, 2, []⟩ s.cons).2.2.ret [] = some 0 ∧
      (Console.Call.run false ⟨fun _ => false, 2, []⟩ s.cons).1.committed = [10] := by
  constructor
  · have h0 : (Pipes.system Bool).Reach ⟨.alloc fun _ => 0, fun _ => .none⟩ := .init ⟨_, rfl⟩
    have h1 := h0.step (.write (p := true) (fun i => if i = 0 then some 104 else some 105) 2 rfl)
    have h2 := h1.step (.run (p := true) (fun _ => false) (by simp))
    exact ⟨_, h2, by decide +kernel, by decide +kernel, by decide +kernel⟩
  · have h0 : (Console.system Unit).Reach ⟨⟨fun _ => 0, 0, 0, 0⟩, fun _ => none⟩ := .init ⟨_, rfl⟩
    refine ⟨_, h0.run_all (show Lib.Lts.run Console.next [.intr 97, .intr 10] _ = _ from rfl), ?_⟩
    exact ⟨by decide +kernel, by decide +kernel, by decide +kernel⟩

end Xv6
