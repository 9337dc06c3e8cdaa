import Mathlib.Data.List.Infix
import Xv6.Console.Model
import Xv6.Lib.Ring

/-!
# The line discipline of the console

What the console is for: a queue of bytes that readers may take, and the line that is being typed. The
interrupt handler edits the line, and hands it over with a newline, with control-D, or when nothing
more fits. `lineSystem` is that machine, and `Rep` says how the ring and its wrapped indices stand for
the two lists. One lemma for each operation of `console.c` shows that it does on the ring what the
machine does on the lists.
-/

namespace Xv6.Console

open Lib

/-! ### The abstract machine -/

/-- The bytes handed over to the readers and the line being typed. Together they fit into the buffer,
and the line holds no byte that would have completed it. -/
structure Lines where
  committed : List UInt8
  line : List UInt8
  fits : committed.length + line.length ≤ INPUT_BUF
  unfinished : newline ∉ line

namespace Lines

/-- Nothing has been typed. -/
def empty : Lines := ⟨[], [], by simp, by simp⟩

/-- Control-U: the line is gone. -/
def killLine (L : Lines) : Lines :=
  { L with
    line := []
    fits := Nat.le_trans (by simp) L.fits
    unfinished := by simp }

/-- Backspace: the last byte of the line is gone. -/
def backspace (L : Lines) : Lines :=
  { L with
    line := L.line.dropLast
    fits := Nat.le_trans (by simp) L.fits
    unfinished := fun h => L.unfinished (List.dropLast_subset _ h) }

/-- A byte is added to the line. If it completes the line or takes the last place, the line is handed
over. -/
def type (L : Lines) (c : UInt8) (room : L.committed.length + L.line.length < INPUT_BUF) : Lines :=
  if h : c = newline ∨ c = ctrl 'D' ∨ L.committed.length + L.line.length + 1 = INPUT_BUF then
    { committed := L.committed ++ (L.line ++ [c])
      line := []
      fits := by simp; omega
      unfinished := by simp }
  else
    { L with
      line := L.line ++ [c]
      fits := by simp; omega
      unfinished := by
        have hne : newline ≠ c := fun he => h (.inl he.symm)
        simp [L.unfinished, hne] }

/-- What a byte from the keyboard does: control-P nothing, control-U and backspace edit the line, NUL
and bytes that do not fit are dropped, a carriage return counts as a newline. -/
def intr (L : Lines) (c : UInt8) : Lines :=
  if c = ctrl 'P' then L
  else if c = ctrl 'U' then L.killLine
  else if c = ctrl 'H' ∨ c = del then L.backspace
  else if h : c ≠ 0 ∧ L.committed.length + L.line.length < INPUT_BUF then
    L.type (if c = return_ then newline else c) h.2
  else L

/-- The bytes a byte from the keyboard hands over. -/
def commits (L : Lines) (c : UInt8) : List UInt8 :=
  (L.intr c).committed.drop L.committed.length

/-- A reader has taken a part of the queue, `rest` is left. -/
def left (L : Lines) (rest : List UInt8) (h : rest <:+ L.committed) : Lines :=
  { L with
    committed := rest
    fits := Nat.le_trans (Nat.add_le_add_right h.length_le _) L.fits }

end Lines

/-- A reader that still wants `m` bytes takes from the queue. It stops after a newline. At a control-D
it stops too, and takes it only if it has no bytes to return. -/
def takeLine (killed : Bool) : ℕ → Bool → List UInt8 → (List UInt8 × Exit) × List UInt8
  | 0, _, q => (([], .full), q)
  | _ + 1, _, [] => (([], if killed then .killed else .asleep), [])
  | m + 1, got, c :: q =>
    if c = ctrl 'D' then
      if got then (([], .eof true), c :: q) else (([], .eof false), q)
    else if c = newline then (([c], .line), q)
    else
      let t := takeLine killed m true q
      ((c :: t.1.1, t.1.2), t.2)

/-- The bytes a section of a reader takes from the queue. -/
def taken (t : List UInt8 × Exit) : List UInt8 :=
  t.1 ++ if t.2 = .eof false then [ctrl 'D'] else []

/-- What is taken comes from the front of the queue. -/
theorem taken_append_takeLine (killed : Bool) (m : ℕ) (got : Bool) (q : List UInt8) :
    taken (takeLine killed m got q).1 ++ (takeLine killed m got q).2 = q := by
  induction q generalizing m got with
  | nil => cases m <;> cases killed <;> simp [takeLine, taken]
  | cons c q ih =>
    cases m with
    | zero => simp [takeLine, taken]
    | succ m =>
      simp only [takeLine]
      split_ifs with hd hg hn
      · simp [taken]
      · simp [taken, hd]
      · simp [taken]
      · simpa [taken] using ih m true

theorem takeLine_suffix (killed : Bool) (m : ℕ) (got : Bool) (q : List UInt8) :
    (takeLine killed m got q).2 <:+ q :=
  ⟨_, taken_append_takeLine killed m got q⟩

theorem length_takeLine_le (killed : Bool) (m : ℕ) (got : Bool) (q : List UInt8) :
    (takeLine killed m got q).1.1.length ≤ m := by
  induction q generalizing m got with
  | nil => cases m <;> simp [takeLine]
  | cons c q ih =>
    cases m with
    | zero => simp [takeLine]
    | succ m =>
      simp only [takeLine]
      split_ifs
      · simp
      · simp
      · simp
      · simpa using ih m true

/-- While bytes are wanted, `target` is their number and that of the bytes copied. -/
theorem Call.toNat_target (c : Call) (h : 0 < c.n.toNatClampNeg - c.got.length) :
    c.n.toNatClampNeg - c.got.length + c.got.length = c.n.toUInt32.toNat := by
  have hn := c.n.toNat_toInt
  have := toNat_toUInt32 (n := c.n) (by omega)
  omega

/-- A call of `consoleread` as its caller sees it: the request and the bytes read so far. -/
structure Reading where
  n : Int32
  got : List UInt8

/-- What a call does until it sleeps or returns. -/
def Reading.run (killed : Bool) (c : Reading) (q : List UInt8) : (List UInt8 × Exit) × List UInt8 :=
  takeLine killed (c.n.toNatClampNeg - c.got.length) (!c.got.isEmpty) q

variable {P : Type} [DecidableEq P]

/-- The lines, all bytes ever handed over to the readers, and the calls in progress. -/
structure LineState (P : Type) where
  lines : Lines
  typed : List UInt8
  call : P → Option Reading

/-- A section of the call `c` of process `p`. -/
def LineState.read (t : LineState P) (p : P) (killed : Bool) (c : Reading) : LineState P :=
  let out := c.run killed t.lines.committed
  { t with
    lines := t.lines.left out.2 (takeLine_suffix _ _ _ _)
    call := Function.update t.call p
      (if out.1.2 = .asleep then some { c with got := c.got ++ out.1.1 } else none) }

/-- One step of the machine. -/
def lineNext : Label P → LineState P → Option (LineState P)
  | .intr c, t =>
    some { t with lines := t.lines.intr c, typed := t.typed ++ t.lines.commits c }
  | .start p _ n, t =>
    if t.call p = none then some { t with call := Function.update t.call p (some ⟨n, []⟩) }
    else none
  | .run p killed, t => (t.call p).map (t.read p killed)

/-- The section of a call as an event. -/
def LineState.event (t : LineState P) (p : P) (killed : Bool) (c : Reading) : Event P :=
  let out := c.run killed t.lines.committed
  ⟨p, c.n, c.got, out.1.1, out.1.2⟩

/-- The bytes that arrive and the sections of readers. -/
def lineEvents (t : LineState P) : Label P → List (Seen P)
  | .intr c => [.typed c]
  | .start _ _ _ => []
  | .run p killed => ((t.call p).map fun c => .read (t.event p killed c)).toList

/-- The line discipline. -/
def lineSystem (P : Type) [DecidableEq P] : Lts (LineState P) (Label P) :=
  .ofFun (fun t => t = ⟨.empty, [], fun _ => none⟩) lineNext

/-! ### The ring -/

/-- The ring holds the queue `q` and the line `l` behind it: `r`, `w` and `e` stand, modulo 2^32, at
the start of the queue, between the two and at the end of the line. -/
structure Rep (cs : Cons) (q l : List UInt8) : Prop where
  ring : Ring.Queue (2 ^ 32) INPUT_BUF cs.buf cs.r.toNat cs.e.toNat (q ++ l)
  middle : cs.w.toNat = (cs.r.toNat + q.length) % 2 ^ 32

namespace Rep

variable {cs : Cons} {q l : List UInt8} {c : UInt8}

theorem init (buf : ℕ → UInt8) : Rep ⟨buf, 0, 0, 0⟩ [] [] :=
  ⟨Ring.Queue.empty _ _ _, rfl⟩

theorem length_le (h : Rep cs q l) : q.length + l.length ≤ INPUT_BUF := by
  simpa using h.ring.length_le

theorem upper (h : Rep cs q l) : cs.e.toNat = (cs.r.toNat + q.length + l.length) % 2 ^ 32 := by
  rw [h.ring.upper_eq, List.length_append, Nat.add_assoc]

theorem e_eq_w_iff (h : Rep cs q l) : cs.e = cs.w ↔ l = [] := by
  have hsize : INPUT_BUF = 128 := rfl
  have hle := h.length_le
  rw [← UInt32.toNat_inj, h.upper, h.middle, Ring.mod_eq_iff (by omega) (by omega),
    ← List.length_eq_zero_iff]
  omega

theorem r_eq_w_iff (h : Rep cs q l) : cs.r = cs.w ↔ q = [] := by
  have hsize : INPUT_BUF = 128 := rfl
  have hle := h.length_le
  have hr : cs.r.toNat = cs.r.toNat % 2 ^ 32 := (Nat.mod_eq_of_lt cs.r.toNat_lt).symm
  rw [eq_comm, ← UInt32.toNat_inj, h.middle]
  nth_rewrite 2 [hr]
  rw [Ring.mod_eq_iff (by omega) (by omega), ← List.length_eq_zero_iff]
  omega

/-- The number of bytes in the ring, `cons.e - cons.r`. -/
theorem toNat_e_sub_r (h : Rep cs q l) : (cs.e - cs.r).toNat = q.length + l.length := by
  rw [UInt32.toNat_sub, h.ring.sub_mod (by decide), List.length_append]

/-- The number of bytes in the line, `cons.e - cons.w`. -/
theorem toNat_e_sub_w (h : Rep cs q l) : (cs.e - cs.w).toNat = l.length := by
  have hsize : INPUT_BUF = 128 := rfl
  have hle := h.length_le
  rw [UInt32.toNat_sub, h.middle, h.upper, Ring.sub_mod_eq (by omega) (by omega)]
  omega

theorem unput (h : Rep cs q (l ++ [c])) : Rep { cs with e := cs.e - 1 } q l := by
  refine ⟨?_, h.middle⟩
  show Ring.Queue _ _ _ _ (cs.e - 1).toNat _
  rw [UInt32.toNat_sub]
  exact Ring.Queue.popBack (x := c) (by simpa using h.ring) (by decide)

theorem last (h : Rep cs q (l ++ [c])) : cs.buf ((cs.e - 1).toNat % INPUT_BUF) = c := by
  rw [UInt32.toNat_sub]
  exact Ring.Queue.back (q := q ++ l) (by simpa using h.ring) (by decide) (by decide)

theorem killFrom (h : Rep cs q l) (hl : newline ∉ l) : Rep (cs.killFrom l.length) q [] := by
  induction l using List.reverseRecOn generalizing cs with
  | nil => exact h
  | append_singleton l c ih =>
    have hne : cs.e ≠ cs.w := fun he => by simpa using h.e_eq_w_iff.mp he
    have hc : c ≠ newline := fun he => hl (by simp [he])
    rw [List.length_append, List.length_singleton, Cons.killFrom, h.last, if_pos ⟨hne, hc⟩]
    exact ih h.unput fun hmem => hl (by simp [hmem])

/-- `cons.buf[cons.e++ % INPUT_BUF] = c`. -/
theorem put (h : Rep cs q l) (hroom : q.length + l.length < INPUT_BUF) :
    Rep { cs with buf := Function.update cs.buf (cs.e.toNat % INPUT_BUF) c, e := cs.e + 1 }
      q (l ++ [c]) := by
  have hlen : (q ++ l).length < INPUT_BUF := by simpa using hroom
  refine ⟨?_, h.middle⟩
  show Ring.Queue _ _ _ _ (cs.e + 1).toNat _
  rw [UInt32.toNat_add, ← List.append_assoc]
  exact (h.ring.write (x := c) (by decide) hlen).push (by decide) hlen (by simp)

theorem commit (h : Rep cs q l) : Rep { cs with w := cs.e } (q ++ l) [] := by
  refine ⟨by simpa using h.ring, ?_⟩
  show cs.e.toNat = _
  rw [h.upper, List.length_append, Nat.add_assoc]

/-- The test `cons.e == cons.r+INPUT_BUF`. -/
theorem e_eq_full_iff (h : Rep cs q l) :
    cs.e = cs.r + UInt32.ofNat INPUT_BUF ↔ q.length + l.length = INPUT_BUF := by
  have hsize : INPUT_BUF = 128 := rfl
  have hle := h.length_le
  rw [← UInt32.toNat_inj, UInt32.toNat_add, h.upper, eq_comm, UInt32.toNat_ofNat', Nat.add_mod_mod,
    Ring.mod_eq_iff (by omega) (by omega)]
  omega

/-- `c = cons.buf[cons.r++ % INPUT_BUF]`. -/
theorem pop (h : Rep cs (c :: q) l) :
    cs.buf (cs.r.toNat % INPUT_BUF) = c ∧ Rep { cs with r := cs.r + 1 } q l := by
  refine ⟨Ring.Queue.front h.ring (by decide), ?_, ?_⟩
  · show Ring.Queue _ _ _ (cs.r + 1).toNat _ _
    rw [UInt32.toNat_add]
    exact Ring.Queue.pop h.ring
  · show cs.w.toNat = ((cs.r + 1).toNat + q.length) % 2 ^ 32
    rw [h.middle, UInt32.toNat_add, Nat.mod_add_mod, List.length_cons]
    congr 1
    simp
    omega

/-! ### The operations on the ring -/

variable {L : Lines}

theorem store (h : Rep cs L.committed L.line)
    (room : L.committed.length + L.line.length < INPUT_BUF) :
    Rep (cs.store c) (L.type c room).committed (L.type c room).line := by
  have hput := h.put (c := c) room
  have hfull := hput.e_eq_full_iff
  rw [List.length_append, List.length_singleton, ← Nat.add_assoc] at hfull
  simp only [Cons.store, Lines.type, hfull]
  split_ifs
  · exact hput.commit
  · exact hput

/-- The interrupt handler edits the ring as the machine edits its lines. -/
theorem consoleintr (h : Rep cs L.committed L.line) (c : UInt8) :
    Rep (cs.consoleintr c) (L.intr c).committed (L.intr c).line := by
  have hroom : cs.e - cs.r < UInt32.ofNat INPUT_BUF ↔
      L.committed.length + L.line.length < INPUT_BUF := by
    rw [UInt32.lt_iff_toNat_lt, h.toNat_e_sub_r]
    rfl
  simp only [Cons.consoleintr, Lines.intr, hroom]
  split_ifs with hP hU hH hne hc hret
  · exact h
  · rw [h.toNat_e_sub_w]
    exact h.killFrom L.unfinished
  · obtain hnil | ⟨l, x, hl⟩ := List.eq_nil_or_concat' L.line
    · exact absurd (h.e_eq_w_iff.mpr hnil) hne
    · rw [hl] at h
      simpa [Lines.backspace, hl] using h.unput
  · have hnil : L.line = [] := h.e_eq_w_iff.mp (not_not.mp hne)
    simpa [Lines.backspace, hnil] using h
  · exact h.store hc.2
  · exact h.store hc.2
  · exact h

/-- `consoleread` takes from the ring what the reader of the machine takes from the queue. -/
theorem readFrom (h : Rep cs q l) {dst : ℕ → Bool} (hdst : ∀ i, dst i = true) (killed : Bool)
    {target : UInt32} {k i : ℕ} (hk : 0 < k → k + i = target.toNat) :
    (readFrom dst killed target k i cs).2 = (takeLine killed k (decide (0 < i)) q).1 ∧
      Rep (readFrom dst killed target k i cs).1 (takeLine killed k (decide (0 < i)) q).2 l := by
  induction k generalizing cs q i with
  | zero => exact ⟨by simp [Console.readFrom, takeLine], by simpa [Console.readFrom, takeLine] using h⟩
  | succ k ih =>
    have hlt : UInt32.ofNat (k + 1) < target ↔ 0 < i := by
      have hsum := hk (by omega)
      have htarget := target.toNat_lt
      rw [UInt32.lt_iff_toNat_lt, UInt32.toNat_ofNat', Nat.mod_eq_of_lt (by omega)]
      omega
    cases q with
    | nil =>
      have hempty : cs.r = cs.w := h.r_eq_w_iff.mpr rfl
      simpa only [Console.readFrom, takeLine, if_pos hempty, true_and] using h
    | cons c q =>
      have hne : cs.r ≠ cs.w := fun he => by simpa using h.r_eq_w_iff.mp he
      obtain ⟨hfront, hpop⟩ := h.pop
      have hrec := ih hpop (i := i + 1) (fun hpos => by have := hk (by omega); omega)
      simp only [Nat.zero_lt_succ, decide_true] at hrec
      simp only [Console.readFrom, takeLine, if_neg hne, hfront, hlt, hdst, decide_eq_true_eq,
        Bool.true_eq_false, if_false]
      split_ifs with hd hi hn
      · -- the index goes back to the control-D
        simpa using h
      · exact ⟨rfl, hpop⟩
      · exact ⟨rfl, hpop⟩
      · exact ⟨by rw [hrec.1], hrec.2⟩

end Rep

/-! ### What the indices delimit -/

/-- The bytes of the ring from index `a` up to index `b`. -/
def Cons.bytes (cs : Cons) (a b : UInt32) : List UInt8 :=
  (List.range (b - a).toNat).map fun j => cs.buf ((a + UInt32.ofNat j).toNat % INPUT_BUF)

/-- The bytes the readers may take. -/
def Cons.committed (cs : Cons) : List UInt8 := cs.bytes cs.r cs.w

/-- The line being typed. -/
def Cons.line (cs : Cons) : List UInt8 := cs.bytes cs.w cs.e

namespace Rep

variable {cs : Cons} {q l : List UInt8}

theorem toNat_w_sub_r (h : Rep cs q l) : (cs.w - cs.r).toNat = q.length := by
  have hsize : INPUT_BUF = 128 := rfl
  have hle := h.length_le
  have hr : cs.r.toNat = cs.r.toNat % 2 ^ 32 := (Nat.mod_eq_of_lt cs.r.toNat_lt).symm
  rw [UInt32.toNat_sub, h.middle]
  nth_rewrite 1 [hr]
  rw [Ring.sub_mod_eq (by omega) (by omega)]
  omega

theorem committed_eq (h : Rep cs q l) : cs.committed = q := by
  refine List.ext_getElem (by simp [Cons.committed, Cons.bytes, h.toNat_w_sub_r]) fun j _ hj => ?_
  have hcell := h.ring.cell (by decide) (j := j) (by simp; omega)
  rw [List.getElem_append_left hj] at hcell
  rw [← hcell]
  simp [Cons.committed, Cons.bytes]

theorem line_eq (h : Rep cs q l) : cs.line = l := by
  refine List.ext_getElem (by simp [Cons.line, Cons.bytes, h.toNat_e_sub_w]) fun j _ hj => ?_
  have hcell := h.ring.cell (by decide) (j := q.length + j) (by simp; omega)
  rw [List.getElem_append_right (by omega)] at hcell
  simp only [Nat.add_sub_cancel_left] at hcell
  rw [← hcell]
  simp [Cons.line, Cons.bytes, h.middle, Nat.add_assoc]

end Rep

end Xv6.Console
