import Xv6.User.Regex
import Xv6.User.Ulib

/-!
# The lines of `grep`

`grep.c` `grep`: the loop over the reads with its buffer of 1024 bytes. The input is the list of the pieces
the reads return; a piece longer than what is asked for arrives in parts. Each read puts its bytes behind
the unfinished line, `lineLoop` writes the finished lines that match, and `memmove` brings what is left to
the front of the buffer.

What the loop computes is a fold over the bytes of the stream, `feed`, which knows nothing of reads: it
collects the bytes of the line and deals with the line at its newline. `grepLoop_spec` is the refinement,
whatever the pieces are.
-/

namespace Xv6.Grep

open Xv6.Lib Xv6.Ulib

/-- `sizeof(buf)`. Source: `grep.c`. -/
def BUF : ℕ := 1024

abbrev newline : UInt8 := '\n'.toUInt8

/-! ### The code -/

/-- What a read of at most `n` bytes returns, and the pieces that are left. Nothing is returned at the end
of the input, and when nothing is asked for. -/
def read (n : ℕ) : List (List UInt8) → List UInt8 × List (List UInt8)
  | [] => ([], [])
  | x :: xs => if x.length ≤ n then (x, xs) else (x.take n, x.drop n :: xs)

/-- The buffer, `p` and what has been written so far. -/
structure Scan where
  buf : Bytes
  p : ℕ
  out : List (List UInt8)

/-- The inner loop, with a bound on the number of lines. Source: `grep.c` `grep`. -/
def lineLoop (pattern : List UInt8) : ℕ → Scan → Scan
  | 0, s => s
  | n + 1, s =>
    match strchr s.buf newline (BUF - s.p) s.p with
    | none => s
    | some q =>
      let buf := Function.update s.buf q 0
      if matchText pattern (cstring buf (BUF - s.p) s.p) then
        let buf := Function.update buf q newline
        lineLoop pattern n ⟨buf, q + 1, s.out ++ [bytes buf s.p (q + 1 - s.p)]⟩
      else lineLoop pattern n ⟨buf, q + 1, s.out⟩

/-- The variables of `grep`, its input and what it has written. -/
structure State where
  buf : Bytes
  m : ℕ
  input : List (List UInt8)
  out : List (List UInt8)

/-- The buffer with the bytes of a read behind its first `m`, and the NUL byte. Source: `grep.c` `grep`. -/
def received (buf : Bytes) (m : ℕ) (piece : List UInt8) : Bytes :=
  Function.update (Bytes.copy buf m piece.length (fun i => piece.getD i 0) 0) (m + piece.length) 0

/-- The body of the loop, after a read that returned `piece`. Source: `grep.c` `grep`. -/
def afterRead (pattern : List UInt8) (s : State) (piece : List UInt8)
    (input : List (List UInt8)) : State :=
  let m := s.m + piece.length
  let r := lineLoop pattern m ⟨received s.buf s.m piece, 0, s.out⟩
  if 0 < m then ⟨memmove r.buf 0 r.p (m - r.p), m - r.p, input, r.out⟩
  else ⟨r.buf, m, input, r.out⟩

/-- The bytes that are still to be read. -/
def State.left (s : State) : ℕ := s.input.flatten.length

theorem read_flatten (n : ℕ) (input : List (List UInt8)) :
    (read n input).1 ++ (read n input).2.flatten = input.flatten := by
  match input with
  | [] => rfl
  | x :: xs =>
    rw [read]
    split_ifs with h
    · rfl
    · rw [List.flatten_cons, ← List.append_assoc, List.take_append_drop, List.flatten_cons]

variable {n : ℕ} {input : List (List UInt8)} {piece : List UInt8}

theorem read_left (h : (read n input).1 ≠ []) :
    (read n input).2.flatten.length < input.flatten.length := by
  have hlen := congrArg List.length (read_flatten n input)
  rw [List.length_append] at hlen
  have := List.length_pos_iff.mpr h
  omega

theorem read_length_le (n : ℕ) (input : List (List UInt8)) : (read n input).1.length ≤ n := by
  match input with
  | [] => exact Nat.zero_le n
  | x :: xs =>
    rw [read]
    split_ifs with h
    · exact h
    · exact List.length_take_le n x

theorem read_eq_nil (h : (read n input).1 = []) (hpieces : ∀ x ∈ input, x ≠ []) :
    input = [] ∨ n = 0 := by
  match input with
  | [] => exact .inl rfl
  | x :: xs =>
    have hx := hpieces x List.mem_cons_self
    rw [read] at h
    split_ifs at h with hn
    · exact absurd h hx
    · exact .inr ((List.take_eq_nil_iff.mp h).resolve_right hx)

theorem read_pieces (hpieces : ∀ x ∈ input, x ≠ []) : ∀ x ∈ (read n input).2, x ≠ [] := by
  match input with
  | [] => exact hpieces
  | x :: xs =>
    obtain ⟨-, hxs⟩ := List.forall_mem_cons.mp hpieces
    rw [read]
    split_ifs with h
    · exact hxs
    · refine List.forall_mem_cons.mpr ⟨fun hnil => h ?_, hxs⟩
      exact List.drop_eq_nil_iff.mp hnil

/-- The loop over the reads. Source: `grep.c` `grep`. -/
def grepLoop (pattern : List UInt8) (s : State) : State :=
  if (read (BUF - s.m - 1) s.input).1 = [] then s
  else grepLoop pattern
    (afterRead pattern s (read (BUF - s.m - 1) s.input).1 (read (BUF - s.m - 1) s.input).2)
termination_by s.left
decreasing_by
  simp only [State.left, afterRead]
  split_ifs <;> exact read_left ‹_›

/-- A call on an input that arrives in the given pieces. Source: `grep.c` `grep`. -/
def grep (pattern : List UInt8) (pieces : List (List UInt8)) : State :=
  grepLoop pattern ⟨fun _ => 0, 0, pieces, []⟩

/-! ### The stream, byte by byte -/

/-- The unfinished line and the lines written. -/
structure Lines where
  line : List UInt8
  out : List (List UInt8)

/-- One byte. A newline ends the line, unless a NUL byte hides it from `strchr`; a line that fills the
buffer is the end. -/
def feed (pattern : List UInt8) (s : Lines) (c : UInt8) : Lines :=
  if s.line.length + 1 = BUF then s
  else if c = newline ∧ 0 ∉ s.line then
    ⟨[], if matchText pattern s.line then s.out ++ [s.line ++ [newline]] else s.out⟩
  else ⟨s.line ++ [c], s.out⟩

/-- The state after the bytes `d`. -/
def feeds (pattern : List UInt8) (s : Lines) (d : List UInt8) : Lines := d.foldl (feed pattern) s

variable {pattern d w line : List UInt8} {out : List (List UInt8)} {s : Lines} {c : UInt8}

theorem feeds_cons : feeds pattern s (c :: d) = feeds pattern (feed pattern s c) d := rfl

theorem feeds_append : feeds pattern s (w ++ d) = feeds pattern (feeds pattern s w) d :=
  List.foldl_append

theorem feed_full (h : s.line.length + 1 = BUF) : feed pattern s c = s := if_pos h

theorem feeds_full (h : s.line.length + 1 = BUF) : feeds pattern s d = s := by
  induction d with
  | nil => rfl
  | cons c d ih => rw [feeds_cons, feed_full h, ih]

theorem feed_byte (h : line.length + 1 < BUF) (hc : c = newline → 0 ∈ line) :
    feed pattern ⟨line, out⟩ c = ⟨line ++ [c], out⟩ := by
  rw [feed, if_neg (Nat.ne_of_lt h), if_neg fun hn => hn.2 (hc hn.1)]

theorem feed_newline (h : line.length + 1 < BUF) (h0 : 0 ∉ line) :
    feed pattern ⟨line, out⟩ newline =
      ⟨[], if matchText pattern line then out ++ [line ++ [newline]] else out⟩ := by
  rw [feed, if_neg (Nat.ne_of_lt h), if_pos ⟨rfl, h0⟩]

theorem feeds_bytes (h : line.length + d.length < BUF) (hd : newline ∈ d → 0 ∈ line) :
    feeds pattern ⟨line, out⟩ d = ⟨line ++ d, out⟩ := by
  induction d generalizing line with
  | nil => rw [List.append_nil]; rfl
  | cons c d ih =>
    rw [List.length_cons] at h
    rw [feeds_cons, feed_byte (by omega) fun hc => hd (hc ▸ List.mem_cons_self), ih]
    · rw [List.append_assoc, List.singleton_append]
    · rw [List.length_append, List.length_singleton]
      omega
    · exact fun hn => List.mem_append_left _ (hd (List.mem_cons_of_mem _ hn))

/-- The bytes of a stream that are not read: those behind a line that fills the buffer. -/
def unread (pattern : List UInt8) : Lines → List UInt8 → List UInt8
  | _, [] => []
  | s, c :: d => if s.line.length + 1 = BUF then c :: d else unread pattern (feed pattern s c) d

theorem unread_full (h : s.line.length + 1 = BUF) : unread pattern s d = d := by
  cases d with
  | nil => rfl
  | cons c d => exact if_pos h

theorem length_feed_le : (feed pattern s c).line.length ≤ s.line.length + 1 := by
  unfold feed
  split_ifs <;> simp

/-- Bytes that fit are read. -/
theorem unread_append (h : s.line.length + w.length < BUF) :
    unread pattern s (w ++ d) = unread pattern (feeds pattern s w) d := by
  induction w generalizing s with
  | nil => rfl
  | cons c w ih =>
    rw [List.length_cons] at h
    have hlen : (feed pattern s c).line.length ≤ s.line.length + 1 := length_feed_le
    rw [List.cons_append, unread, if_neg (by omega), ih (by omega), feeds_cons]

/-- The line that is too long for the buffer. -/
theorem unread_long (hw : newline ∉ w) (hlen : BUF ≤ w.length + 1) :
    unread pattern ⟨[], out⟩ (w ++ d) = w.drop (BUF - 1) ++ d := by
  have hpos : BUF = 1024 := rfl
  have htake : (w.take (BUF - 1)).length = BUF - 1 := by
    rw [List.length_take]
    omega
  have hsub : newline ∉ w.take (BUF - 1) := fun h => hw (List.mem_of_mem_take h)
  have hfeeds : feeds pattern ⟨[], out⟩ (w.take (BUF - 1)) = ⟨w.take (BUF - 1), out⟩ :=
    feeds_bytes (by rw [List.length_nil]; omega) fun h => absurd h hsub
  rw [← List.take_append_drop (BUF - 1) w, List.append_assoc, unread_append, hfeeds, unread_full]
  · rw [List.take_append_drop]
  · show (w.take (BUF - 1)).length + 1 = BUF
    omega
  · rw [List.length_nil]
    omega

/-- A NUL byte hides the newlines behind it. -/
theorem feeds_hidden (hw : newline ∉ w) (h : (w ++ 0 :: d).length < BUF) :
    feeds pattern ⟨[], out⟩ (w ++ 0 :: d) = ⟨w ++ 0 :: d, out⟩ := by
  rw [List.length_append, List.length_cons] at h
  have hw' : feeds pattern ⟨[], out⟩ w = ⟨w, out⟩ :=
    feeds_bytes (by rw [List.length_nil]; omega) fun hn => absurd hn hw
  rw [feeds_append, hw', feeds_cons, feed_byte (by omega) fun h0 => absurd h0 (by decide),
    feeds_bytes]
  · rw [List.append_assoc, List.singleton_append]
  · rw [List.length_append, List.length_singleton]
    omega
  · exact fun _ => List.mem_append_right _ List.mem_cons_self

/-- A line in the buffer is unfinished: its bytes, taken again from the start, are still there. -/
def Pending (pattern line : List UInt8) : Prop :=
  line.length < BUF ∧ ∀ out, feeds pattern ⟨[], out⟩ line = ⟨line, out⟩

theorem Pending.nil : Pending pattern [] := ⟨by decide, fun _ => rfl⟩

theorem Pending.feed (h : Pending pattern s.line) : Pending pattern (feed pattern s c).line := by
  by_cases h1 : s.line.length + 1 = BUF
  · rwa [feed_full h1]
  have hroom : s.line.length + 1 < BUF := Nat.lt_of_le_of_ne h.1 h1
  by_cases h2 : c = newline ∧ 0 ∉ s.line
  · rw [h2.1, feed_newline hroom h2.2]
    exact Pending.nil
  · have hc : c = newline → 0 ∈ s.line := fun hc => not_not.mp fun h0 => h2 ⟨hc, h0⟩
    rw [feed_byte hroom hc]
    refine ⟨by rwa [List.length_append, List.length_singleton], fun out => ?_⟩
    rw [feeds_append, h.2, feeds_cons, feed_byte hroom hc]
    rfl

theorem Pending.feeds (h : Pending pattern s.line) : Pending pattern (feeds pattern s d).line := by
  induction d generalizing s with
  | nil => exact h
  | cons c d ih => exact ih h.feed

/-! ### The scan of the buffer -/

/-- The bytes of a text up to the first newline or NUL byte, and what stops them. -/
theorem exists_line (d : List UInt8) :
    ∃ w rest, d = w ++ rest ∧ (∀ x ∈ w, x ≠ 0 ∧ x ≠ newline) ∧
      (rest = [] ∨ (∃ r, rest = 0 :: r) ∨ ∃ r, rest = newline :: r) := by
  induction d with
  | nil => exact ⟨[], [], rfl, by simp, .inl rfl⟩
  | cons x d ih =>
    by_cases h0 : x = 0
    · exact ⟨[], x :: d, rfl, by simp, .inr (.inl ⟨d, by rw [h0]⟩)⟩
    by_cases hn : x = newline
    · exact ⟨[], x :: d, rfl, by simp, .inr (.inr ⟨d, by rw [hn]⟩)⟩
    obtain ⟨w, rest, rfl, hw, hrest⟩ := ih
    exact ⟨x :: w, rest, rfl, List.forall_mem_cons.mpr ⟨⟨h0, hn⟩, hw⟩, hrest⟩

/-- The bytes `d` lie in the buffer from `p` on, with a NUL byte behind them. -/
structure Scan.Holds (s : Scan) (d : List UInt8) : Prop where
  bytes : bytes s.buf s.p d.length = d
  nul : s.buf (s.p + d.length) = 0
  room : s.p + d.length < BUF

/-- The step of the scan at the first line: it is handled and `p` stands behind it. -/
theorem lineLoop_line (pattern : List UInt8) (n : ℕ) {s : Scan} {rest : List UInt8}
    (h : s.Holds (w ++ newline :: rest)) (hw : ∀ x ∈ w, x ≠ 0 ∧ x ≠ newline) :
    ∃ buf, lineLoop pattern (n + 1) s = lineLoop pattern n ⟨buf, s.p + w.length + 1,
        if matchText pattern w then s.out ++ [w ++ [newline]] else s.out⟩ ∧
      ∀ x, s.p + w.length < x → buf x = s.buf x := by
  obtain ⟨hl, hr⟩ := bytes_append h.bytes
  rw [List.length_cons, bytes_succ] at hr
  have hq : s.buf (s.p + w.length) = newline := (List.cons.inj hr).1
  have hroom := h.room
  simp only [List.length_append, List.length_cons] at hroom
  have hfound := strchr_found hl hw hq (by decide) (n := BUF - s.p) (by omega)
  -- The NUL byte that replaces the newline ends the string `match` is given.
  have hkeep {v : UInt8} : ∀ x, s.p ≤ x → x < s.p + w.length →
      Function.update s.buf (s.p + w.length) v x = s.buf x :=
    fun x _ hx => Function.update_of_ne (Nat.ne_of_lt hx) _ _
  have hstr : cstring (Function.update s.buf (s.p + w.length) 0) (BUF - s.p) s.p = w :=
    cstring_eq ((bytes_congr hkeep).trans hl) (fun x hx => (hw x hx).1)
      (Function.update_self ..) (by omega)
  have hline : bytes (Function.update s.buf (s.p + w.length) newline) s.p
      (s.p + w.length + 1 - s.p) = w ++ [newline] := by
    rw [show s.p + w.length + 1 - s.p = w.length + 1 by omega, bytes_add, bytes_congr hkeep, hl,
      bytes_succ, Function.update_self, bytes_zero]
  by_cases hm : matchText pattern w = true
  · refine ⟨Function.update s.buf (s.p + w.length) newline, ?_, fun x hx => ?_⟩
    · rw [lineLoop, hfound]
      simp only [hstr, hm, if_true, Function.update_idem, hline]
    · exact Function.update_of_ne (Nat.ne_of_gt hx) _ _
  · refine ⟨Function.update s.buf (s.p + w.length) 0, ?_, fun x hx => ?_⟩
    · rw [lineLoop, hfound]
      simp only [hstr, if_neg hm]
    · exact Function.update_of_ne (Nat.ne_of_gt hx) _ _

/-- The scan stands at the unfinished line of `a`, which ends at `e`. -/
structure Scan.At (s : Scan) (e : ℕ) (a : Lines) : Prop where
  out : s.out = a.out
  stop : s.p + a.line.length = e
  line : Ulib.bytes s.buf s.p a.line.length = a.line

/-- The scan of the bytes `d` does what feeding them from an empty line does, and leaves the unfinished
line at `p`. -/
theorem lineLoop_spec (pattern : List UInt8) {s : Scan} (h : s.Holds d) (hn : d.length ≤ n) :
    (lineLoop pattern n s).At (s.p + d.length) (feeds pattern ⟨[], s.out⟩ d) := by
  induction n generalizing s d with
  | zero =>
    obtain rfl := List.length_eq_zero_iff.mp (Nat.le_zero.mp hn)
    exact ⟨rfl, rfl, rfl⟩
  | succ n ih =>
    obtain ⟨w, rest, rfl, hw, hrest⟩ := exists_line d
    have hwn : newline ∉ w := fun hx => (hw _ hx).2 rfl
    have hroom := h.room
    have hlen : (w ++ rest).length = w.length + rest.length := List.length_append
    obtain ⟨hl, hr⟩ := bytes_append h.bytes
    -- Without a line that ends before a NUL byte the loop stops and all bytes stay.
    have hstop (h0 : s.buf (s.p + w.length) = 0)
        (hfeed : feeds pattern ⟨[], s.out⟩ (w ++ rest) = ⟨w ++ rest, s.out⟩) :
        (lineLoop pattern (n + 1) s).At (s.p + (w ++ rest).length)
          (feeds pattern ⟨[], s.out⟩ (w ++ rest)) := by
      have hnone := strchr_none hl hw h0 (n := BUF - s.p) (by omega)
      have heq : lineLoop pattern (n + 1) s = s := by rw [lineLoop, hnone]
      rw [heq, hfeed]
      exact ⟨rfl, rfl, h.bytes⟩
    obtain rfl | ⟨r, rfl⟩ | ⟨r, rfl⟩ := hrest
    · apply hstop
      · have hnul := h.nul
        rwa [List.append_nil] at hnul
      · rw [List.append_nil]
        rw [List.append_nil] at hroom
        exact feeds_bytes (by rw [List.length_nil]; omega) fun hx => absurd hx hwn
    · apply hstop
      · rw [List.length_cons, bytes_succ] at hr
        exact (List.cons.inj hr).1
      · exact feeds_hidden hwn (by omega)
    · rw [List.length_cons] at hlen
      obtain ⟨buf, heq, hbuf⟩ := lineLoop_line pattern n h hw
      have hfirst : feeds pattern ⟨[], s.out⟩ w = ⟨w, s.out⟩ :=
        feeds_bytes (by rw [List.length_nil]; omega) fun hx => absurd hx hwn
      rw [heq, feeds_append, hfirst, feeds_cons,
        feed_newline (by omega) fun hx => (hw _ hx).1 rfl]
      rw [List.length_cons, bytes_succ] at hr
      -- The rest of the buffer is as it was.
      have hend : s.p + w.length + 1 + r.length = s.p + (w ++ newline :: r).length := by omega
      have hnul : buf (s.p + w.length + 1 + r.length) = 0 := by
        rw [hbuf _ (by omega), hend, h.nul]
      have hrest : Scan.Holds ⟨buf, s.p + w.length + 1,
          if matchText pattern w then s.out ++ [w ++ [newline]] else s.out⟩ r :=
        ⟨(bytes_congr fun x hx _ => hbuf x hx).trans (List.cons.inj hr).2, hnul, hend ▸ h.room⟩
      rw [← hend]
      exact ih hrest (by omega)

/-! ### The loop over the reads -/

/-- The unfinished line at the front of the buffer is that of `a`, which has written the same lines. -/
structure State.Has (pattern : List UInt8) (s : State) (a : Lines) : Prop where
  pending : Pending pattern a.line
  length : s.m = a.line.length
  line : bytes s.buf 0 s.m = a.line
  out : s.out = a.out

theorem received_holds (out : List (List UInt8)) {buf : Bytes} {m : ℕ} (hlen : m = line.length)
    (hline : bytes buf 0 m = line) (hroom : m + piece.length < BUF) :
    Scan.Holds ⟨received buf m piece, 0, out⟩ (line ++ piece) := by
  have hfront : bytes (received buf m piece) 0 m = line := by
    rw [← hline]
    refine bytes_congr fun x _ hx => ?_
    rw [received, Function.update_of_ne (by omega), Bytes.copy_of_not_mem (by omega)]
  have hback : bytes (received buf m piece) m piece.length = piece := by
    have hcopy : bytes (received buf m piece) m piece.length =
        bytes (Bytes.copy buf m piece.length (fun i => piece.getD i 0) 0) m piece.length :=
      bytes_congr fun x _ hx => Function.update_of_ne (Nat.ne_of_lt hx) _ _
    rw [hcopy, bytes_copy, bytes_getD]
  have hall : (line ++ piece).length = m + piece.length := by rw [List.length_append, hlen]
  refine ⟨?_, ?_, by rwa [hall, Nat.zero_add]⟩
  · rw [hall, bytes_add, hfront, Nat.zero_add, hback]
  · rw [hall, Nat.zero_add]
    exact Function.update_self ..

/-- One turn of the loop feeds the bytes of the piece. -/
theorem afterRead_spec {s : State} {a : Lines} (input : List (List UInt8)) (h : s.Has pattern a)
    (hpiece : piece ≠ []) (hroom : s.m + piece.length < BUF) :
    (afterRead pattern s piece input).Has pattern (feeds pattern a piece) := by
  set m := s.m + piece.length with hm
  have hlen : (a.line ++ piece).length = m := by rw [List.length_append, hm, h.length]
  have hat := lineLoop_spec pattern (received_holds s.out h.length h.line hroom) (Nat.le_of_eq hlen)
  rw [feeds_append, h.pending.2, Nat.zero_add, hlen] at hat
  have ha : (⟨a.line, s.out⟩ : Lines) = a := by rw [h.out]
  rw [ha] at hat
  generalize hr : lineLoop pattern m ⟨received s.buf s.m piece, 0, s.out⟩ = r at hat
  have hpos : 0 < m := Nat.lt_add_left _ (List.length_pos_iff.mpr hpiece)
  have heq : afterRead pattern s piece input =
      ⟨memmove r.buf 0 r.p (m - r.p), m - r.p, input, r.out⟩ := by
    rw [← hr]
    exact if_pos hpos
  have hrest : m - r.p = (feeds pattern a piece).line.length := by
    rw [← hat.stop, Nat.add_sub_cancel_left]
  rw [heq, hrest]
  refine ⟨h.pending.feeds, rfl, ?_, hat.out⟩
  rw [memmove_eq_copy, bytes_copy, hat.line]

theorem afterRead_input {s : State} : (afterRead pattern s piece input).input = input := by
  simp only [afterRead]
  split_ifs <;> rfl

/-- The loop over the reads feeds the whole input, up to a line that fills the buffer. -/
theorem grepLoop_spec {s : State} {a : Lines} (h : s.Has pattern a)
    (hpieces : ∀ x ∈ s.input, x ≠ []) :
    (grepLoop pattern s).out = (feeds pattern a s.input.flatten).out ∧
      (grepLoop pattern s).input.flatten = unread pattern a s.input.flatten := by
  have hm : s.m < BUF := h.length ▸ h.pending.1
  -- The induction is on the bytes that are left.
  induction s using grepLoop.induct pattern generalizing a with
  | case1 s hread =>
    rw [grepLoop, if_pos hread]
    obtain hnil | hn := read_eq_nil hread hpieces
    · rw [hnil]
      exact ⟨h.out, rfl⟩
    · have hfull : a.line.length + 1 = BUF := by
        rw [← h.length]
        omega
      rw [feeds_full hfull, unread_full hfull]
      exact ⟨h.out, rfl⟩
  | case2 s hread ih =>
    rw [grepLoop, if_neg hread]
    have hlen := read_length_le (BUF - s.m - 1) s.input
    have hpos := List.length_pos_iff.mpr hread
    have hhas := afterRead_spec (read (BUF - s.m - 1) s.input).2 h hread (by omega)
    have hrest := ih hhas (by rw [afterRead_input]; exact read_pieces hpieces)
      (hhas.length ▸ hhas.pending.1)
    have hroom : a.line.length + (read (BUF - s.m - 1) s.input).1.length < BUF := by
      rw [← h.length]
      omega
    rwa [afterRead_input, ← feeds_append, ← unread_append hroom, read_flatten] at hrest

theorem State.Has.init (pattern : List UInt8) (pieces : List (List UInt8)) :
    State.Has pattern ⟨fun _ => 0, 0, pieces, []⟩ ⟨[], []⟩ :=
  ⟨Pending.nil, rfl, rfl, rfl⟩

/-- Whatever the pieces, the lines written are those of the stream. -/
theorem grep_spec (pattern : List UInt8) {pieces : List (List UInt8)} (hpieces : ∀ x ∈ pieces, x ≠ []) :
    (grep pattern pieces).out = (feeds pattern ⟨[], []⟩ pieces.flatten).out ∧
      (grep pattern pieces).input.flatten = unread pattern ⟨[], []⟩ pieces.flatten :=
  grepLoop_spec (State.Has.init pattern pieces) hpieces

/-- Two ways for one stream to arrive give the same writes. -/
theorem grep_out_eq_of_flatten_eq (pattern : List UInt8) (pieces pieces' : List (List UInt8))
    (hpieces : ∀ x ∈ pieces, x ≠ []) (hpieces' : ∀ x ∈ pieces', x ≠ [])
    (hstream : pieces.flatten = pieces'.flatten) :
    (grep pattern pieces).out = (grep pattern pieces').out := by
  rw [(grep_spec pattern hpieces).1, (grep_spec pattern hpieces').1, hstream]

/-- A line in one piece and the same line in two. -/
theorem grep_out_eq_two_pieces :
    (grep [97] [[97, 98, newline]]).out = (grep [97] [[97], [98, newline]]).out :=
  grep_out_eq_of_flatten_eq [97] [[97, 98, newline]] [[97], [98, newline]] (by decide) (by decide) rfl

/-! ### The lines of a text -/

/-- The lines of a text, without their newlines; the last one may have none. -/
def textLines (text : List UInt8) : List (List UInt8) :=
  if (text.splitOn newline).getLast? = some [] then (text.splitOn newline).dropLast
  else text.splitOn newline

/-- The lines of a text that match, as `grep` writes them. -/
def matching (pattern text : List UInt8) : List (List UInt8) :=
  ((textLines text).filter (matchText pattern)).map (· ++ [newline])

theorem splitOn_append (hw : newline ∉ w) (rest : List UInt8) :
    (w ++ newline :: rest).splitOn newline = w :: rest.splitOn newline := by
  refine List.splitOnP_append_cons_of_forall_mem (fun x hx => ?_) newline (by simp) rest
  simpa using fun h : x = newline => hw (h ▸ hx)

theorem splitOn_line (hw : newline ∉ w) : w.splitOn newline = [w] := by
  refine List.splitOnP_eq_singleton fun x hx => ?_
  simpa using fun h : x = newline => hw (h ▸ hx)

theorem textLines_append (hw : newline ∉ w) (rest : List UInt8) :
    textLines (w ++ newline :: rest) = w :: textLines rest := by
  have hne : rest.splitOn newline ≠ [] := List.splitOnP_ne_nil _ _
  obtain ⟨l, ls, hl⟩ := List.exists_cons_of_ne_nil hne
  rw [textLines, textLines, splitOn_append hw, hl, List.getLast?_cons_cons, List.dropLast_cons_cons]
  split_ifs <;> rfl

theorem matching_append (hw : newline ∉ w) (rest : List UInt8) :
    matching pattern (w ++ newline :: rest) =
      (if matchText pattern w then [w ++ [newline]] else []) ++ matching pattern rest := by
  rw [matching, textLines_append hw, List.filter_cons]
  split_ifs <;> rfl

theorem matching_line (hw : newline ∉ w) :
    matching pattern w = [] ↔ (w ≠ [] → matchText pattern w = false) := by
  by_cases hnil : w = []
  · simp [matching, textLines, hnil]
  · simp [matching, textLines, splitOn_line hw, hnil]

/-- What `grep` can deal with: the lines that end with a newline fit the buffer together with it, and a
last line without one fits the buffer and does not match. -/
def Manageable (pattern text : List UInt8) : Prop :=
  (∀ l ∈ (text.splitOn newline).dropLast, l.length + 1 < BUF) ∧
    ∀ l, (text.splitOn newline).getLast? = some l →
      l.length < BUF ∧ (l ≠ [] → matchText pattern l = false)

theorem manageable_line (hw : newline ∉ w) :
    Manageable pattern w ↔ w.length < BUF ∧ (w ≠ [] → matchText pattern w = false) := by
  simp [Manageable, splitOn_line hw]

theorem manageable_append (hw : newline ∉ w) (rest : List UInt8) :
    Manageable pattern (w ++ newline :: rest) ↔ w.length + 1 < BUF ∧ Manageable pattern rest := by
  have hne : rest.splitOn newline ≠ [] := List.splitOnP_ne_nil _ _
  obtain ⟨l, ls, hl⟩ := List.exists_cons_of_ne_nil hne
  rw [Manageable, Manageable, splitOn_append hw, hl, List.getLast?_cons_cons, List.dropLast_cons_cons,
    List.forall_mem_cons, and_assoc]

/-- A text is dealt with line by line, up to a line that does not fit. -/
theorem feeds_text (text : List UInt8) (h0 : 0 ∉ text) (out : List (List UInt8)) :
    (feeds pattern ⟨[], out⟩ text).out = out ++ matching pattern text ∧
      unread pattern ⟨[], out⟩ text = [] ↔ Manageable pattern text := by
  -- The induction is on the length of the text, a line at a time.
  induction hn : text.length using Nat.strong_induction_on generalizing text out with
  | _ n ih =>
    obtain ⟨w, rest, rfl, hw, hrest⟩ := exists_line text
    have hwn : newline ∉ w := fun hx => (hw _ hx).2 rfl
    obtain rfl | ⟨r, rfl⟩ | ⟨r, rfl⟩ := hrest
    · rw [List.append_nil, manageable_line hwn]
      by_cases hlen : w.length < BUF
      · have hfeeds : feeds pattern ⟨[], out⟩ w = ⟨w, out⟩ :=
          feeds_bytes (by rwa [List.length_nil, Nat.zero_add]) fun hx => absurd hx hwn
        have hread : unread pattern ⟨[], out⟩ w = [] := by
          rw [← List.append_nil w, unread_append (by rwa [List.length_nil, Nat.zero_add])]
          rfl
        rw [hfeeds, hread, ← matching_line hwn]
        simp [hlen]
      · have hleft : unread pattern ⟨[], out⟩ w = w.drop (BUF - 1) := by
          simpa using unread_long (d := []) hwn (by omega)
        have hne : w.drop (BUF - 1) ≠ [] := by
          rw [Ne, List.drop_eq_nil_iff]
          have : 0 < BUF := by decide
          omega
        rw [hleft]
        exact iff_of_false (fun h => hne h.2) fun h => hlen h.1
    · exact absurd (List.mem_append_right w List.mem_cons_self) h0
    · rw [manageable_append hwn]
      by_cases hlen : w.length + 1 < BUF
      · have hfirst : feeds pattern ⟨[], out⟩ w = ⟨w, out⟩ :=
          feeds_bytes (by rw [List.length_nil]; omega) fun hx => absurd hx hwn
        have hr0 : 0 ∉ r := fun hx => h0 (List.mem_append_right w (List.mem_cons_of_mem _ hx))
        have hw0 : 0 ∉ w := fun hx => (hw _ hx).1 rfl
        have hroom : (⟨w, out⟩ : Lines).line.length + [newline].length < BUF := hlen
        have hread : unread pattern ⟨w, out⟩ (newline :: r) =
            unread pattern (feed pattern ⟨w, out⟩ newline) r := unread_append hroom
        have hrest := ih r.length (by simp [← hn]; omega) r hr0
          (if matchText pattern w then out ++ [w ++ [newline]] else out) rfl
        rw [feeds_append, unread_append (by rw [List.length_nil]; omega), hfirst, feeds_cons, hread,
          feed_newline hlen hw0, matching_append hwn, and_iff_right hlen, ← hrest]
        split_ifs <;> simp
      · rw [unread_long hwn (by omega)]
        exact iff_of_false (fun h => absurd h.2 (by simp)) fun h => hlen h.1

/-- On a text without NUL bytes, however it arrives, `grep` writes the lines that match, in order, and
reads to the end, if and only if it can deal with the text. -/
theorem grep_writes_matching_lines (pattern : List UInt8) (pieces : List (List UInt8))
    (hpieces : ∀ x ∈ pieces, x ≠ []) (h0 : 0 ∉ pieces.flatten) :
    (grep pattern pieces).out = matching pattern pieces.flatten ∧
      (grep pattern pieces).input.flatten = [] ↔ Manageable pattern pieces.flatten := by
  obtain ⟨hout, hleft⟩ := grep_spec pattern hpieces
  rw [hout, hleft, ← feeds_text _ h0 []]
  rfl

/-- Three lines in three pieces, of which the second matches and the last has no newline. -/
theorem grep_writes_second_line :
    (grep [98] [[97], [newline, 98], [newline, 97]]).out = [[98, newline]] ∧
      (grep [98] [[97], [newline, 98], [newline, 97]]).input.flatten = [] := by
  have hiff := grep_writes_matching_lines [98] [[97], [newline, 98], [newline, 97]] (by decide)
    (by decide)
  have hok : Manageable [98] [97, newline, 98, newline, 97] := by
    refine (manageable_append (w := [97]) (by decide) _).mpr ⟨by decide, ?_⟩
    refine (manageable_append (w := [98]) (by decide) _).mpr ⟨by decide, ?_⟩
    exact (manageable_line (by decide)).mpr ⟨by decide, fun _ => by decide⟩
  obtain ⟨hout, hleft⟩ := hiff.mpr hok
  exact ⟨hout.trans (by decide), hleft⟩

/-- A line that fills the buffer ends the call, whatever comes behind it. -/
theorem grep_long_line (pattern : List UInt8) (hlen : w.length + 1 = BUF) (hw : newline ∉ w)
    {rest : List UInt8} (hrest : rest ≠ []) :
    (grep pattern [w, rest]).out = [] ∧ (grep pattern [w, rest]).input.flatten = rest := by
  have hne : w ≠ [] := fun h => absurd hlen (by rw [h]; decide)
  have hpieces : ∀ x ∈ [w, rest], x ≠ [] := by simp [hne, hrest]
  have hflat : [w, rest].flatten = w ++ rest := by simp
  obtain ⟨hout, hleft⟩ := grep_spec pattern hpieces
  rw [hflat] at hout hleft
  rw [hout, hleft, feeds_append, feeds_bytes (by rw [List.length_nil]; omega) fun h => absurd h hw,
    feeds_full hlen, unread_long hw hlen.ge, List.drop_eq_nil_of_le (by omega)]
  exact ⟨rfl, rfl⟩

/-- A last line without a newline is not looked at. A line of 1023 bytes ends the call: the lines behind
it are not read. -/
theorem grep_misses_lines :
    ((textLines [97]).filter (matchText [97]) = [[97]] ∧ (grep [97] [[97]]).out = []) ∧
      (matchText [97] [97] = true ∧
        [97] ∈ textLines (List.replicate 1023 98 ++ newline :: [97, newline]) ∧
        (grep [97] [List.replicate 1023 98, [newline, 97, newline]]).out = [] ∧
        (grep [97] [List.replicate 1023 98, [newline, 97, newline]]).input.flatten =
          [newline, 97, newline]) := by
  have hw : newline ∉ List.replicate 1023 (98 : UInt8) := fun h =>
    absurd (List.eq_of_mem_replicate h) (by decide)
  have hlen : (List.replicate 1023 (98 : UInt8)).length + 1 = BUF := by
    rw [List.length_replicate]
    rfl
  refine ⟨⟨by decide, (grep_spec [97] (by decide)).1⟩, by decide, ?_,
    grep_long_line [97] hlen hw (by decide)⟩
  rw [textLines_append hw]
  exact List.mem_cons_of_mem _ (by decide)

end Xv6.Grep
