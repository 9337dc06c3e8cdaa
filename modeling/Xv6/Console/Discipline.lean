import Xv6.Console.Lines

/-!
# The console keeps its line discipline

Every run of `console.c` is a run of the machine of `Lines` that receives the same bytes and has the same
reads (`Sim`), whatever the readers do and however often the indices wrap. The machine's history then shows that every byte handed
over is read once, in the order in which it was typed, and how each read ends (`History`).
-/

set_option linter.unusedSectionVars false

namespace Xv6.Console

open Lib

variable {P : Type} [DecidableEq P]

/-! ### Every run of the console is one of the machine -/

/-- The calls in progress are those of the machine, with destinations that do not fault. -/
def SameCall : Option Call → Option Reading → Prop
  | none, none => True
  | some c, some d =>
    c.n = d.n ∧ c.got = d.got ∧ (∀ i, c.dst i = true) ∧ c.got.length ≤ c.n.toNatClampNeg
  | _, _ => False

/-- The console in state `s` stands for the machine in state `t`. -/
structure Sim (s : State P) (t : LineState P) : Prop where
  rep : Rep s.cons t.lines.committed t.lines.line
  call : ∀ p, SameCall (s.call p) (t.call p)

variable {p : P} {c : Call} {d : Reading} {s : State P} {t : LineState P}

/-- Replacing the calls of one process. -/
theorem sameCall_update {f : P → Option Call} {g : P → Option Reading} {c : Option Call}
    {d : Option Reading} (h : ∀ p, SameCall (f p) (g p)) (hcd : SameCall c d) (x : P) :
    SameCall (Function.update f p c x) (Function.update g p d x) := by
  by_cases hx : x = p
  · subst hx
    simpa using hcd
  · simpa [Function.update_of_ne hx] using h x

/-- A section of `consoleread` against one of the machine. -/
theorem Rep.run {cs : Cons} {q l : List UInt8} (h : Rep cs q l) (killed : Bool)
    (hc : SameCall (some c) (some d)) :
    (c.run killed cs).2 = (d.run killed q).1 ∧ Rep (c.run killed cs).1 (d.run killed q).2 l := by
  obtain ⟨hn, hgot, hdst, hle⟩ := hc
  have hgot' : decide (0 < c.got.length) = !d.got.isEmpty := by
    rw [hgot]
    cases d.got <;> simp
  have := h.readFrom hdst killed c.toNat_target
  rw [hgot'] at this
  simpa only [Call.run, Reading.run, ← hn, ← hgot] using this

theorem Sim.read (h : Sim s t) (killed : Bool) (hc : SameCall (some c) (some d)) :
    Sim (s.read p killed c) (t.read p killed d) := by
  obtain ⟨hout, hrep⟩ := h.rep.run killed hc
  obtain ⟨hn, hgot, hdst, hle⟩ := hc
  refine ⟨hrep, sameCall_update h.call ?_⟩
  rw [hout]
  split_ifs with hasleep
  · have hlen := length_takeLine_le killed (d.n.toNatClampNeg - d.got.length) (!d.got.isEmpty)
      t.lines.committed
    rw [hn, hgot] at hle
    refine ⟨hn, by rw [hgot], hdst, ?_⟩
    rw [List.length_append, hn, hgot]
    exact Nat.add_le_of_le_sub' hle hlen
  · trivial

theorem Sim.event (h : Sim s t) (killed : Bool) (hc : SameCall (some c) (some d)) :
    t.event p killed d = s.event p killed c := by
  obtain ⟨hout, -⟩ := h.rep.run killed hc
  obtain ⟨hn, hgot, -, -⟩ := hc
  simp [LineState.event, State.event, hout, hn, hgot]

theorem Sim.next {s' : State P} {l : Label P} (h : Sim s t) (hl : NonFaulting s l)
    (hs : next l s = some s') :
    ∃ t', lineNext l t = some t' ∧ Sim s' t' ∧ lineEvents t l = events s l := by
  cases l with
  | intr c =>
    cases hs
    exact ⟨_, rfl, ⟨h.rep.consoleintr c, h.call⟩, rfl⟩
  | start p dst n =>
    have hcall := h.call p
    simp only [Console.next] at hs
    split_ifs at hs with hp
    cases hs
    rw [hp] at hcall
    have hq : t.call p = none := by
      cases hq : t.call p with
      | none => rfl
      | some d => rw [hq] at hcall; exact hcall.elim
    refine ⟨_, if_pos hq, ⟨h.rep, sameCall_update h.call ?_⟩, rfl⟩
    exact ⟨rfl, rfl, hl, Nat.zero_le _⟩
  | run p killed =>
    obtain ⟨c, hp, rfl⟩ := Option.map_eq_some_iff.mp hs
    have hcall := h.call p
    rw [hp] at hcall
    obtain ⟨d, hq⟩ : ∃ d, t.call p = some d := by
      cases hq : t.call p with
      | none => rw [hq] at hcall; exact hcall.elim
      | some d => exact ⟨d, rfl⟩
    rw [hq] at hcall
    refine ⟨t.read p killed d, by simp [lineNext, hq], h.read killed hcall, ?_⟩
    simp [lineEvents, events, hp, hq, h.event killed hcall]

theorem Sim.init (buf : ℕ → UInt8) :
    Sim (P := P) ⟨⟨buf, 0, 0, 0⟩, fun _ => none⟩ ⟨.empty, [], fun _ => none⟩ :=
  ⟨.init buf, fun _ => trivial⟩

/-! ### The history of the machine -/

/-- The bytes a call has copied by the end of a section. -/
def Event.data (e : Event P) : List UInt8 := e.before ++ e.bytes

/-- The sections of readers. -/
def reads (es : List (Seen P)) : List (Event P) := es.filterMap Seen.event

/-- The bytes a section takes from the queue. -/
def Event.taken (e : Event P) : List UInt8 := Console.taken (e.bytes, e.exit)

/-- What a reader that wants `m` more bytes gets from a queue, and how it ends. -/
structure Takes (m : ℕ) (got : Bool) (q bytes : List UInt8) (exit : Exit) : Prop where
  plain : ctrl 'D' ∉ bytes
  whole : newline ∉ bytes ∨ exit = .line ∧ ∃ d, bytes = d ++ [newline] ∧ newline ∉ d
  line : exit = .line → newline ∈ bytes
  le : bytes.length ≤ m
  full : exit = .full → bytes.length = m
  eof : ∀ saved, exit = .eof saved →
    saved = (got || !bytes.isEmpty) ∧ ∃ rest, q = bytes ++ ctrl 'D' :: rest
  noFault : exit ≠ .fault

/-- A byte that ends nothing comes before the rest. -/
theorem Takes.cons {m : ℕ} {got : Bool} {q bytes : List UInt8} {exit : Exit} {c : UInt8}
    (h : Takes m true q bytes exit) (hd : c ≠ ctrl 'D') (hn : c ≠ newline) :
    Takes (m + 1) got (c :: q) (c :: bytes) exit where
  plain := by simp [h.plain, hd.symm]
  whole := by
    rcases h.whole with hnot | ⟨hline, d, rfl, hnot⟩
    · exact .inl (by simp [hnot, hn.symm])
    · exact .inr ⟨hline, c :: d, rfl, by simp [hnot, hn.symm]⟩
  line hl := List.mem_cons_of_mem c (h.line hl)
  le := Nat.succ_le_succ h.le
  full hf := congrArg Nat.succ (h.full hf)
  eof saved hs := by
    obtain ⟨hsaved, rest, rfl⟩ := h.eof saved hs
    exact ⟨by simpa using hsaved, rest, rfl⟩
  noFault := h.noFault

theorem takes_takeLine (killed : Bool) (m : ℕ) (got : Bool) (q : List UInt8) :
    Takes m got q (takeLine killed m got q).1.1 (takeLine killed m got q).1.2 := by
  induction q generalizing m got with
  | nil =>
    cases m <;> cases killed <;>
      exact ⟨by simp [takeLine], .inl (by simp [takeLine]), by simp [takeLine], by simp [takeLine],
        by simp [takeLine], by simp [takeLine], by simp [takeLine]⟩
  | cons c q ih =>
    cases m with
    | zero =>
      exact ⟨by simp [takeLine], .inl (by simp [takeLine]), by simp [takeLine],
        by simp [takeLine], by simp [takeLine], by simp [takeLine], by simp [takeLine]⟩
    | succ m =>
      simp only [takeLine]
      split_ifs with hd hg hn
      · exact ⟨by simp, .inl (by simp), by simp, by simp, by simp, by simp [hd, hg], by simp⟩
      · exact ⟨by simp, .inl (by simp), by simp, by simp, by simp, by simp [hd, hg], by simp⟩
      · subst hn
        exact ⟨by simpa using Ne.symm hd, .inr ⟨rfl, [], rfl, by simp⟩, by simp, by simp,
          by simp, by simp, by simp⟩
      · exact (ih m true).cons hd hn

/-- How a section of a read looks to its caller: no control-D is copied, a newline only as the last
byte, at which the read ends, and no more bytes than asked for; a read that ends for want of room has
all it asked for; a control-D is taken away by a read that returns no bytes, and left in place by any
other. -/
structure Event.Orderly (e : Event P) : Prop where
  plain : ctrl 'D' ∉ e.data
  whole : newline ∉ e.data ∨ e.exit = .line ∧ ∃ d, e.data = d ++ [newline] ∧ newline ∉ d
  line : e.exit = .line → newline ∈ e.data
  le : e.data.length ≤ e.n.toNatClampNeg
  full : e.exit = .full → e.data.length = e.n.toNatClampNeg
  eof : ∀ saved, e.exit = .eof saved → (saved = true ↔ e.data ≠ [])
  noFault : e.exit ≠ .fault

/-- A call that goes on has copied only bytes that end nothing. -/
structure Reading.Open (c : Reading) : Prop where
  plain : ctrl 'D' ∉ c.got
  whole : newline ∉ c.got
  le : c.got.length ≤ c.n.toNatClampNeg

theorem Reading.Open.orderly {c : Reading} (h : c.Open) (p : P) (killed : Bool) (q : List UInt8) :
    Event.Orderly ⟨p, c.n, c.got, (c.run killed q).1.1, (c.run killed q).1.2⟩ := by
  have ht := takes_takeLine killed (c.n.toNatClampNeg - c.got.length) (!c.got.isEmpty) q
  have hle := h.le
  have hlen := ht.le
  refine ⟨?_, ?_, ?_, ?_, ?_, ?_, ht.noFault⟩
  · simpa [Event.data, Reading.run, h.plain] using ht.plain
  · rcases ht.whole with hnot | ⟨hline, d, hd, hnot⟩
    · exact .inl (by simpa [Event.data, Reading.run, h.whole] using hnot)
    · exact .inr ⟨hline, c.got ++ d, by simp [Event.data, Reading.run, hd], by simp [h.whole, hnot]⟩
  · exact fun hl => List.mem_append_right _ (ht.line hl)
  · simp only [Event.data, List.length_append, Reading.run]
    omega
  · intro hf
    have := ht.full hf
    simp only [Event.data, List.length_append, Reading.run]
    omega
  · intro saved hs
    have := (ht.eof saved hs).1
    simp only [Event.data, Reading.run]
    rw [this]
    cases c.got <;> simp

/-- What the history says about the machine. -/
structure History (t : LineState P) (es : List (Event P)) : Prop where
  typed : t.typed = es.flatMap Event.taken ++ t.lines.committed
  orderly : ∀ e ∈ es, e.Orderly
  eofs : ∀ pre e saved, pre ++ [e] <+: es → e.exit = .eof saved →
    pre.flatMap Event.taken ++ e.bytes ++ [ctrl 'D'] <+: t.typed
  open_ : ∀ p c, t.call p = some c → c.Open

theorem Lines.committed_intr (L : Lines) (c : UInt8) :
    (L.intr c).committed = L.committed ++ L.commits c := by
  have h : L.committed <+: (L.intr c).committed := by
    unfold Lines.intr Lines.type
    split_ifs
    · exact List.prefix_rfl
    · exact List.prefix_rfl
    · exact List.prefix_rfl
    · exact List.prefix_append _ _
    · exact List.prefix_rfl
    · exact List.prefix_append _ _
    · exact List.prefix_rfl
    · exact List.prefix_rfl
  exact (List.prefix_iff_eq_append.mp h).symm

theorem History.init : History (P := P) ⟨.empty, [], fun _ => none⟩ [] :=
  ⟨rfl, by simp, by simp, by simp⟩

theorem open_update {f : P → Option Reading} {o : Option Reading} (h : ∀ p c, f p = some c → c.Open)
    (ho : ∀ c, o = some c → c.Open) (x : P) (c : Reading) (hx : Function.update f p o x = some c) :
    c.Open := by
  by_cases hxp : x = p
  · subst hxp
    rw [Function.update_self] at hx
    exact ho c hx
  · rw [Function.update_of_ne hxp] at hx
    exact h x c hx

theorem History.read {es : List (Event P)} {c : Reading} (h : History t es) (hp : t.call p = some c)
    (killed : Bool) : History (t.read p killed c) (es ++ [t.event p killed c]) := by
  have hopen := h.open_ p c hp
  have hord := hopen.orderly p killed t.lines.committed
  have htaken := taken_append_takeLine killed (c.n.toNatClampNeg - c.got.length) (!c.got.isEmpty)
    t.lines.committed
  refine ⟨?_, ?_, ?_, ?_⟩
  · show t.typed = _
    rw [h.typed, List.flatMap_append, List.append_assoc, List.flatMap_singleton]
    exact congrArg _ htaken.symm
  · intro e he
    rcases List.mem_append.mp he with he | he
    · exact h.orderly e he
    · rw [List.mem_singleton.mp he]
      exact hord
  · intro pre e saved hpre he
    rcases List.prefix_concat_iff.mp hpre with heq | hold
    · obtain ⟨rfl, hlast⟩ := List.append_inj' heq rfl
      cases hlast
      -- the queue still holds the control-D at this moment
      obtain ⟨-, rest, hq⟩ := (takes_takeLine killed _ _ _).eof saved he
      refine ⟨rest, ?_⟩
      show _ = t.typed
      rw [h.typed]
      simp [LineState.event, Reading.run]
      exact hq.symm
    · exact h.eofs pre e saved hold he
  · refine open_update h.open_ fun d hd => ?_
    split_ifs at hd with hasleep
    cases hd
    refine ⟨hord.plain, ?_, hord.le⟩
    rcases hord.whole with hnot | ⟨hline, -⟩
    · exact hnot
    · exact absurd (hasleep.symm.trans hline) (by simp)

theorem History.step {t' : LineState P} {es : List (Event P)} {l : Label P} (h : History t es)
    (hs : lineNext l t = some t') : History t' (es ++ reads (lineEvents t l)) := by
  cases l with
  | intr c =>
    cases hs
    have hnone : reads (lineEvents t (.intr c)) = [] := rfl
    rw [hnone, List.append_nil]
    refine ⟨?_, h.orderly, fun pre e saved hpre he => ?_, h.open_⟩
    · show t.typed ++ _ = _ ++ (t.lines.intr c).committed
      rw [Lines.committed_intr, h.typed, List.append_assoc]
    · exact (h.eofs pre e saved hpre he).trans (List.prefix_append _ _)
  | start p dst n =>
    simp only [lineNext] at hs
    split_ifs at hs with hp
    cases hs
    have hnone : reads (lineEvents t (.start p dst n)) = [] := rfl
    rw [hnone, List.append_nil]
    refine ⟨h.typed, h.orderly, h.eofs, open_update h.open_ fun d hd => ?_⟩
    cases hd
    exact ⟨by simp, by simp, by simp⟩
  | run p killed =>
    obtain ⟨c, hp, rfl⟩ := Option.map_eq_some_iff.mp hs
    have hone : reads (lineEvents t (.run p killed)) = [t.event p killed c] := by
      simp [reads, lineEvents, hp, Seen.event]
    rw [hone]
    exact h.read hp killed

theorem history_reach {es : List (Seen P)} (h : ((lineSystem P).record lineEvents).Reach (t, es)) :
    History t (reads es) := by
  refine Lts.Reach.induct (I := fun x => History x.1 (reads x.2)) ?_ ?_ h
  · rintro ⟨t, es⟩ ⟨rfl, rfl⟩
    exact .init
  · rintro ⟨t, es⟩ l ⟨t', es'⟩ - hh ⟨hs, rfl⟩
    rw [reads, List.filterMap_append]
    exact hh.step hs

/-- **The line discipline.** Every run of the console, with readers that do not fault, is a run of the
machine that receives the same bytes and has the same reads: in every state the ring holds the
machine's queue from `r` to `w` and its line from `w` to `e`, together at most `INPUT_BUF` bytes. The
bytes ever handed over are those the readers took, one after the other, followed by the queue. Every
read ends as it should, and one that ends with control-D has taken exactly the bytes up to it. -/
theorem console_line_discipline {x : State P × List (Seen P)}
    (h : (((system P).restrict NonFaulting).record events).Reach x) :
    ∃ t, ((lineSystem P).record lineEvents).Reach (t, x.2) ∧
      x.1.cons.committed = t.lines.committed ∧ x.1.cons.line = t.lines.line ∧
      t.lines.committed.length + t.lines.line.length ≤ INPUT_BUF ∧
      t.typed = (reads x.2).flatMap Event.taken ++ t.lines.committed ∧
      (∀ e ∈ reads x.2, e.Orderly) ∧
      ∀ pre e saved, pre ++ [e] <+: reads x.2 → e.exit = .eof saved →
        pre.flatMap Event.taken ++ e.bytes ++ [ctrl 'D'] <+: t.typed := by
  have hrun : ∃ t, ((lineSystem P).record lineEvents).Reach (t, x.2) ∧ Sim x.1 t := by
    refine Lts.Reach.simulate ?_ ?_ h
    · rintro s ⟨buf, rfl⟩
      exact ⟨_, rfl, .init buf⟩
    · rintro s t l s' hsim ⟨hl, hs⟩
      exact hsim.next hl hs
  obtain ⟨t, ht, hsim⟩ := hrun
  have hh := history_reach ht
  exact ⟨t, ht, hsim.rep.committed_eq, hsim.rep.line_eq, t.lines.fits, hh.typed, hh.orderly, hh.eofs⟩

/-- A reader asks for five bytes and sleeps; `b` is typed and taken back, then `a` and control-D. The
reader returns with the one byte, and the next read returns none. -/
def typeAndRead : List (Label Unit) :=
  [.start () (fun _ => true) 5, .run () false, .intr 98, .intr (ctrl 'H'), .intr 97, .intr (ctrl 'D'),
    .run () false, .start () (fun _ => true) 5, .run () false]

theorem console_line_discipline_eof :
    ∃ x, (((system Unit).restrict NonFaulting).record events).Reach x ∧
      (reads x.2).map (fun e => e.exit.ret e.data) = [none, some 1, some 0] ∧
      ∃ t, t.typed = [97, ctrl 'D'] ∧ ((lineSystem Unit).record lineEvents).Reach (t, x.2) := by
  obtain ⟨x, hrun, hret, htaken, hcom⟩ : ∃ x, Lts.runRecord next events typeAndRead
      (⟨⟨fun _ => 0, 0, 0, 0⟩, fun _ => none⟩, []) = some x ∧
      (reads x.2).map (fun e => e.exit.ret e.data) = [none, some 1, some 0] ∧
      (reads x.2).flatMap Event.taken = [97, ctrl 'D'] ∧ x.1.cons.committed = [] :=
    ⟨_, rfl, by decide +kernel, by decide +kernel, by decide +kernel⟩
  have hx : (((system Unit).restrict NonFaulting).record events).Reach x := by
    refine Lts.Reach.runRecord (.init ⟨⟨_, rfl⟩, rfl⟩) (fun l hl _ _ hs => ⟨?_, hs⟩) hrun
    simp only [typeAndRead, List.mem_cons, List.not_mem_nil, or_false] at hl
    rcases hl with rfl | rfl | rfl | rfl | rfl | rfl | rfl | rfl | rfl <;> simp [NonFaulting]
  obtain ⟨t, ht, hq, -, -, htyped, -⟩ := console_line_discipline hx
  refine ⟨x, hx, hret, t, ?_, ht⟩
  rw [htyped, htaken, ← hq, hcom, List.append_nil]

end Xv6.Console
