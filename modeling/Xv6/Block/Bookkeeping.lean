import Xv6.Block.Clients

/-!
# The bookkeeping of the log

The reservation of log space by `begin_op`, the pins of `log_write`, the exclusion of `commit` and
`log_write`, and the wakeups of `end_op`, for any number of concurrent operations of which none logs
more than `MAXOPBLOCKS` distinct blocks.

The space that `begin_op` reserves is measured against `LOGSIZE`. `log_write` has a second bound, the
size of the log on disk less one block for the header. A log of `LOGSIZE` blocks is one block too
small for that.
-/

namespace Xv6.Block

open Lib

/-- `commit` has been called and has not returned. -/
def State.InCommit (s : State) : Prop := s.hist.done ≠ s.hist.groups.length

/-- The log and the buffer cache agree with the operations in progress. -/
structure LogBooks (s : State) : Prop where
  /-- The log has room for what every operation may still log. -/
  room : s.log.lh.length + ∑ t, unused (s.book.ops t) ≤ LOGSIZE
  /-- No block is in the header twice. -/
  nodup : s.log.lh.Nodup
  /-- What was logged since the last commit is in the header. -/
  logged : ∀ w ∈ s.hist.cur, w.1 ∈ s.log.lh
  /-- `refcnt` counts the references of processes and the pins. -/
  refcnt : ∀ i, (s.buf i).refcnt = ∑ t, s.book.refs t i + s.book.pins i
  /-- A block of the header is in one buffer. -/
  cached : ¬ s.InCommit → ∀ b ∈ s.log.lh, ∃! i, s.Caches i b
  /-- That buffer has one pin, and no other buffer has any. -/
  pins : ¬ s.InCommit → ∀ i, s.book.pins i =
    if (s.buf i).dev = ROOTDEV ∧ (s.buf i).blockno ∈ s.log.lh then 1 else 0
  /-- `log.outstanding` is the number of operations in progress. -/
  outstanding : s.log.outstanding = ∑ t, (s.book.ops t).isSome.toNat
  /-- During a commit there is none. -/
  alone : s.InCommit → s.log.outstanding = 0
  /-- Nobody sleeps in `begin_op` who could start. -/
  awake : s.admits → ∀ t, s.asleep t = false

variable {sb : Superblock} {full lim : Prop} {s : State} {γ : Slot → Local} {t : Slot} {boot : Slot}
  {image : (ℕ → Data) → (ℕ → Data) → Prop} {X : Sig} {U : Type} {xsem : Sem Slot X U}
  {uinit : U → Prop} {calls : Slot → Prog (Iface.sum X) Unit → Prop}

/-- The phases of a log that has been recovered. -/
theorem Inv.phase_cases (h : Inv sb full lim s γ) (hup : s.up) :
    (¬ s.InCommit ∧ s.log.lh.Nodup ∧ (∀ w ∈ s.hist.cur, w.1 ∈ s.log.lh) ∧
      (phaseOf s γ).pinned s.log.lh = s.log.lh) ∨
    (s.InCommit ∧ s.log.lh.Nodup ∧ s.hist.cur = [] ∧ ∀ t, s.book.ops t = none) := by
  have hlh := h.lh
  have hr := h.roles
  have hphase : s.up = (phaseOf s γ).up := hr.up
  have hbusy : phaseOf s γ ≠ .idle → ∀ t, s.book.ops t = none := by
    intro hne
    refine hr.alone fun hnone => hne ?_
    rw [phaseOf, hnone]
  cases hφ : phaseOf s γ with
  | idle | entered =>
    rw [hφ] at hlh
    exact .inl ⟨fun hc => hc hlh.2.2, hlh.1, hlh.2.1, rfl⟩
  | commit l S st =>
    rw [hφ] at hlh
    obtain ⟨hl, hst, hcur, hlen⟩ := hlh
    refine .inr ⟨by rw [State.InCommit]; omega, ?_, hcur, hbusy (by simp [hφ])⟩
    rw [hst]
    cases st <;> simp [Stage.lh, hl]
  | booting | replay l S st =>
    rw [hφ, hup] at hphase
    cases hphase

theorem Inv.logBooks (h : Inv sb full True s γ) (hup : s.up) : LogBooks s := by
  have hr := h.roles
  have hphase := h.phase_cases hup
  constructor
  · exact h.budget.room trivial hup
  · rcases hphase with hp | hp
    · exact hp.2.1
    · exact hp.2.1
  · rcases hphase with hp | hp
    · exact hp.2.2.1
    · simp [hp.2.2.1]
  · exact fun i => (h.cache.ok i).count
  · intro hnot b hb
    have hP := (hphase.resolve_right fun hp => hnot hp.1).2.2.2
    obtain ⟨i, hi⟩ := h.cache.cached b (by rwa [hP])
    exact ⟨i, hi, fun j hj => h.cache.uniq j i b hj hi⟩
  · intro hnot i
    have hP := (hphase.resolve_right fun hp => hnot hp.1).2.2.2
    rw [(h.cache.ok i).pin, hP]
  · exact hr.outstanding
  · intro hc
    have hnone := (hphase.resolve_left fun hp => hp.1 hc).2.2.2
    rw [hr.outstanding]
    exact Finset.sum_eq_zero fun t _ => by simp [hnone t]
  · intro hadm t
    by_contra hne
    have := (hr.asleep t (by simpa using hne)).2
    rw [hadm] at this
    cases this

/-- **Log bookkeeping under concurrent calls.** For any interleaving of `begin_op`, `log_write` and
`end_op` by any processes, where no operation logs more than `MAXOPBLOCKS` distinct blocks, in every
reachable state after the recovery of the log: the log has room for the unused part of every
operation's allowance; its header has no duplicates and has every block logged since the last
commit; outside `commit` each of its blocks holds one pin on its buffer and no other buffer is
pinned; `commit` runs only while no operation is outstanding and nobody is in `log_write`; and
nobody sleeps in `begin_op` while its admission test would succeed. -/
theorem log_bookkeeping (hcalls : Disciplined sb False True calls) {s : Pool Slot State U Iface X Prim}
    (hr : (layer sb boot image xsem uinit calls).lts.Reach s) (hup : s.mem.up) :
    LogBooks s.mem ∧
      (s.mem.InCommit → ∀ t i p k, s.th t ≠ .code (.log_write i) p k) := by
  obtain ⟨γ, hγ⟩ := hcalls.reach False.elim False.elim hr
  refine ⟨hγ.1.logBooks hup, ?_⟩
  intro hc t i p k hth
  -- a process in `log_write` is in an operation
  obtain ⟨x, O, -, hop, -⟩ := hγ.during hth
  have hnone := ((hγ.1.phase_cases hup).resolve_left fun hp => hp.1 hc).2.2.2 t
  rw [← hγ.1.roles.op t, hop] at hnone
  cases hnone

/-- Process `t` writes ten blocks of its own in one operation. -/
def tenBlocks (t : Slot) : Prog (Iface.sum noOps) Unit :=
  writeBlocks (fun _ => 1) ((List.range MAXOPBLOCKS).map fun j => 100 + 10 * t + j)

theorem tenBlocks_disciplined : Disciplined sb False lim fun t q => q = tenBlocks t := by
  rintro t _ rfl
  refine writeBlocks_follows (fun h => h.elim) ((List.toFinset_card_le _).trans ?_)
  simp

theorem two_lt_NPROC : 2 < NPROC := by decide

theorem three_lt_NPROC : 3 < NPROC := by decide

/-- Three operations start, and two of them log ten blocks; then process 1 takes `n` steps. With 163
steps it has called `log_write` for its tenth block. -/
def threeOperations (program : Slot → Prog (Iface.sum noOps) Unit) (n : ℕ) : List Move :=
  [.run ⟨0, NPROC_pos⟩ 25, .start ⟨1, one_lt_NPROC⟩ (program ⟨1, one_lt_NPROC⟩),
    .start ⟨2, two_lt_NPROC⟩ (program ⟨2, two_lt_NPROC⟩),
    .start ⟨3, three_lt_NPROC⟩ (program ⟨3, three_lt_NPROC⟩),
    .run ⟨1, one_lt_NPROC⟩ 3, .run ⟨2, two_lt_NPROC⟩ 3, .run ⟨3, three_lt_NPROC⟩ 173,
    .run ⟨2, two_lt_NPROC⟩ 170, .run ⟨1, one_lt_NPROC⟩ n]

theorem threeOperations_calls {program : Slot → Prog (Iface.sum noOps) Unit} {n : ℕ} (t : Slot)
    (q : Prog (Iface.sum noOps) Unit) (h : .start t q ∈ threeOperations program n) :
    q = program t := by
  simp only [threeOperations, List.mem_cons, Move.start.injEq, reduceCtorEq, false_or,
    List.not_mem_nil, or_false] at h
  rcases h with ⟨rfl, rfl⟩ | ⟨rfl, rfl⟩ | ⟨rfl, rfl⟩ <;> rfl

/-- The books are right with three operations in progress and 29 blocks logged. -/
theorem log_bookkeeping_three :
    ∃ s, (bareLayer smallSb ⟨0, by decide⟩ (Describes smallSb) fun t q => q = tenBlocks t).lts.Reach
        s ∧ s.mem.log.outstanding = 3 ∧ s.mem.log.lh.length = 29 ∧ LogBooks s.mem := by
  obtain ⟨s, hr, hs⟩ := exists_reach_of_script smallSb ⟨0, by decide⟩ (Describes smallSb)
    (fun t q => q = tenBlocks t) (threeOperations tenBlocks 163)
    (P := fun s => s.mem.up && decide (s.mem.log.outstanding = 3 ∧ s.mem.log.lh.length = 29))
    (describes_empty _) threeOperations_calls (by decide +kernel)
  rw [Bool.and_eq_true, decide_eq_true_eq] at hs
  exact ⟨s, hr, hs.2.1, hs.2.2, (log_bookkeeping tenBlocks_disciplined hr hs.1).1⟩

/-- An operation that may log one more block has room for it. -/
theorem Inv.room_for (h : Inv sb full True s γ) {b : ℕ} {O : Finset ℕ} (hop : (γ t).op = some O)
    (hcard : (insert b O).card ≤ MAXOPBLOCKS) (hnew : b ∉ s.log.lh) :
    s.log.lh.length + 1 ≤ LOGSIZE := by
  have hO : s.book.ops t = some O := by rw [← h.roles.op t, hop]
  have hup := (h.roles.up_of_not_busy (h.roles.not_busy (t := t) (by simp [hop]))).1
  have hnot : b ∉ O := fun hb => hnew (h.budget.mem t O hO _ hb)
  have hone : 1 ≤ unused (s.book.ops t) := by
    rw [Finset.card_insert_of_notMem hnot] at hcard
    rw [hO, unused_some]
    omega
  have hle : unused (s.book.ops t) ≤ ∑ u, unused (s.book.ops u) :=
    Finset.single_le_sum (f := fun u => unused (s.book.ops u)) (fun u _ => Nat.zero_le _)
      (Finset.mem_univ t)
  have := h.budget.room trivial hup
  omega

/-- **Log reservation is sufficient** if the log on disk has more than `LOGSIZE` blocks (and fewer
than an `int` can count): a `log_write` of a block that is not in the log yet, in an operation that
may log one more block, does not panic with "too big a transaction", whatever the other operations
do. -/
theorem reservation_suffices (hnlog : LOGSIZE < sb.nlog ∧ sb.nlog < 2 ^ 31)
    (hcalls : Disciplined sb False True calls) {s : Pool Slot State U Iface X Prim}
    (hr : (layer sb boot image xsem uinit calls).lts.Reach s) {t : Slot} {i : BufRef}
    {p : Prog Prim Unit} {k : Unit → Prog (Iface.sum X) Unit}
    (hth : s.th t = .code (.log_write i) p k)
    (hnew : (s.mem.buf i).blockno ∉ s.mem.log.lh) :
    (s.mem.logWrite sb t i).1 ≠ some "too big a transaction" := by
  obtain ⟨γ, hγ⟩ := hcalls.reach False.elim False.elim hr
  obtain ⟨x, O, hx, hop, hcard⟩ := hγ.during hth
  rw [(hγ.1.held_ok hx).blockno] at hnew
  have hroom := hγ.1.room_for hop (hcard trivial) hnew
  have hsize : sb.logSize = sb.nlog := by rw [Superblock.logSize, if_pos hnlog.2]
  have hsmall : ¬ (s.mem.log.lh.length ≥ LOGSIZE ∨
      (s.mem.log.lh.length : ℤ) ≥ sb.logSize - 1) := by
    rw [hsize]
    omega
  rw [State.logWrite, if_neg hsmall]
  split_ifs <;> simp

/-- The buffer a process logs, if it is in `log_write`. -/
def loggedBuf : Thread Iface noOps Prim → Option BufRef
  | .code (.log_write i) _ _ => some i
  | _ => none

theorem loggedBuf_eq_some {i : BufRef} {th : Thread Iface noOps Prim} (h : loggedBuf th = some i) :
    ∃ p k, th = .code (.log_write i) p k := by
  unfold loggedBuf at h
  split at h
  · cases h
    exact ⟨_, _, rfl⟩
  · cases h

/-- The thirtieth block of three concurrent operations fits into a log of 31 blocks. -/
theorem reservation_suffices_thirty :
    ∃ s i, (bareLayer smallSb ⟨0, by decide⟩ (Describes smallSb)
        fun t q => q = tenBlocks t).lts.Reach s ∧ s.mem.log.lh.length = 29 ∧
      (s.mem.logWrite smallSb ⟨1, by decide⟩ i).1 ≠ some "too big a transaction" := by
  obtain ⟨s, hr, hs⟩ := exists_reach_of_script smallSb ⟨0, by decide⟩ (Describes smallSb)
    (fun t q => q = tenBlocks t) (threeOperations tenBlocks 163)
    (P := fun s => decide (s.mem.log.lh.length = 29) &&
      (loggedBuf (s.th ⟨1, by decide⟩)).any fun i =>
        decide ((s.mem.buf i).blockno ∉ s.mem.log.lh))
    (describes_empty _) threeOperations_calls (by decide +kernel)
  rw [Bool.and_eq_true, decide_eq_true_eq] at hs
  cases hi : loggedBuf (s.th ⟨1, by decide⟩) with
  | none => simp [hi] at hs
  | some i =>
    obtain ⟨p, k, hth⟩ := loggedBuf_eq_some hi
    refine ⟨s, i, hr, hs.1, ?_⟩
    exact reservation_suffices (by decide) tenBlocks_disciplined hr hth (by simpa [hi] using hs.2)

/-- A log of `LOGSIZE` blocks. -/
def tightSb : Superblock := ⟨200, 64, 30, 2, 33, 40⟩

/-- The message with which a call of `log_write` has panicked. -/
def logPanic : Thread Iface noOps Prim → Option (BufRef × String)
  | .code (.log_write i) (.panic msg) _ => some (i, msg)
  | _ => none

theorem logPanic_eq_some {i : BufRef} {msg : String} {th : Thread Iface noOps Prim}
    (h : logPanic th = some (i, msg)) : ∃ k, th = .code (.log_write i) (.panic msg) k := by
  unfold logPanic at h
  split at h
  · cases h
    exact ⟨_, rfl⟩
  · cases h

/-- Three operations that were admitted and log ten blocks each panic at the thirtieth block, if the
log has `LOGSIZE` blocks. -/
theorem reservation_overruns_tight_log :
    tightSb.nlog = LOGSIZE ∧
    Disciplined tightSb False True (fun t q => q = tenBlocks t) ∧
    ∃ s i k, (bareLayer tightSb ⟨0, by decide⟩ (Describes tightSb)
        fun t q => q = tenBlocks t).lts.Reach s ∧
      s.th ⟨1, by decide⟩ = .code (.log_write i) (.panic "too big a transaction") k ∧
      (s.mem.buf i).blockno ∉ s.mem.log.lh := by
  refine ⟨rfl, tenBlocks_disciplined, ?_⟩
  obtain ⟨s, hr, hs⟩ := exists_reach_of_script tightSb ⟨0, by decide⟩ (Describes tightSb)
    (fun t q => q = tenBlocks t) (threeOperations tenBlocks 164)
    (P := fun s => (logPanic (s.th ⟨1, by decide⟩)).any fun x =>
      decide (x.2 = "too big a transaction" ∧ (s.mem.buf x.1).blockno ∉ s.mem.log.lh))
    (describes_empty _) threeOperations_calls (by decide +kernel)
  cases hi : logPanic (s.th ⟨1, by decide⟩) with
  | none => simp [hi] at hs
  | some x =>
    obtain ⟨i, msg⟩ := x
    obtain ⟨hmsg, hnew⟩ : msg = "too big a transaction" ∧
        (s.mem.buf i).blockno ∉ s.mem.log.lh := by simpa [hi] using hs
    obtain ⟨k, hth⟩ := logPanic_eq_some hi
    exact ⟨s, i, k, hr, hmsg ▸ hth, hnew⟩

/-! ### Absorption -/

/-- **Absorbed writes need no log space** while the log has room for one more block: a `log_write` of
a block that is in the log already succeeds and leaves the header as it is, if the log on disk has more
than `LOGSIZE` blocks. -/
theorem absorbed_write_succeeds (hsize : (LOGSIZE : ℤ) < sb.logSize)
    (hcalls : Disciplined sb False True calls) {s : Pool Slot State U Iface X Prim}
    (hr : (layer sb boot image xsem uinit calls).lts.Reach s) {t : Slot} {i : BufRef}
    {p : Prog Prim Unit} {k : Unit → Prog (Iface.sum X) Unit}
    (hth : s.th t = .code (.log_write i) p k) (hold : (s.mem.buf i).blockno ∈ s.mem.log.lh)
    (hroom : s.mem.log.lh.length < LOGSIZE) :
    (s.mem.logWrite sb t i).1 = none ∧ (s.mem.logWrite sb t i).2.log.lh = s.mem.log.lh := by
  obtain ⟨γ, hγ⟩ := hcalls.reach False.elim False.elim hr
  obtain ⟨x, O, -, hop, -⟩ := hγ.during hth
  -- the process is in an operation, which is counted
  have hout : ¬ s.mem.log.outstanding < 1 := by
    have hone : 1 ≤ (s.mem.book.ops t).isSome.toNat := by simp [← hγ.1.roles.op t, hop]
    have hle := Finset.single_le_sum (f := fun u => (s.mem.book.ops u).isSome.toNat)
      (fun u _ => Nat.zero_le _) (Finset.mem_univ t)
    rw [hγ.1.roles.outstanding]
    omega
  have hsmall : ¬ (s.mem.log.lh.length ≥ LOGSIZE ∨
      (s.mem.log.lh.length : ℤ) ≥ sb.logSize - 1) := by omega
  rw [State.logWrite, if_neg hsmall, if_neg hout, if_pos hold]
  exact ⟨rfl, rfl⟩

/-- Process `t` writes ten blocks of its own, and the first of them a second time. -/
def tenAndAgain (t : Slot) : Prog (Iface.sum noOps) Unit :=
  writeBlocks (fun _ => 1)
    ((List.range MAXOPBLOCKS).map (fun j => 100 + 10 * (t : ℕ) + j) ++ [100 + 10 * (t : ℕ)])

theorem tenAndAgain_disciplined : Disciplined sb False lim fun t q => q = tenAndAgain t := by
  rintro t _ rfl
  refine writeBlocks_follows (fun h => h.elim) ?_
  have hsub : ((List.range MAXOPBLOCKS).map (fun j => 100 + 10 * (t : ℕ) + j) ++
      [100 + 10 * (t : ℕ)]).toFinset ⊆
      ((List.range MAXOPBLOCKS).map fun j => 100 + 10 * (t : ℕ) + j).toFinset := by
    intro b hb
    simp only [List.mem_toFinset, List.mem_append, List.mem_singleton] at hb ⊢
    rcases hb with hb | rfl
    · exact hb
    · exact List.mem_map.mpr ⟨0, by simp [MAXOPBLOCKS], rfl⟩
  refine (Finset.card_le_card hsub).trans ((List.toFinset_card_le _).trans ?_)
  simp

/-- Process 1 has logged ten blocks and calls `log_write` for the first of them again. -/
def oneAgain : List Move :=
  [.run ⟨0, NPROC_pos⟩ 25, .start ⟨1, one_lt_NPROC⟩ (tenAndAgain ⟨1, one_lt_NPROC⟩),
    .run ⟨1, one_lt_NPROC⟩ 182]

/-- An absorbed write in a log of ten blocks. -/
theorem absorbed_write_succeeds_ten :
    ∃ s i, (bareLayer smallSb ⟨0, by decide⟩ (Describes smallSb)
        fun t q => q = tenAndAgain t).lts.Reach s ∧ s.mem.log.lh.length = 10 ∧
      (s.mem.buf i).blockno ∈ s.mem.log.lh ∧
      (s.mem.logWrite smallSb ⟨1, by decide⟩ i).1 = none ∧
      (s.mem.logWrite smallSb ⟨1, by decide⟩ i).2.log.lh = s.mem.log.lh := by
  obtain ⟨s, hr, hs⟩ := exists_reach_of_script smallSb ⟨0, by decide⟩ (Describes smallSb)
    (fun t q => q = tenAndAgain t) oneAgain
    (P := fun s => decide (s.mem.log.lh.length = 10) &&
      (loggedBuf (s.th ⟨1, by decide⟩)).any fun i =>
        decide ((s.mem.buf i).blockno ∈ s.mem.log.lh))
    (describes_empty _) (by simp [oneAgain]) (by decide +kernel)
  rw [Bool.and_eq_true, decide_eq_true_eq] at hs
  cases hi : loggedBuf (s.th ⟨1, by decide⟩) with
  | none => simp [hi] at hs
  | some i =>
    obtain ⟨p, k, hth⟩ := loggedBuf_eq_some hi
    have hold : (s.mem.buf i).blockno ∈ s.mem.log.lh := by simpa [hi] using hs.2
    refine ⟨s, i, hr, hs.1, hold, ?_⟩
    exact absorbed_write_succeeds (by decide) tenAndAgain_disciplined hr hth hold
      (by rw [hs.1]; decide)

/-- The overflow test comes before the search for the block: with three operations of ten blocks each
in a log that has room for them, writing one of these blocks again panics. -/
theorem absorbed_write_panics_when_full :
    (LOGSIZE : ℤ) < smallSb.logSize ∧
    Disciplined smallSb False True (fun t q => q = tenAndAgain t) ∧
    ∃ s i k, (bareLayer smallSb ⟨0, by decide⟩ (Describes smallSb)
        fun t q => q = tenAndAgain t).lts.Reach s ∧
      s.mem.log.lh.length = LOGSIZE ∧ (s.mem.buf i).blockno ∈ s.mem.log.lh ∧
      s.th ⟨1, by decide⟩ = .code (.log_write i) (.panic "too big a transaction") k := by
  refine ⟨by decide, tenAndAgain_disciplined, ?_⟩
  obtain ⟨s, hr, hs⟩ := exists_reach_of_script smallSb ⟨0, by decide⟩ (Describes smallSb)
    (fun t q => q = tenAndAgain t) (threeOperations tenAndAgain 180)
    (P := fun s => decide (s.mem.log.lh.length = LOGSIZE) &&
      (logPanic (s.th ⟨1, by decide⟩)).any fun x =>
        decide (x.2 = "too big a transaction" ∧ (s.mem.buf x.1).blockno ∈ s.mem.log.lh))
    (describes_empty _) threeOperations_calls (by decide +kernel)
  rw [Bool.and_eq_true, decide_eq_true_eq] at hs
  cases hi : logPanic (s.th ⟨1, by decide⟩) with
  | none => simp [hi] at hs
  | some x =>
    obtain ⟨i, msg⟩ := x
    obtain ⟨hmsg, hold⟩ : msg = "too big a transaction" ∧
        (s.mem.buf i).blockno ∈ s.mem.log.lh := by simpa [hi] using hs.2
    obtain ⟨k, hth⟩ := logPanic_eq_some hi
    exact ⟨s, i, k, hr, hs.1, hold, hmsg ▸ hth⟩

end Xv6.Block
