import Xv6.Fs.View

/-!
# Room in the log and in the cache

A transaction that logs too many blocks panics in `log_write`, and a process that holds too many buffers,
while what it has logged is pinned, panics in `bget`. The code of the file system never holds more than two
buffers, and it divides long writes so that a transaction logs few blocks. Both are read off the code here,
function by function: how many buffers it takes at once, and how often it calls `log_write`. `Runs.fits` and
`Runs.fits_inside` turn what is proved of a run in `Runs` into the same without the panics.
-/

namespace Xv6.Fs

open Lib Lib.Prog Block

variable {α : Type} {μ : Mode} {v v' : View} {p : Code α} {Q : α → View → Prop} {n n' f f' : ℕ}

/-! ### Allowances -/

/-- The blocks that a transaction may log here. -/
def maxLogged : ℕ := 26

/-- What an operation takes of the blocks that may still be logged, and of the buffers that may still be
held. If `free`, blocks may be logged without number, and the code has no transaction of its own. -/
def pay (free : Bool) : (Iface.sum Ops).Op → ℕ × ℕ → Option (ℕ × ℕ)
  | .inl (.bread _), (n, f) => if f = 0 then none else some (n, f - 1)
  | .inl (.brelse _), (n, f) => some (n, f + 1)
  | .inl (.log_write _), (n, f) =>
    if free then some (n, f) else if n = 0 then none else some (n - 1, f)
  | .inl .begin_op, (_, f) => if free then none else some (maxLogged, f)
  | .inl .end_op, a => if free then none else some a
  | _, a => some a

instance steady_pay (free : Bool) : Steady (pay free) where
  more o a a' b h hle := by
    obtain ⟨n, f⟩ := a
    obtain ⟨n', f'⟩ := a'
    obtain ⟨hn, hf⟩ := Prod.mk_le_mk.mp hle
    rcases o with (_ | _ | _ | _ | _ | _ | _ | _) | o <;> simp only [pay] at h ⊢
    case inl.bread =>
      split_ifs at h
      cases h
      exact ⟨(n', f' - 1), if_neg (by omega), Prod.mk_le_mk.mpr ⟨hn, by omega⟩⟩
    case inl.log_write =>
      split_ifs at h with hfree
      · cases h
        exact ⟨(n', f'), if_pos hfree, hle⟩
      · cases h
        rw [if_neg hfree]
        exact ⟨(n' - 1, f'), if_neg (by omega), Prod.mk_le_mk.mpr ⟨by omega, hf⟩⟩
    case inl.begin_op | inl.end_op =>
      split_ifs at h with hfree
      cases h
      rw [if_neg hfree]
      exact ⟨_, rfl, Prod.mk_le_mk.mpr ⟨by omega, hf⟩⟩
    all_goals
      cases h
      exact ⟨_, rfl, Prod.mk_le_mk.mpr ⟨by omega, by omega⟩⟩

/-- An operation that neither starts nor ends a transaction. -/
def inside : (Iface.sum Ops).Op → Bool
  | .inl .begin_op | .inl .end_op => false
  | _ => true

variable {o : (Iface.sum Ops).Op}

theorem pay_free (h : pay true o (n, f) = some (n', f')) (m : ℕ) :
    inside o ∧ pay true o (m, f) = some (m, f') ∧
      ((∀ i, o ≠ .inl (.log_write i)) → pay false o (m, f) = some (m, f')) := by
  rcases o with (_ | _ | _ | i | _ | _ | _ | _) | o <;> simp only [pay] at h ⊢
  case inl.bread =>
    split_ifs at h with h0
    cases h
    exact ⟨rfl, if_neg h0, fun _ => if_neg h0⟩
  case inl.log_write =>
    cases h
    exact ⟨rfl, rfl, fun hne => absurd rfl (hne i)⟩
  all_goals
    cases h
    try exact ⟨rfl, rfl, fun _ => rfl⟩

/-- If logging is free, the room in the log does not matter. -/
theorem affords_free (h : p.Affords (pay true) (n, f) (n', f')) :
    p.Affords (pay true) (0, f) (0, f') := by
  induction p generalizing n f with
  | ret a => exact Prod.mk_le_mk.mpr ⟨le_rfl, (Prod.mk_le_mk.mp h).2⟩
  | panic msg => trivial
  | op o k ih =>
    obtain ⟨⟨m, e⟩, hm, hk⟩ := h
    exact ⟨(0, e), (pay_free hm 0).2.1, fun r => ih r (hk r)⟩

/-! ### What there is room for -/

namespace View

/-- The buffers that the process holds. -/
def holding (v : View) : Finset BufRef := Finset.univ.filter fun i => (v.held i).isSome

theorem card_heldBlocks_le (v : View) : v.heldBlocks.card ≤ v.holding.card := by
  rw [holding, Finset.card_filter]
  refine Finset.card_biUnion_le.trans (Finset.sum_le_sum fun i _ => ?_)
  cases v.held i with
  | none => simp
  | some x => simp

/-- There is room in the log for `n` blocks more, and for `f` buffers more in the cache. -/
structure Room (v : View) (n f : ℕ) : Prop where
  log : v.logged.card + n ≤ maxLogged
  held : v.holding.card + f ≤ 2
  size : maxLogged + 2 ≤ v.logsize

theorem Room.not_full (h : v.Room n f) (msg : String) : ¬ v.Full msg := by
  have hlog := h.log
  have hheld := h.held
  have hsize := h.size
  have huse : v.inUse.card ≤ v.logged.card + v.holding.card :=
    (Finset.card_union_le _ _).trans (Nat.add_le_add_left v.card_heldBlocks_le _)
  have hmax : maxLogged = 26 ∧ LOGSIZE = 30 ∧ NBUF = 30 := by decide
  rintro (⟨hfull | hfull, -⟩ | ⟨hfull, -⟩) <;> omega

variable {i : BufRef} {b : ℕ}

theorem mem_holding : i ∈ v.holding ↔ (v.held i).isSome := by simp [holding]

variable {d : Data}

theorem holding_hold : (v.hold i b d).holding = insert i v.holding := by
  ext j
  rw [Finset.mem_insert, mem_holding, mem_holding]
  by_cases hj : j = i
  · subst hj
    simp
  · simp [hold, hj]

theorem holding_release : (v.release i).holding = v.holding.erase i := by
  ext j
  rw [Finset.mem_erase, mem_holding, mem_holding]
  by_cases hj : j = i
  · subst hj
    simp [release]
  · simp [release, hj]

theorem Room.congr {w w' : View} (h : w.Room n f) (hop : w'.op = w.op) (hheld : w'.held = w.held)
    (hsize : w'.logsize = w.logsize) : w'.Room n f := by
  refine ⟨?_, ?_, hsize ▸ h.size⟩
  · rw [Block.View.logged, hop]
    exact h.log
  · rw [holding, hheld]
    exact h.held

theorem Room.mono (h : v.Room n f) (hle : (n', f') ≤ (n, f)) : v.Room n' f' :=
  ⟨h.log.trans' (Nat.add_le_add_left hle.1 _), h.held.trans' (Nat.add_le_add_left hle.2 _), h.size⟩

theorem Room.hold (h : v.Room n (f + 1)) : (v.hold i b d).Room n f := by
  refine ⟨h.log, ?_, h.size⟩
  have hheld := h.held
  have hle := Finset.card_insert_le i v.holding
  rw [holding_hold]
  omega

theorem Room.release (h : v.Room n f) (hi : v.held i ≠ none) : (v.release i).Room n (f + 1) := by
  refine ⟨h.log, ?_, h.size⟩
  have hheld := h.held
  have hmem : i ∈ v.holding := mem_holding.mpr (Option.isSome_iff_ne_none.mpr hi)
  have hpos := Finset.card_pos.mpr ⟨i, hmem⟩
  rw [holding_release, Finset.card_erase_of_mem hmem]
  omega

theorem Room.logged (h : v.Room (n + 1) f) : (v.log b d).Room n f := by
  refine ⟨?_, h.held, h.size⟩
  have hlog := h.log
  have hle : (v.log b d).logged.card ≤ v.logged.card + 1 := by
    unfold Block.View.logged
    rw [log_op]
    cases v.op with
    | none => exact Nat.zero_le _
    | some S => exact Finset.card_insert_le b S
  omega

end View

/-! ### From `Runs` to `Fits` -/

variable {r : (Iface.sum Ops).Ret o} {x : Option (Finset ℕ)} {c : Caller}

/-- Each operation takes its part of the room. -/
theorem vsem_room (hs : vsem c o v r v') (hv : v.Room n f) (hpay : pay false o (n, f) = some (n', f')) :
    v'.Room n' f' := by
  rcases o with (b | i | ⟨i, d⟩ | i | i | _ | _ | _) | o <;> simp only [pay] at hpay
  case inr =>
    cases hpay
    obtain ⟨-, -, hw⟩ := hs
    exact hv.congr (congrArg (·.op) hw) (congrArg (·.held) hw) (congrArg (·.logsize) hw)
  all_goals obtain ⟨hok, hsem, -, -⟩ := hs
  case inl.bread =>
    obtain ⟨m, rfl⟩ : ∃ m, f = m + 1 := by
      split_ifs at hpay with h0
      exact ⟨f - 1, by omega⟩
    cases hpay
    obtain ⟨-, -, hw⟩ := hsem
    exact (hv.hold (i := r) (b := b) (d := v.content b)).congr (congrArg (·.op) hw)
      (congrArg (·.held) hw) (congrArg (·.logsize) hw)
  case inl.load | inl.initlog =>
    cases hpay
    first | obtain ⟨-, hw⟩ := hsem | have hw := hsem
    exact hv.congr (congrArg (·.op) hw) (congrArg (·.held) hw) (congrArg (·.logsize) hw)
  case inl.store =>
    cases hpay
    have hw : v'.toView = v.setHeld i ((v.held i).map fun x => (x.1, d)) := hsem
    have hholding : v'.holding = v.holding := by
      ext j
      rw [View.mem_holding, View.mem_holding, hw]
      by_cases hj : j = i
      · subst hj
        simp
      · simp [Block.View.setHeld, hj]
    exact ⟨by rw [hw]; exact hv.log, by rw [hholding]; exact hv.held, by rw [hw]; exact hv.size⟩
  case inl.log_write =>
    obtain ⟨m, rfl⟩ : ∃ m, n = m + 1 := by
      rw [if_neg Bool.false_ne_true] at hpay
      split_ifs at hpay with h0
      exact ⟨n - 1, by omega⟩
    cases hpay
    obtain ⟨b, d, -, hw⟩ := hsem
    exact (hv.logged (b := b) (d := d)).congr (congrArg (·.op) hw) (congrArg (·.held) hw)
      (congrArg (·.logsize) hw)
  case inl.brelse =>
    cases hpay
    obtain ⟨c, -, hw⟩ := hsem
    exact (hv.release fun hi => hok _ ⟨hi, rfl⟩).congr (congrArg (·.op) hw) (congrArg (·.held) hw)
      (congrArg (·.logsize) hw)
  case inl.begin_op =>
    cases hpay
    have hw : v'.toView = { v.toView with op := some ∅ } := hsem
    exact ⟨by rw [hw]; exact le_rfl, by rw [View.holding, hw]; exact hv.held, by rw [hw]; exact hv.size⟩
  case inl.end_op =>
    cases hpay
    have hw : v'.toView = { v.toView with op := none } := hsem
    refine ⟨?_, by rw [View.holding, hw]; exact hv.held, by rw [hw]; exact hv.size⟩
    rw [hw]
    exact (Nat.add_le_add_right (Nat.zero_le _) n).trans hv.log

/-- **No operation finds the log or the cache full** if there is room for what the code takes. -/
theorem Runs.fits (h : Runs μ p Q v) (hv : v.Room n f)
    (hpay : p.Affords (pay false) (n, f) (n', f')) :
    Fits μ p (fun a v' => Q a v' ∧ v'.Room n' f') v := by
  have hfull {v : View} {n f : ℕ} {msg : String} (hv : v.Room n f) (hE : μ.panics msg v ∨ v.Full msg) :
      μ.panics msg v := hE.resolve_right (hv.not_full msg)
  induction p generalizing v n f with
  | ret a => exact ⟨h, hv.mono hpay⟩
  | panic msg => exact hfull hv h
  | op o k ih =>
    obtain ⟨⟨m, e⟩, hm, hk⟩ := hpay
    obtain ⟨hlive, hE, hnext⟩ := h
    refine ⟨hlive, fun msg hf => hfull hv (hE msg hf), fun r w hw => ?_⟩
    exact ih r (hnext r w hw) (vsem_room hw hv hm) (hk r)

/-- An operation that logs nothing does the same in a transaction and outside. -/
theorem vsem_setOp (ho : inside o) (hlog : ∀ i, o ≠ .inl (.log_write i)) (hx : (v.setOp x).Room n f)
    (hs : vsem c o v r v') : vsem c o (v.setOp x) r (v'.setOp x) ∧ v'.op = v.op := by
  rcases o with (b | i | ⟨i, d⟩ | i | i | _ | _ | _) | o
  case inl.log_write => exact absurd rfl (hlog i)
  case inl.begin_op => cases ho
  case inl.end_op => cases ho
  case inr =>
    obtain ⟨hk, hg, hw⟩ := hs
    exact ⟨⟨hk, hg, congrArg (fun u : Block.View => { u with op := x }) hw⟩, congrArg (·.op) hw⟩
  all_goals
    obtain ⟨hok, hsem, hkeep, hk⟩ := hs
  case inl.bread =>
    obtain ⟨hi, hother, hw⟩ := hsem
    refine ⟨⟨fun msg hf => hx.not_full msg (.inr hf.2), ⟨hi, hother, ?_⟩, hkeep, hk⟩, congrArg (·.op) hw⟩
    exact congrArg (fun u : Block.View => { u with op := x }) hw
  case inl.load =>
    obtain ⟨hd, hw⟩ := hsem
    exact ⟨⟨hok, ⟨hd, congrArg (fun u : Block.View => { u with op := x }) hw⟩, hkeep, hk⟩,
      congrArg (·.op) hw⟩
  case inl.brelse =>
    obtain ⟨e, he, hw⟩ := hsem
    exact ⟨⟨hok, ⟨e, he, congrArg (fun u : Block.View => { u with op := x }) hw⟩, hkeep, hk⟩,
      congrArg (·.op) hw⟩
  case inl.store =>
    have hw : v'.toView = v.setHeld i ((v.held i).map fun x => (x.1, d)) := hsem
    have hw' := congrArg (fun u : Block.View => { u with op := x }) hw
    exact ⟨⟨hok, hw', hkeep, hk⟩, congrArg (·.op) hw⟩
  case inl.initlog =>
    have hw : v'.toView = v.toView := hsem
    have hw' := congrArg (fun u : Block.View => { u with op := x }) hw
    exact ⟨⟨hok, hw', hkeep, hk⟩, congrArg (·.op) hw⟩

theorem vfails_setOp {msg : String} (ho : inside o) (hlog : ∀ i, o ≠ .inl (.log_write i))
    (hv : v.Room n f) (hf : vfails o v msg) : vfails o (v.setOp x) msg := by
  rcases o with (b | i | ⟨i, d⟩ | i | i | _ | _ | _) | o
  case inl.bread => exact absurd (.inr hf.2) (hv.not_full msg)
  case inl.log_write => exact absurd rfl (hlog i)
  case inl.brelse => exact hf
  case inl.begin_op => cases ho
  case inl.end_op => cases ho
  all_goals exact hf.elim

/-- The panics of code that reads: whether it is in a transaction does not matter, and it logs nothing. -/
structure Mode.Reads (μ : Mode) : Prop where
  anyOp : ∀ msg v, μ.panics msg (v.setOp none) → μ.panics msg v
  noLog : ∀ v, ¬ μ.panics "log_write outside of trans" v

/-- **Code that runs outside a transaction runs in one**, and logs nothing. -/
theorem Runs.fits_reading (hμ : μ.Reads) (h : Runs μ p Q (v.setOp none)) (hv : v.Room n f)
    (hpay : p.Affords (pay true) (0, f) (0, f')) :
    Fits μ p (fun a v' => Q a (v'.setOp none) ∧ v'.op = v.op ∧ v'.Room n f') v := by
  have houtside {v : View} {f : ℕ} (hv : v.Room n f) : (v.setOp none).Room n f :=
    ⟨(Nat.add_le_add_right (Nat.zero_le _) n).trans hv.log, hv.held, hv.size⟩
  have hE' {v : View} {f : ℕ} {msg : String} (hv : v.Room n f)
      (hE : μ.panics msg (v.setOp none) ∨ (v.setOp none).Full msg) : μ.panics msg v :=
    hμ.anyOp msg v (hE.resolve_right ((houtside hv).not_full msg))
  induction p generalizing v f with
  | ret a => exact ⟨h, rfl, hv.mono (Prod.mk_le_mk.mpr ⟨le_rfl, (Prod.mk_le_mk.mp hpay).2⟩)⟩
  | panic msg => exact hE' hv h
  | op o k ih =>
    obtain ⟨⟨m, e⟩, hm, hk⟩ := affords_free hpay
    obtain ⟨ho, -, hn⟩ := pay_free hm n
    obtain ⟨hlive, hE, hnext⟩ := h
    -- outside a transaction `log_write` panics, so that the code does not call it
    have hlog : ∀ i, o ≠ .inl (.log_write i) := by
      rintro i rfl
      have hempty := (houtside hv).not_full "too big a transaction"
      exact hμ.noLog v (hE' hv (hE _ (.inr ⟨fun hf => hempty (.inl ⟨hf, rfl⟩), rfl, rfl⟩)))
    refine ⟨fun hl => ?_, fun msg hf => ?_, fun r w hw => ?_⟩
    · rcases hlive hl with ⟨msg, hf⟩ | ⟨r, w, hw⟩
      · exact .inl ⟨msg, vfails_setOp (v := v.setOp none) (x := v.op) ho hlog (houtside hv) hf⟩
      · exact .inr ⟨r, w.setOp v.op, (vsem_setOp (v := v.setOp none) (x := v.op) ho hlog hv hw).1⟩
    · exact hE' hv (hE msg (vfails_setOp ho hlog hv hf))
    · obtain ⟨hw', hop⟩ := vsem_setOp ho hlog (houtside hv) hw
      rw [← hop]
      exact ih r (hnext r _ hw') (vsem_room hw hv (hn hlog)) (affords_free (hk r))

/-- The same, with the transaction put back. -/
theorem Runs.fits_inside (hμ : μ.Reads) (h : Runs μ p (fun a w => Q a (w.setOp v.op)) (v.setOp none))
    (hv : v.Room n f) (hpay : p.Affords (pay true) (0, f) (0, f')) :
    Fits μ p (fun a v' => Q a v' ∧ v'.Room n f') v := by
  refine (Runs.fits_reading hμ h hv hpay).mono ?_
  rintro a v' ⟨hQ, hop, hv'⟩
  rw [← hop] at hQ
  exact ⟨hQ, hv'⟩

/-- A process that holds no buffer. -/
theorem View.Idle.room (hidle : v.Idle) (hlog : v.logged.card + n ≤ maxLogged)
    (hsize : maxLogged + 2 ≤ v.logsize) : v.Room n 2 := by
  have hnone : v.holding = ∅ := by
    refine Finset.filter_false_of_mem fun i _ => ?_
    rw [hidle i]
    exact Bool.false_ne_true
  exact ⟨hlog, by rw [hnone]; exact le_rfl, hsize⟩

theorem View.card_logged_outside (h : v.op = none) : v.logged.card = 0 := by
  rw [Block.View.logged, h]
  rfl

/-- Code in a transaction of its own. -/
theorem fits_transaction (hidle : v.Idle) (hsize : maxLogged + 2 ≤ v.logsize)
    (h : (v.setOp (some ∅)).Room maxLogged 2 →
      Fits μ p (fun a w => Q a (w.setOp none) ∧ w.Room 0 2) (v.setOp (some ∅))) :
    Fits μ (do
      blk .begin_op
      let a ← p
      blk .end_op
      return a) Q v := by
  refine runs_bind (runs_begin_op (runs_bind ((h (View.Idle.room hidle le_rfl hsize)).mono ?_)))
  rintro a w ⟨hQ, hroom⟩
  exact runs_bind (runs_end_op (fun msg hf => absurd hf (hroom.not_full msg)) (runs_pure hQ))

/-! ### What the code takes -/

section costs

variable {β : Type} {b : ℕ} {i : BufRef} {d : Data} {g : Unit → Code β} {free : Bool} {a : ℕ × ℕ}
  (sb : Superblock) (ip : InodeRef)

theorem log_le (h : n' ≤ n) : (n', f) ≤ (n, f) := Prod.mk_le_mk.mpr ⟨h, le_rfl⟩

theorem costs_read {g : BufRef → Data → Code β} (h : ∀ i d, (g i d).Affords (pay free) (n, f) a) :
    (do
      let bp : BufRef ← blk (.bread b)
      let d : Data ← blk (.load bp)
      g bp d : Code β).Affords (pay free) (n, f + 1) a :=
  ⟨_, rfl, fun bp => ⟨_, rfl, h bp⟩⟩

theorem costs_drop (h : (g ()).Affords (pay free) (n, f + 1) a) :
    (blk (.brelse i) >>= g).Affords (pay free) (n, f) a := ⟨_, rfl, fun _ => h⟩

theorem costs_log (h : (g ()).Affords (pay free) (n, f) a) :
    (blk (.log_write i) >>= g).Affords (pay free) (n + 1, f) a := by
  cases free with
  | false => exact ⟨_, rfl, fun _ => h⟩
  | true => exact ⟨_, rfl, fun _ => h.mono (log_le (Nat.le_succ n))⟩

theorem costs_write (h : (g ()).Affords (pay free) (n, f + 1) a) :
    (do
      blk (.store i d)
      blk (.log_write i)
      let x ← blk (.brelse i)
      g x : Code β).Affords (pay free) (n + 1, f) a :=
  ⟨_, rfl, fun _ => costs_log (costs_drop h)⟩

theorem costs_write_last :
    (do
      blk (.store i d)
      blk (.log_write i)
      blk (.brelse i) : Code Unit).Affords (pay free) (n + 1, f) (n, f + 1) :=
  ⟨_, rfl, fun _ => costs_log ⟨_, rfl, fun _ => le_rfl⟩⟩

theorem costs_tab {o : KernOp} {g : Ops.Ret o → Code β} (h : ∀ r, (g r).Affords (pay free) (n, f) a) :
    (tab o >>= g).Affords (pay free) (n, f) a := ⟨_, rfl, h⟩

theorem costs_tab_last (o : KernOp) : (tab o).Affords (pay free) (n, f) (n, f) :=
  ⟨_, rfl, fun _ => le_rfl⟩

/-- The bit and the block. -/
theorem costs_balloc : (balloc sb).Affords (pay free) (n + 2, f + 1) (n, f + 1) := by
  have hfrom (m t : ℕ) : (ballocFrom sb m t).Affords (pay free) (n + 2, f + 1) (n, f + 1) := by
    induction m generalizing t with
    | zero => trivial
    | succ m ih =>
      refine costs_read fun i d => ?_
      split
      · refine costs_write (Affords.bind (b := (n, f + 1)) ?_ fun _ => le_rfl)
        exact ⟨_, rfl, fun _ => costs_write_last⟩
      · exact costs_drop (ih _)
  exact hfrom _ _

theorem costs_bfree (bno : ℕ) : (bfree sb bno).Affords (pay free) (n + 1, f + 1) (n, f + 1) :=
  costs_read fun _ _ => affords_ite trivial costs_write_last

theorem costs_iupdate : (iupdate sb ip).Affords (pay free) (n + 1, f + 1) (n, f + 1) :=
  costs_tab fun _ => costs_read fun _ _ => costs_write_last

theorem costs_ilock : (ilock sb ip).Affords (pay free) (n, f + 1) (n, f + 1) := by
  refine costs_tab fun (r : ℤ) => affords_ite trivial (costs_tab fun _ => costs_tab fun x => ?_)
  refine affords_when (costs_read fun i d => costs_tab fun _ => costs_drop ?_) le_rfl
  exact costs_tab fun _ => affords_ite trivial le_rfl

theorem costs_iunlock : (iunlock ip).Affords (pay free) (n, f) (n, f) :=
  costs_tab fun (_ : Bool) => costs_tab fun (_ : ℤ) => affords_ite trivial (costs_tab_last _)

/-- Two blocks of the file, each with its bit, and the entry of the indirect block. -/
theorem costs_bmap (bn : ℕ) : (bmap sb ip bn).Affords (pay free) (n + 5, f + 2) (n, f + 2) := by
  have haddr (m : ℕ) (k : Fin (NDIRECT + 1)) :
      (bmapAddr sb ip k).Affords (pay free) (m + 2, f + 2) (m, f + 2) := by
    refine costs_tab fun x => affords_ite ?_ (log_le (Nat.le_add_right m 2))
    exact (costs_balloc sb).bind fun _ => costs_tab fun _ => le_rfl
  unfold bmap
  split
  · exact (haddr n _).mono (log_le (by omega))
  · refine affords_ite ((haddr (n + 3) _).bind fun _ => costs_read fun i d => ?_) trivial
    refine affords_ite ((costs_balloc sb).bind fun _ => ?_) (costs_drop ?_)
    · exact costs_write le_rfl
    · exact log_le (Nat.le_add_right n 3)

/-- A write that touches `k` blocks of the file. -/
theorem costs_writei (src : Source) {off len k : ℕ} (hk : off % BSIZE + len ≤ k * BSIZE) :
    (writei sb ip src off len).Affords (pay free) (n + 6 * k + 1, f + 2) (n, f + 2) := by
  have hcopy (m tot l : ℕ) : (either_copyin src tot l).Affords (pay free) (m, f + 1) (m, f + 1) := by
    cases src with
    | user addr => exact costs_tab_last _
    | kernel l => exact le_rfl
  have hfrom (m fuel off len tot k : ℕ) (hk : len = 0 ∨ off % BSIZE + len ≤ k * BSIZE) :
      (writeiFrom sb ip src fuel off len tot).Affords (pay free) (m + 6 * k, f + 2) (m, f + 2) := by
    induction fuel generalizing off len tot k with
    | zero => exact log_le (Nat.le_add_right m _)
    | succ fuel ih =>
      unfold writeiFrom
      split
      · exact log_le (Nat.le_add_right m _)
      · rename_i h0
        have hk := hk.resolve_left h0
        obtain ⟨j, rfl⟩ : ∃ j, k = j + 1 := Nat.exists_eq_succ_of_ne_zero (by rintro rfl; omega)
        rw [show m + 6 * (j + 1) = m + 6 * j + 1 + 5 by omega]
        refine (costs_bmap sb ip _).bind fun _ => ⟨_, rfl, fun i => (hcopy _ _ _).bind fun x => ?_⟩
        refine ⟨_, rfl, fun d => ⟨_, rfl, fun _ => affords_ite ?_ ?_⟩⟩
        · refine costs_log (costs_drop (ih _ _ _ j ?_))
          simp only [BSIZE] at hk ⊢
          omega
        · exact costs_drop (log_le (by omega))
  refine costs_tab fun x => affords_ite (log_le (by omega)) (affords_ite (log_le (by omega)) ?_)
  rw [Nat.add_right_comm]
  refine (hfrom (n + 1) _ _ _ _ k (.inr hk)).bind fun y => costs_tab fun z => ?_
  refine (affords_when (costs_tab_last _) le_rfl).bind fun _ => ?_
  exact (costs_iupdate sb ip).bind fun _ => le_rfl

/-! ### Code that may log without number -/

theorem costs_readi (dst : Dest) (off len : ℕ) :
    (readi sb ip dst off len).Affords (pay true) (0, f + 2) (0, f + 2) := by
  have hcopy (tot : ℕ) (l : List UInt8) :
      (either_copyout dst tot l).Affords (pay true) (0, f + 1) (0, f + 1) := by
    cases dst with
    | user addr => exact costs_tab_last _
    | kernel => exact le_rfl
  have hfrom (fuel off len : ℕ) (l : List UInt8) :
      (readiFrom sb ip dst fuel off len l).Affords (pay true) (0, f + 2) (0, f + 2) := by
    induction fuel generalizing off len l with
    | zero => exact le_rfl
    | succ fuel ih =>
      refine affords_ite le_rfl ((affords_free (costs_bmap sb ip _ (n := 0))).bind fun _ => ?_)
      refine costs_read fun i d => (hcopy _ _).bind fun x => costs_drop ?_
      exact affords_ite (ih _ _ _) le_rfl
  exact costs_tab fun x => affords_ite (le_refl (0, f + 2)) (hfrom _ _ _ _)

theorem costs_readDirent (off : ℕ) (msg : String) :
    (readDirent sb ip off msg).Affords (pay true) (0, f + 2) (0, f + 2) :=
  (costs_readi sb ip .kernel off 16).bind fun _ => affords_ite le_rfl trivial

theorem costs_iget (dev inum : ℕ) : (iget dev inum).Affords (pay free) (n, f) (n, f) := by
  refine costs_tab fun (r : Option InodeRef) => ?_
  cases r with
  | none => trivial
  | some ip => exact le_rfl

theorem costs_itrunc : (itrunc sb ip).Affords (pay true) (0, f + 2) (0, f + 2) := by
  have hbfree (f b : ℕ) := affords_free (costs_bfree (n := 0) (f := f) sb b)
  have hdirect (ks : List (Fin (NDIRECT + 1))) :
      (itruncDirect sb ip ks).Affords (pay true) (0, f + 2) (0, f + 2) := by
    induction ks with
    | nil => exact le_rfl
    | cons k ks ih =>
      refine costs_tab fun x => Affords.bind (affords_when ?_ le_rfl) fun _ => ih
      exact (hbfree _ _).bind fun _ => costs_tab_last _
  have hentries (d : Data) (js : List ℕ) :
      (itruncEntries sb d js).Affords (pay true) (0, f + 1) (0, f + 1) := by
    induction js with
    | nil => exact le_rfl
    | cons j js ih => exact (affords_when (hbfree _ _) le_rfl).bind fun _ => ih
  refine (hdirect _).bind fun _ => ?_
  refine Affords.bind (b := (0, f + 2)) (costs_tab fun x => affords_when ?_ le_rfl) fun _ => ?_
  · refine costs_read fun i d => (hentries d _).bind fun _ => costs_drop ?_
    exact (hbfree _ _).bind fun _ => costs_tab_last _
  · exact costs_tab fun x => costs_tab fun _ => affords_free (costs_iupdate sb ip (n := 0))

theorem costs_iput : (iput sb ip).Affords (pay true) (0, f + 2) (0, f + 2) := by
  refine costs_tab fun (x : IputCase) => ?_
  cases x with
  | dropped => exact le_rfl
  | stuck => trivial
  | freeing =>
    refine (costs_itrunc sb ip).bind fun _ => costs_tab fun x => costs_tab fun _ => ?_
    refine (affords_free (costs_iupdate sb ip (n := 0))).bind fun _ => ?_
    exact costs_tab fun _ => costs_tab fun _ => costs_tab_last _

theorem costs_dirlookup (name : List UInt8) :
    (dirlookup sb ip name).Affords (pay true) (0, f + 2) (0, f + 2) := by
  have hfrom (dev : ℕ) (offs : List ℕ) :
      (dirlookupFrom sb ip dev name offs).Affords (pay true) (0, f + 2) (0, f + 2) := by
    induction offs with
    | nil => exact le_rfl
    | cons off offs ih =>
      refine (costs_readDirent sb ip off _).bind fun de => affords_ite ?_ ih
      exact (costs_iget dev _).bind fun _ => le_rfl
  exact costs_tab fun (x : Inode) => affords_ite trivial (hfrom _ _)

theorem costs_emptySlotFrom (offs : List ℕ) (last : ℕ) :
    (emptySlotFrom sb ip offs last).Affords (pay true) (0, f + 2) (0, f + 2) := by
  induction offs with
  | nil => exact le_rfl
  | cons off offs ih =>
    exact (costs_readDirent sb ip off _).bind fun de => affords_ite le_rfl ih

end costs

end Xv6.Fs
