import Xv6.Lib.Runs
import Xv6.Block.Bookkeeping

/-!
# The buffers that a commit needs

Every block in the log header stays pinned until `install_trans` has copied it home, and meanwhile
`write_log`, `write_head` and `install_trans` need buffers for the blocks of the log. The header has room
for `LOGSIZE` blocks, and the cache has `NBUF` buffers. The two numbers are equal, so a full log leaves no
buffer for the first log block.
-/

namespace Xv6.Block

open Lib Lib.Prog

variable {sb : Superblock} {full lim : Prop} {s : State} {γ : Slot → Local} {t : Slot} {boot : Slot}
  {image : (ℕ → Data) → (ℕ → Data) → Prop} {X : Sig} {U : Type} {xsem : Sem Slot X U}
  {uinit : U → Prop} {calls : Slot → Prog (Iface.sum X) Unit → Prop}

/-- Nobody refers to a buffer if there are no references but pins. -/
theorem Inv.link_empty (h : Inv sb full lim s γ) (hrefs : ∀ u i, s.book.refs u i = 0) (u : Slot)
    (i : BufRef) : (γ u).link i = .empty := by
  have hcount := (h.cache.ok i).linked u
  rw [hrefs u i] at hcount
  cases hl : (γ u).link i with
  | mk held pend =>
    rw [links, hl] at hcount
    cases held <;> cases pend <;> simp [Link.count, Link.empty] at hcount ⊢

/-- The process that has to commit is the one that is busy, after recovery and outside `commit`. -/
theorem Inv.entered (h : Inv sb full lim s γ) (hup : s.up) (hbusy : s.book.busy = some t)
    (hidle : ¬ s.InCommit) : (γ t).phase = .entered := by
  have hlh := h.lh
  have hphase : s.up = (phaseOf s γ).up := h.roles.up
  have hpo : phaseOf s γ = (γ t).phase := by rw [phaseOf, hbusy]
  rw [hpo] at hlh hphase
  cases hφ : (γ t).phase with
  | idle => exact absurd hφ (h.roles.busy t hbusy)
  | entered => rfl
  | commit l S st =>
    rw [hφ] at hlh
    refine absurd ?_ hidle
    rw [State.InCommit, hlh.2.2.2]
    omega
  | booting | replay l S st =>
    rw [hφ, hup] at hphase
    cases hphase

/-- `commit` by the process that has to commit, while no process refers to a buffer. -/
theorem Inv.commit_returns_iff (h : Inv sb full lim s γ) (hnlog : full → 0 < sb.nlog)
    (hg : (γ t).phase = .entered) (hempty : ∀ u i, (γ u).link i = .empty) :
    (∃ s', (commit sb).run (exec sb t) s = .returned () s') ↔ Fits sb s.log.lh := by
  obtain ⟨_, hI, l, S, rfl⟩ := does_commitCalled hg s γ h rfl () _ rfl
  have hφ : (Function.update γ t ((γ t).setPhase (.commit l S (.writing 0))) t).phase =
      .commit l S (.writing 0) := by simp
  have hlh : s.log.lh = l := (hI.committing hφ).2.1
  have hbody : Spec sb full lim (Fits sb l) t (commitBody sb)
      (fun _ g' => g' = (γ t).setPhase .entered ∧ Fits sb l)
      ((γ t).setPhase (.commit l S (.writing 0))) :=
    wp_commitBody hnlog (fun i => by rw [hempty t i, Link.empty_pend]) fun hl => ⟨hempty t, hl⟩
  rw [← Function.update_self t ((γ t).setPhase (.commit l S (.writing 0))) γ] at hbody
  rw [hlh]
  rcases run_of_wp (exec sb t) (fun _ _ _ _ => Iff.rfl) hbody
    ⟨hI, fun _ u hu i => by rw [Function.update_of_ne hu]; exact hempty u i⟩ with
    ⟨⟨⟩, s', -, hrun, -, -, hl⟩ | ⟨hl, hno⟩
  · exact ⟨fun _ => hl, fun _ => ⟨s', hrun⟩⟩
  · exact ⟨fun ⟨s', hrun⟩ => absurd hrun (hno () s'), fun h => absurd h hl⟩

/-- **Commit finds buffers** if and only if the transaction has fewer than `NBUF` blocks, none of which is
the log block that it is written to. In every reachable state after recovery, when a process is about to
call `commit` and no process refers to a buffer: the call returns, through `write_log`, both calls of
`write_head` and `install_trans`, in that case; and otherwise it panics, or waits for itself for ever. -/
theorem commit_finds_buffers (hcalls : Disciplined sb False lim calls)
    {s : Pool Slot State U Iface X Prim}
    (hr : (layer sb boot image xsem uinit calls).lts.Reach s) (hup : s.mem.up)
    (hbusy : s.mem.book.busy = some t) (hidle : ¬ s.mem.InCommit)
    (hrefs : ∀ u i, s.mem.book.refs u i = 0) :
    (∃ s', (commit sb).run (exec sb t) s.mem = .returned () s') ↔
      s.mem.log.lh.length < NBUF ∧
        ∀ k (hk : k < s.mem.log.lh.length), s.mem.log.lh[k] ≠ sb.logstart + k + 1 := by
  obtain ⟨γ, hI, -⟩ := hcalls.reach False.elim False.elim hr
  rw [hI.commit_returns_iff (fun h => h.elim) (hI.entered hup hbusy hidle) (hI.link_empty hrefs)]
  exact ⟨fun h => ⟨h.short, h.apart⟩, fun h => ⟨h.1, h.2⟩⟩

/-- Process 1 is about to call `commit`, and no process refers to a buffer. -/
def Commits (s : State) : Prop :=
  s.book.busy = some ⟨1, one_lt_NPROC⟩ ∧ s.hist.done = s.hist.groups.length ∧
    ∀ u i, s.book.refs u i = 0

instance (s : State) : Decidable (Commits s) := inferInstanceAs (Decidable (_ ∧ _))

/-- Process 1 has logged ten blocks. -/
theorem commit_finds_buffers_ten :
    ∃ s s', (bareLayer smallSb ⟨0, by decide⟩ (Describes smallSb)
        fun t q => q = tenBlocks t).lts.Reach s ∧ s.mem.log.lh.length = 10 ∧
      (commit smallSb).run (exec smallSb ⟨1, by decide⟩) s.mem = .returned () s' := by
  obtain ⟨s, hr, hs⟩ := exists_reach_of_script smallSb ⟨0, by decide⟩ (Describes smallSb)
    (fun t q => q = tenBlocks t) [.run ⟨0, NPROC_pos⟩ 25,
      .start ⟨1, one_lt_NPROC⟩ (tenBlocks ⟨1, one_lt_NPROC⟩), .run ⟨1, one_lt_NPROC⟩ 175]
    (P := fun s => s.mem.up && decide (Commits s.mem ∧ s.mem.log.lh.length = 10 ∧
      ∀ k (hk : k < s.mem.log.lh.length), s.mem.log.lh[k] ≠ smallSb.logstart + k + 1))
    (describes_empty _) (by simp) (by decide +kernel)
  rw [Bool.and_eq_true, decide_eq_true_eq] at hs
  obtain ⟨hup, ⟨hbusy, hdone, hrefs⟩, hlen, hapart⟩ := hs
  obtain ⟨s', hrun⟩ := (commit_finds_buffers (tenBlocks_disciplined : Disciplined _ _ True _) hr hup hbusy
    (fun hc => hc hdone) hrefs).mpr ⟨by rw [hlen]; decide, hapart⟩
  exact ⟨s, s', hr, hlen, hrun⟩

/-- Three operations that were admitted log ten blocks each. When the last of them ends, all `NBUF`
buffers are pinned, no process refers to any, and `commit` panics in the first `bread` of `write_log`. -/
theorem commit_runs_out_of_buffers :
    (LOGSIZE : ℤ) + 1 ≤ smallSb.logSize ∧
    Disciplined smallSb False True (fun t q => q = tenBlocks t) ∧
    ∃ s s', (bareLayer smallSb ⟨0, by decide⟩ (Describes smallSb)
        fun t q => q = tenBlocks t).lts.Reach s ∧ Commits s.mem ∧ s.mem.log.lh.length = LOGSIZE ∧
      (commit smallSb).run (exec smallSb ⟨1, by decide⟩) s.mem = .panicked "bget: no buffers" s' := by
  refine ⟨by decide, tenBlocks_disciplined, ?_⟩
  obtain ⟨s, hr, hs⟩ := exists_reach_of_script smallSb ⟨0, by decide⟩ (Describes smallSb)
    (fun t q => q = tenBlocks t) (threeOperations tenBlocks 170 ++ [.run ⟨3, three_lt_NPROC⟩ 3,
      .run ⟨2, two_lt_NPROC⟩ 3, .run ⟨1, one_lt_NPROC⟩ 2])
    (P := fun s => decide (Commits s.mem ∧ s.mem.log.lh.length = LOGSIZE) &&
      match (commit smallSb).run (exec smallSb ⟨1, by decide⟩) s.mem with
      | .panicked msg _ => msg == "bget: no buffers"
      | _ => false)
    (describes_empty _) (fun t q h => threeOperations_calls (n := 170) t q (by simpa using h))
    (by decide +kernel)
  rw [Bool.and_eq_true, decide_eq_true_eq] at hs
  obtain ⟨⟨hcommits, hlen⟩, hpanic⟩ := hs
  split at hpanic
  · rename_i msg s' hrun
    exact ⟨s, s', hr, hcommits, hlen, by rw [hrun, eq_of_beq hpanic]⟩
  · cases hpanic

end Xv6.Block
