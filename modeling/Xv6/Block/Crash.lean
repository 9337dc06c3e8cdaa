import Xv6.Block.Clients

/-!
# Crash atomicity of the log

A crash can come between any two steps, in a commit or in a recovery, and loses everything but the
disk. When a recovery has run to its end, the disk outside the log has the content after a prefix of
the groups of writes that were committed, and no group whose `commit` had returned is missing.
-/

namespace Xv6.Block

open Lib

/-- Only the end of `fsinit` brings the system up. -/
theorem recovered_of_up {sb : Superblock} {t : Slot} {o : PrimOp} {s s' : State} {r : Prim.Ret o}
    (h : exec sb t o s = some (r, s')) (hdown : s.up = false) (hup : s'.up = true) :
    s'.disk = s.disk ∧ s'.hist.base = s.disk ∧ s'.prev = s.hist := by
  cases o <;> simp only [exec] at h
  case recovered =>
    cases h
    exact ⟨rfl, rfl, rfl⟩
  -- no other operation does
  case acquiresleep | beginOp =>
    split_ifs at h
    cases h
    simp [State.setBuf, State.beginOp, hdown] at hup
  case bget =>
    simp only [State.bget] at h
    split at h
    · cases h
      simp [State.setBuf, hdown] at hup
    · split at h <;> cases h <;> simp [State.setBuf, hdown] at hup
  case unref =>
    simp only [State.unref] at h
    split_ifs at h <;> cases h <;> simp [State.setBuf, hdown] at hup
  case logWrite =>
    simp only [State.logWrite] at h
    split_ifs at h <;> cases h <;>
      simp [State.setBuf, State.bpin, State.recordLog, hdown] at hup
  case endOp =>
    simp only [State.endOp] at h
    split_ifs at h <;> cases h <;> simp [State.wakeup, hdown] at hup
  all_goals
    cases h
    simp [State.setBuf, State.bunpin, State.commitDone, State.wakeup, State.setLh, hdown] at hup

/-- **Crash atomicity of the log.** For any clients that log blocks outside the log, with crashes at
any point, recovery included: when a recovery completes, every block outside the log has the content
it had after the first `k` groups of logged writes, for a `k` that covers every group whose call of
`commit` had returned. -/
theorem recovery_restores_prefix {sb : Superblock} {boot : Slot} {X : Sig} {U : Type}
    {xsem : Sem Slot X U} {uinit : U → Prop} {calls : Slot → Prog (Iface.sum X) Unit → Prop}
    (hnlog : 0 < sb.nlog) (hcalls : Disciplined sb True False calls)
    {s s' : Pool Slot State U Iface X Prim} {l : Label Slot Iface X}
    (hr : (layer sb boot (Describes sb) xsem uinit calls).lts.Reach s)
    (hs : (layer sb boot (Describes sb) xsem uinit calls).lts.step s l s')
    (hdown : s.mem.up = false) (hup : s'.mem.up = true) :
    ∃ k, s.mem.hist.done ≤ k ∧ k ≤ s.mem.hist.groups.length ∧
      ∀ b, ¬ sb.InLog b → s'.mem.disk b = s.mem.hist.content k b := by
  obtain ⟨γ, hγ⟩ := hcalls.reach (fun _ => hnlog) (fun _ _ _ h => h) (hr.step hs)
  have hpast := hγ.1.past trivial hup
  have hrec : s'.mem.disk = s.mem.disk ∧ s'.mem.hist.base = s.mem.disk ∧
      s'.mem.prev = s.mem.hist := by
    cases hs with
    | code hth hsem => exact recovered_of_up hsem hdown hup
    | start _ _ _ => simp [hdown] at hup
    | call _ => simp [hdown] at hup
    | wait _ hw => cases hw <;> simp [State.setAsleep, hdown] at hup
    | ret _ => simp [hdown] at hup
    | loc _ _ => simp [hdown] at hup
    | crash _ => cases hup
  rw [hrec.2.2, hrec.2.1, ← hrec.1] at hpast
  exact hpast

/-- Process 1 writes blocks 100 and 101, the system crashes when the first of them is installed, and
the recovery has one step to go. -/
def crashInCommit : List Move :=
  [.run ⟨0, NPROC_pos⟩ 25, .start ⟨1, one_lt_NPROC⟩ (writeBlocks (fun _ => 7) [100, 101]),
    .run ⟨1, one_lt_NPROC⟩ 110, .crash, .run ⟨0, NPROC_pos⟩ 59]

/-- The recovery after that crash installs both blocks. -/
theorem recovery_restores_prefix_mid_commit :
    ∃ s s' l, (bareLayer smallSb ⟨0, by decide⟩ (Describes smallSb)
        fun _ q => q = writeBlocks (fun _ => 7) [100, 101]).lts.Reach s ∧
      (bareLayer smallSb ⟨0, by decide⟩ (Describes smallSb)
        fun _ q => q = writeBlocks (fun _ => 7) [100, 101]).lts.step s l s' ∧
      s.mem.hist.groups.length = 1 ∧
      ∃ k, s.mem.hist.done ≤ k ∧ k ≤ s.mem.hist.groups.length ∧
        ∀ b, ¬ smallSb.InLog b → s'.mem.disk b = s.mem.hist.content k b := by
  obtain ⟨s, hr, hs⟩ := exists_reach_of_script smallSb ⟨0, by decide⟩ (Describes smallSb)
    (fun _ q => q = writeBlocks (fun _ => 7) [100, 101]) crashInCommit
    (P := fun s => decide (s.mem.hist.groups.length = 1) && !s.mem.up &&
      ((bareLayer smallSb ⟨0, by decide⟩ (Describes smallSb)
        fun _ q => q = writeBlocks (fun _ => 7) [100, 101]).advance (exec smallSb) s
          ⟨0, by decide⟩).any (·.mem.up))
    (describes_empty _) (by simp [crashInCommit]) (by decide +kernel)
  rw [Bool.and_eq_true, Bool.and_eq_true, decide_eq_true_eq] at hs
  have hfollows : Disciplined smallSb True False
      fun _ q => q = writeBlocks (fun _ => 7) [100, 101] := fun _ _ hq =>
    hq ▸ writeBlocks_follows (fun _ => by decide) (by decide)
  cases hadv : (bareLayer smallSb ⟨0, by decide⟩ (Describes smallSb)
      fun _ q => q = writeBlocks (fun _ => 7) [100, 101]).advance (exec smallSb) s
        ⟨0, by decide⟩ with
  | none => simp [hadv] at hs
  | some s' =>
    obtain ⟨l, hl⟩ := Layer.advance_step _ (fun _ _ _ _ _ hx => hx) hadv
    refine ⟨s, s', l, hr, hl, hs.1.1, ?_⟩
    exact recovery_restores_prefix (by decide) hfollows hr hl (by simpa using hs.1.2)
      (by simpa [hadv] using hs.2)

end Xv6.Block
