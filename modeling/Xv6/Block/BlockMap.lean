import Xv6.Block.Clients

/-!
# The cache and the log refine a map of blocks

Whatever processes do, `bread` returns the content that was most recently logged for the block, by
any process, or the content the disk had when the log was recovered. Between `log_write` and
`install_trans` that content exists only in the cache.
-/

namespace Xv6.Block

open Lib

variable {sb : Superblock} {boot : Slot} {X : Sig} {U : Type} {xsem : Sem Slot X U}
  {uinit : U → Prop} {calls : Slot → Prog (Iface.sum X) Unit → Prop}

/-- **Cache plus log refine a plain block map.** For any clients that log every change before they
release the buffer, in every interleaving, with commits, recycling of buffers and crashes at any
point: when a call of `bread` for a block outside the log returns buffer `i`, the process holds its
lock and the buffer has the content most recently logged for the block. -/
theorem bread_returns_logged (hnlog : 0 < sb.nlog) (hcalls : Disciplined sb True False calls)
    {s s' : Pool Slot State U Iface X Prim}
    (hr : (layer sb boot (Describes sb) xsem uinit calls).lts.Reach s) {t : Slot} {b : ℕ}
    {i : BufRef} (hb : ¬ sb.InLog b)
    (hs : (layer sb boot (Describes sb) xsem uinit calls).lts.step s (.ret t (.bread b) i) s') :
    (s'.mem.buf i).lock = some t ∧ (s'.mem.buf i).dev = ROOTDEV ∧ (s'.mem.buf i).blockno = b ∧
      (s'.mem.buf i).data = s'.mem.hist.logged b := by
  obtain ⟨γ, hγ⟩ := hcalls.reach (fun _ => hnlog) (fun _ _ _ h => h) hr
  cases hs with
  | ret hth =>
    have hI := hγ.1
    obtain ⟨g₀, hready, hlink, x, hxb, hxv, hxd, hg⟩ := hγ.returned hth
    have hx : ((γ t).link i).held = some x := by rw [hg]; simp
    have hup : s.mem.up = true := hI.roles.on t (by rw [hg]; exact hready.on)
    have hm := hI.held_ok hx
    refine ⟨(hI.cache.ok i).lock_of_held hx, hm.dev, hm.blockno.trans hxb, ?_⟩
    rw [hm.data, ← hxb]
    exact hI.data_eq_logged trivial hx hxv hxd hup (by rwa [hxb])

/-- The buffer that a call of `bread` is about to return. -/
def readResult (b : ℕ) : Thread Iface noOps Prim → Option BufRef
  | .code (.bread c) (.ret i) _ => if c = b then some i else none
  | _ => none

theorem readResult_eq_some {b : ℕ} {i : BufRef} {th : Thread Iface noOps Prim}
    (h : readResult b th = some i) : ∃ k, th = .code (.bread b) (.ret i) k := by
  unfold readResult at h
  split at h
  · split_ifs at h with hc
    cases h
    subst hc
    exact ⟨_, rfl⟩
  · cases h

/-- Block 100 is changed and read. -/
def changeAndRead (_ : Slot) (q : Prog (Iface.sum noOps) Unit) : Prop :=
  q = writeBlocks (fun _ => 7) [100] ∨ q = readBlock 100

theorem changeAndRead_disciplined : Disciplined smallSb True False changeAndRead := by
  rintro t q (rfl | rfl)
  · exact writeBlocks_follows (fun _ => by decide) (by decide)
  · exact readBlock_follows 100

/-- Process 1 has logged block 100, and is still in its operation; then process 2 takes `n` steps of a
read. -/
def changeThenRead (n : ℕ) : List Move :=
  [.run ⟨0, by decide⟩ 25, .start ⟨1, by decide⟩ (writeBlocks (fun _ => 7) [100]),
    .run ⟨1, by decide⟩ 20, .start ⟨2, by decide⟩ (readBlock 100), .run ⟨2, by decide⟩ n]

theorem changeThenRead_calls {n : ℕ} {t : Slot} {q : Prog (Iface.sum noOps) Unit}
    (hq : .start t q ∈ changeThenRead n) : changeAndRead t q := by
  simp only [changeThenRead, List.mem_cons, reduceCtorEq, Move.start.injEq, List.not_mem_nil,
    false_or, or_false] at hq
  exact hq.imp And.right And.right

/-- Process 2 reads what process 1 has logged and not committed; the disk still has the old bytes. -/
theorem bread_returns_logged_uncommitted :
    ∃ s s' i, (bareLayer smallSb ⟨0, by decide⟩ (Describes smallSb) changeAndRead).lts.Reach s ∧
      (bareLayer smallSb ⟨0, by decide⟩ (Describes smallSb) changeAndRead).lts.step s
        (.ret ⟨2, by decide⟩ (.bread 100) i) s' ∧ s'.mem.log.lh = [100] ∧
      s'.mem.disk 100 ⟨0, by decide⟩ = 0 ∧ (s'.mem.buf i).data ⟨0, by decide⟩ = 7 := by
  obtain ⟨s, hr, hs⟩ := exists_reach_of_script smallSb ⟨0, by decide⟩ (Describes smallSb)
    changeAndRead (changeThenRead 4)
    (P := fun s => (readResult 100 (s.th ⟨2, by decide⟩)).isSome ∧ s.mem.log.lh = [100] ∧
      s.mem.disk 100 ⟨0, by decide⟩ = 0 ∧ s.mem.hist.logged 100 ⟨0, by decide⟩ = 7)
    (describes_empty _) (fun _ _ => changeThenRead_calls) (by decide +kernel)
  obtain ⟨hres, hlh, hdisk, hlogged⟩ := of_decide_eq_true hs
  obtain ⟨i, hi⟩ := Option.isSome_iff_exists.mp hres
  obtain ⟨k, hth⟩ := readResult_eq_some hi
  have hstep := Layer.Step.ret
    (Y := bareLayer smallSb ⟨0, by decide⟩ (Describes smallSb) changeAndRead) hth
  have hdata := (bread_returns_logged (by decide) changeAndRead_disciplined hr (by decide) hstep).2.2.2
  exact ⟨s, _, i, hr, hstep, hlh, hdisk, (congrFun hdata _).trans hlogged⟩

/-- **The cache is coherent.** For such clients, in every state of every run: a block is in one buffer
at most; and a valid buffer that no process holds has the content most recently logged for its block,
which is also that of the disk unless the buffer is pinned. -/
theorem cache_coherent (hnlog : 0 < sb.nlog) (hcalls : Disciplined sb True False calls)
    {s : Pool Slot State U Iface X Prim}
    (hr : (layer sb boot (Describes sb) xsem uinit calls).lts.Reach s) {b : ℕ} {i : BufRef}
    (hi : s.mem.Caches i b) :
    (∀ j, s.mem.Caches j b → i = j) ∧
    ((s.mem.buf i).valid = true → (s.mem.buf i).lock = none →
      (s.mem.book.pins i = 0 → (s.mem.buf i).data = s.mem.disk b) ∧
      (s.mem.up = true → ¬ sb.InLog b → (s.mem.buf i).data = s.mem.hist.logged b)) := by
  obtain ⟨γ, hI, -⟩ := hcalls.reach (fun _ => hnlog) (fun _ _ _ h => h) hr
  obtain ⟨hdev, rfl⟩ := id hi
  have hok := hI.cache.ok i
  refine ⟨fun j => hI.cache.uniq i j _ hi, fun hv hl => ?_⟩
  have hclean := hok.clean_of_unlocked hl
  by_cases hP : (s.mem.buf i).blockno ∈ (phaseOf s.mem γ).pinned s.mem.log.lh
  · refine ⟨fun h0 => ?_, fun _ _ => (hok.pinned trivial hdev hP).2 hclean⟩
    have hpin := hok.pin
    simp [h0, hdev, hP] at hpin
  · have hdisk := hok.coh hdev hv hP hclean
    refine ⟨fun _ => hdisk, fun hup hb => hdisk.trans ?_⟩
    exact (hI.disk trivial).home hI.lh (hI.roles.up ▸ hup) hb hP

/-- Process 1 has logged block 100 and released the buffer, which is pinned. -/
theorem cache_coherent_pinned :
    ∃ s i, (bareLayer smallSb ⟨0, by decide⟩ (Describes smallSb) changeAndRead).lts.Reach s ∧
      s.mem.Caches i 100 ∧ s.mem.book.pins i = 1 ∧ s.mem.disk 100 ⟨0, by decide⟩ = 0 ∧
      (s.mem.buf i).data ⟨0, by decide⟩ = 7 := by
  obtain ⟨s, hr, hs⟩ := exists_reach_of_script smallSb ⟨0, by decide⟩ (Describes smallSb)
    changeAndRead (changeThenRead 0)
    (P := fun s => s.mem.up ∧ s.mem.disk 100 ⟨0, by decide⟩ = 0 ∧
      s.mem.hist.logged 100 ⟨0, by decide⟩ = 7 ∧
      ∃ i, ((s.mem.buf i).dev = ROOTDEV ∧ (s.mem.buf i).blockno = 100) ∧
        (s.mem.buf i).valid = true ∧ (s.mem.buf i).lock = none ∧ s.mem.book.pins i = 1)
    (describes_empty _) (fun _ _ => changeThenRead_calls) (by decide +kernel)
  obtain ⟨hup, hdisk, hlogged, i, hi, hv, hl, hpin⟩ := of_decide_eq_true hs
  have hcoh := cache_coherent (by decide) changeAndRead_disciplined hr hi
  have hdata := (hcoh.2 hv hl).2 hup (by decide)
  exact ⟨s, i, hr, hi, hpin, hdisk, (congrFun hdata _).trans hlogged⟩

end Xv6.Block
