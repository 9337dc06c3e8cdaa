import Mathlib.Algebra.BigOperators.Ring.Finset
import Xv6.Block.Owner

/-!
# Operations

What `begin_op`, `log_write` and `end_op` do to the invariant, and how the log passes from the
processes that are in an operation to the one that commits, and back.
-/

namespace Xv6.Block

open Lib Lib.Prog

variable {sb : Superblock} {full lim : Prop} {s s' : State} {γ : Slot → Local} {t : Slot}
  {g g' : Local} {i : BufRef} {l : List ℕ} {S : ℕ → Data} {k : ℕ}

/-! ### Counting -/

theorem sum_isSome_setOp (k : Book) (t : Slot) (o : Option (Finset ℕ)) :
    ∑ u, ((k.setOp t o).ops u).isSome.toNat + (k.ops t).isSome.toNat =
      ∑ u, (k.ops u).isSome.toNat + o.isSome.toNat := by
  have := sum_change (fun u => (k.ops u).isSome.toNat)
    (fun u => ((k.setOp t o).ops u).isSome.toNat) t fun u hu => by simp [Book.setOp, hu]
  simpa [Book.setOp] using this

theorem sum_unused_setOp (k : Book) (t : Slot) (o : Option (Finset ℕ)) :
    ∑ u, unused ((k.setOp t o).ops u) + unused (k.ops t) =
      ∑ u, unused (k.ops u) + unused o := by
  have := sum_change (fun u => unused (k.ops u))
    (fun u => unused ((k.setOp t o).ops u)) t fun u hu => by simp [Book.setOp, hu]
  simpa [Book.setOp] using this

/-- An operation uses at most its allowance. -/
theorem unused_le (o : Option (Finset ℕ)) : unused o ≤ o.isSome.toNat * MAXOPBLOCKS := by
  cases o <;> simp

theorem sum_unused_le (k : Book) :
    ∑ u, unused (k.ops u) ≤ (∑ u, (k.ops u).isSome.toNat) * MAXOPBLOCKS := by
  rw [Finset.sum_mul]
  exact Finset.sum_le_sum fun u _ => unused_le _

/-! ### Roles -/

theorem Roles.not_busy (h : Roles s γ) (hop : (γ t).op ≠ none) : s.book.busy = none := by
  by_contra hne
  rw [h.op t] at hop
  exact hop (h.alone hne t)

theorem Roles.phaseOf_idle (h : Roles s γ) (hop : (γ t).op ≠ none) : phaseOf s γ = .idle := by
  rw [phaseOf, h.not_busy hop]

theorem Roles.up_of_not_busy (h : Roles s γ) (hb : s.book.busy = none) :
    s.up = true ∧ s.log.committing = false := by
  refine ⟨?_, by rw [h.committing, hb]; rfl⟩
  rw [h.up, phaseOf, hb]
  rfl

/-- When `begin_op` may start an operation, nobody owns the log. -/
theorem Roles.not_busy_of_admits (h : Roles s γ) (hon : (γ t).on) (ha : s.admits) :
    s.book.busy = none := by
  have hup := h.on t hon
  have hcomm : s.log.committing = false := by
    cases hc : s.log.committing with
    | false => rfl
    | true => simp [State.admits, hc] at ha
  rw [h.committing, hup, Bool.and_true] at hcomm
  simpa using hcomm

/-! ### `begin_op` -/

theorem does_beginOp (hop : g.op = none) (hon : g.on) :
    Does (sem sb) (Inv sb full lim) t .beginOp g fun _ g' => g' = g.setOp (some ∅) := by
  intro s γ hI hgt r s' hs
  subst hgt
  simp only [sem, exec] at hs
  split_ifs at hs with hadm
  cases hs
  obtain ⟨-, hadm⟩ := hadm
  have hr := hI.roles
  have hbusy := hr.not_busy_of_admits hon hadm
  obtain ⟨hup, hcomm⟩ := hr.up_of_not_busy hbusy
  have hroom : s.log.lh.length + (s.log.outstanding + 1) * MAXOPBLOCKS ≤ LOGSIZE := by
    simpa [State.admits, hcomm] using hadm
  have hnone : s.book.ops t = none := by rw [← hr.op t, hop]
  have hpo : ∀ γ' : Slot → Local, phaseOf (s.beginOp t) γ' = .idle := fun γ' => by
    simp [phaseOf, State.beginOp, Book.setOp, hbusy]
  have hpos : phaseOf s γ = .idle := by rw [phaseOf, hbusy]
  refine ⟨(γ t).setOp (some ∅), ⟨?_, ?_, ?_, ?_, ?_, hI.past⟩, rfl⟩
  · rw [hpo]
    have hcache := hI.cache
    rw [hpos] at hcache
    exact hcache.quiet rfl rfl rfl rfl (fun j => links_update_same rfl) (fun _ => Iff.rfl) rfl rfl
  · constructor
    · intro u
      by_cases hu : u = t
      · subst hu
        simp [State.beginOp, Book.setOp, Local.setOp]
      · simpa [State.beginOp, Book.setOp, hu] using hr.op u
    · intro u _
      by_cases hu : u = t
      · subst hu
        simpa [Local.setOp] using hr.idle u (by simp [hbusy])
      · simpa [hu] using hr.idle u (by simp [hbusy])
    · intro u hu
      simp [State.beginOp, Book.setOp, hbusy] at hu
    · intro hb
      simp [State.beginOp, Book.setOp, hbusy] at hb
    · have := sum_isSome_setOp s.book t (some ∅)
      have hout := hr.outstanding
      simp only [hnone, Option.isSome_none, Option.isSome_some, Bool.toNat_false,
        Bool.toNat_true] at this
      simp only [State.beginOp]
      omega
    · exact hr.committing
    · intro u hu
      -- a process sleeps only when nobody else can start
      have := (hr.asleep u hu).2
      rw [hadm] at this
      cases this
    · rw [hpo]
      exact hup
    · intro u hu
      by_cases hut : u = t
      · subst hut
        exact hup
      · exact hr.on u (by simpa [hut] using hu)
    · intro u j x hx hd
      by_cases hu : u = t
      · subst hu
        left
        simp [State.beginOp, Book.setOp]
      · have := hr.writer u j x (by simpa [hu] using hx) hd
        simpa [State.beginOp, Book.setOp, hu] using this
  · have hlh := hI.lh
    rw [hpos] at hlh
    rw [hpo]
    exact hlh
  · refine ⟨?_, ?_, ?_⟩
    · intro u O hO
      by_cases hu : u = t
      · subst hu
        obtain rfl : ∅ = O := by simpa [State.beginOp, Book.setOp] using hO
        simp
      · exact hI.budget.mem u O (by simpa [State.beginOp, Book.setOp, hu] using hO)
    · intro hlim u O hO
      by_cases hu : u = t
      · subst hu
        obtain rfl : ∅ = O := by simpa [State.beginOp, Book.setOp] using hO
        simp
      · exact hI.budget.card hlim u O (by simpa [State.beginOp, Book.setOp, hu] using hO)
    · intro _ _
      have h1 := sum_unused_setOp s.book t (some ∅)
      have h2 := sum_unused_le s.book
      rw [← hr.outstanding] at h2
      simp only [hnone, unused_none, unused_some, Finset.card_empty] at h1
      simp only [State.beginOp]
      rw [Nat.add_mul] at hroom
      omega
  · intro hf
    have hd := hI.disk hf
    rw [hpos] at hd
    rw [hpo]
    exact hd

/-! ### `end_op` -/

/-- What `end_op` leaves the process with: the log, if it ended the last operation. -/
def Ended (g : Local) : Option Bool → Local → Prop
  | none, _ => False
  | some true, g' => g' = (g.setOp none).setPhase .entered
  | some false, g' => g' = g.setOp none

theorem Budget.endOp (h : Budget lim s) {s' : State} (hops : s'.book.ops = (s.book.setOp t none).ops)
    (hlh : s'.log.lh = s.log.lh) (hup : s.up) : Budget lim s' := by
  have hsub : ∀ u O, s'.book.ops u = some O → s.book.ops u = some O := by
    intro u O hO
    rw [hops] at hO
    by_cases hu : u = t
    · subst hu
      simp [Book.setOp] at hO
    · simpa [Book.setOp, hu] using hO
  refine ⟨?_, ?_, ?_⟩
  · intro u O hO
    rw [hlh]
    exact h.mem u O (hsub u O hO)
  · exact fun hlim u O hO => h.card hlim u O (hsub u O hO)
  · intro hlim _
    have h1 := sum_unused_setOp s.book t none
    have h2 := h.room hlim hup
    rw [hops, hlh]
    simp only [unused_none] at h1
    omega

theorem Roles.endOp (h : Roles s γ) (hop : (γ t).op ≠ none)
    (hclean : ∀ j x, ((γ t).link j).held = some x → x.dirty = false) {φ : Phase} {b : Option Slot}
    {s' : State} (hops : s'.book.ops = (s.book.setOp t none).ops) (hb : s'.book.busy = b)
    (hbusy : b = none ∧ φ = .idle ∨ b = some t ∧ φ = .entered ∧ ∀ u, s'.book.ops u = none)
    (hout : s'.log.outstanding = s.log.outstanding - 1) (hup : s'.up = s.up)
    (hcomm : s'.log.committing = b.isSome) (hlinks : g'.link = (γ t).link)
    (hphase : g'.phase = φ) (hopg : g'.op = none)
    (hasleep : ∀ u, s'.asleep u → s'.admits = false) : Roles s' (Function.update γ t g') := by
  have hfree := h.not_busy hop
  have hsup := (h.up_of_not_busy hfree).1
  have hφ : φ = .idle ∨ φ = .entered := by
    rcases hbusy with ⟨-, h⟩ | ⟨-, h, -⟩ <;> simp [h]
  have hpo : phaseOf s' (Function.update γ t g') = φ := by
    rw [phaseOf, hb]
    rcases hbusy with ⟨rfl, rfl⟩ | ⟨rfl, rfl, -⟩
    · rfl
    · simpa using hphase
  constructor
  · intro u
    rw [hops]
    by_cases hu : u = t
    · subst hu
      simpa [Book.setOp] using hopg
    · simpa [Book.setOp, hu] using h.op u
  · intro u hu
    by_cases hut : u = t
    · subst hut
      rcases hbusy with ⟨rfl, rfl⟩ | ⟨rfl, rfl, -⟩
      · simpa using hphase
      · exact absurd hb hu
    · simpa [hut] using h.idle u (by simp [hfree])
  · intro u hu
    rw [hb] at hu
    rcases hbusy with ⟨rfl, rfl⟩ | ⟨rfl, rfl, -⟩
    · cases hu
    · cases hu
      simp [hphase]
  · intro hne
    rw [hb] at hne
    rcases hbusy with ⟨rfl, rfl⟩ | ⟨rfl, rfl, hnone⟩
    · exact absurd rfl hne
    · exact hnone
  · have hsum := sum_isSome_setOp s.book t none
    have hold := h.outstanding
    have hsome : (s.book.ops t).isSome = true := by
      rw [← h.op t]
      exact Option.isSome_iff_ne_none.mpr hop
    simp only [hsome, Option.isSome_none, Bool.toNat_true, Bool.toNat_false] at hsum
    rw [hout, hops]
    omega
  · rw [hcomm, hb, hup, hsup, Bool.and_true]
  · exact fun u hu => ⟨hup.trans hsup, hasleep u hu⟩
  · rw [hpo, hup, hsup]
    rcases hφ with rfl | rfl <;> rfl
  · exact fun _ _ => hup.trans hsup
  · intro u j x hx hd
    by_cases hu : u = t
    · subst hu
      rw [Function.update_self, hlinks] at hx
      rw [hclean j x hx] at hd
      cases hd
    · have hw := h.writer u j x (by simpa [hu] using hx) hd
      rw [hfree] at hw
      left
      rw [hops]
      simpa [Book.setOp, hu] using hw

theorem does_endOp (hop : g.op ≠ none) (hclean : ∀ j x, (g.link j).held = some x → x.dirty = false) :
    Does (sem sb) (Inv sb full lim) t .endOp g (Ended g) := by
  intro s γ hI hgt r s' hs
  subst hgt
  have hr := hI.roles
  have hbusy := hr.not_busy hop
  have hpos := hr.phaseOf_idle hop
  obtain ⟨hup, hcomm⟩ := hr.up_of_not_busy hbusy
  have hcache := hI.cache
  have hlh := hI.lh
  rw [hpos] at hcache hlh
  simp only [sem, exec, State.endOp, hcomm, Bool.false_eq_true, if_false] at hs
  split_ifs at hs with hlast
  · -- the last operation: the process has to commit
    cases hs
    have hnone : ∀ u, (s.book.setOp t none).ops u = none := by
      intro u
      have hsum := sum_isSome_setOp s.book t none
      have hold := hr.outstanding
      have hsome : (s.book.ops t).isSome = true := by
        rw [← hr.op t]
        exact Option.isSome_iff_ne_none.mpr hop
      simp only [hsome, Option.isSome_none, Bool.toNat_true, Bool.toNat_false] at hsum
      have hzero : ∑ u, ((s.book.setOp t none).ops u).isSome.toNat = 0 := by omega
      have := Finset.sum_eq_zero_iff.mp hzero u (Finset.mem_univ u)
      cases ho : (s.book.setOp t none).ops u <;> simp [ho] at this ⊢
    refine ⟨((γ t).setOp none).setPhase .entered, ⟨?_, ?_, ?_, ?_, ?_, hI.past⟩, rfl⟩
    · simp only [phaseOf, Function.update_self, Local.setPhase_phase]
      exact hcache.quiet rfl rfl rfl rfl (fun j => links_update_same rfl) (fun _ => Iff.rfl) rfl rfl
    · exact hr.endOp hop hclean rfl rfl (.inr ⟨rfl, rfl, hnone⟩) rfl rfl rfl rfl rfl rfl
        (fun u _ => by simp [State.admits])
    · simp only [phaseOf, Function.update_self, Local.setPhase_phase]
      exact hlh
    · exact hI.budget.endOp rfl rfl hup
    · intro hf
      have hd := hI.disk hf
      rw [hpos] at hd
      simp only [phaseOf, Function.update_self, Local.setPhase_phase]
      exact hd
  · cases hs
    refine ⟨(γ t).setOp none, ⟨?_, ?_, ?_, ?_, ?_, hI.past⟩, rfl⟩
    · simp only [phaseOf, State.wakeup, Book.setOp, hbusy]
      exact hcache.quiet rfl rfl rfl rfl (fun j => links_update_same rfl) (fun _ => Iff.rfl) rfl rfl
    · exact hr.endOp hop hclean rfl hbusy (.inl ⟨rfl, rfl⟩) rfl rfl rfl rfl
        (hr.idle t (by simp [hbusy])) rfl (fun u hu => by simp [State.wakeup] at hu)
    · simp only [phaseOf, State.wakeup, Book.setOp, hbusy]
      exact hlh
    · exact hI.budget.endOp rfl rfl hup
    · intro hf
      have hd := hI.disk hf
      rw [hpos] at hd
      simp only [phaseOf, State.wakeup, Book.setOp, hbusy]
      exact hd

/-! ### The log is given back -/

/-- The owner of the log has finished. -/
theorem Inv.of_done (h : Inv sb full lim s γ) (hph : (γ t).phase ≠ .idle)
    (hops : s'.book.ops = s.book.ops) (hbusy : s'.book.busy = none) (hup : s'.up)
    (hout : s'.log.outstanding = s.log.outstanding) (hcomm : s'.log.committing = false)
    (hasleep : ∀ u, s'.asleep u = false)
    (hclean : ∀ j x, ((γ t).link j).held = some x → x.dirty = false)
    (hop : g'.op = (γ t).op) (hlink : g'.link = (γ t).link) (hphase : g'.phase = .idle)
    (hlen : lim → s'.log.lh.length ≤ LOGSIZE)
    (hcache : Cache full s'.log.lh s' (Function.update γ t g'))
    (hlh : LhOk s'.log.lh s'.hist .idle) (hdisk : full → DiskOk sb s' .idle)
    (hpast : full → Past sb s'.prev s'.hist.base) :
    Inv sb full lim s' (Function.update γ t g') := by
  have hr := h.roles
  have hnone := hr.ops_none hph
  have hpo : phaseOf s' (Function.update γ t g') = .idle := by rw [phaseOf, hbusy]
  refine ⟨?_, ?_, ?_, ?_, ?_, fun hf _ => hpast hf⟩
  · rwa [hpo]
  · constructor
    · intro u
      rw [hops, ← hr.op u]
      by_cases hu : u = t
      · subst hu
        simpa using hop
      · simp [hu]
    · intro u _
      by_cases hu : u = t
      · subst hu
        simpa using hphase
      · have hbu : s.book.busy ≠ some u := by
          rw [hr.busy_of hph]
          simpa using Ne.symm hu
        simpa [hu] using hr.idle u hbu
    · intro u hu
      rw [hbusy] at hu
      cases hu
    · intro hne
      exact absurd hbusy hne
    · rw [hout, hops]
      exact hr.outstanding
    · rw [hcomm, hbusy]
      rfl
    · intro u hu
      rw [hasleep u] at hu
      cases hu
    · rw [hpo]
      exact hup
    · exact fun _ _ => hup
    · intro u j x hx hd
      by_cases hu : u = t
      · subst hu
        rw [Function.update_self, hlink] at hx
        rw [hclean j x hx] at hd
        cases hd
      · have hw := hr.writer u j x (by simpa [hu] using hx) hd
        rw [hnone u, hr.busy_of hph] at hw
        rcases hw with hw | hw
        · cases hw
        · exact absurd (Option.some.inj hw).symm hu
  · rwa [hpo]
  · refine ⟨?_, ?_, ?_⟩
    · intro u O hO
      rw [hops, hnone u] at hO
      cases hO
    · intro _ u O hO
      rw [hops, hnone u] at hO
      cases hO
    · intro hlim _
      have hzero : ∑ u, unused (s'.book.ops u) = 0 :=
        Finset.sum_eq_zero fun u _ => by rw [hops, hnone u]; rfl
      rw [hzero]
      exact hlen hlim
  · rwa [hpo]

theorem does_commitDone (hg : g.phase = .entered)
    (hclean : ∀ j x, (g.link j).held = some x → x.dirty = false) :
    Does (sem sb) (Inv sb full lim) t .commitDone g fun _ g' => g' = g.setPhase .idle := by
  intro s γ hI hgt r s' hs
  subst hgt
  cases hs
  have hph : (γ t).phase ≠ .idle := by simp [hg]
  have hpo := hI.roles.phaseOf_eq hph
  have hup : s.up = true := by rw [hI.roles.up, hpo, hg]; rfl
  have hcache := hI.cache
  have hlh := hI.lh
  rw [hpo, hg] at hcache hlh
  refine ⟨(γ t).setPhase .idle, hI.of_done hph rfl rfl hup rfl rfl (fun _ => rfl) hclean rfl rfl rfl
    (fun hlim => ?_) ?_ hlh ?_ fun hf => hI.past hf hup, rfl⟩
  · have := hI.budget.room hlim hup
    simp only [State.commitDone, State.wakeup]
    omega
  · exact hcache.quiet rfl rfl rfl rfl (fun j => links_update_same rfl) (fun _ => Iff.rfl) rfl rfl
  · intro hf
    have hd := hI.disk hf
    rw [hpo, hg] at hd
    exact hd

theorem does_recovered (hg : g.phase = .replay l S .erased)
    (hclean : ∀ j x, (g.link j).held = some x → x.dirty = false) :
    Does (sem sb) (Inv sb full lim) t .recovered g fun _ g' =>
      g' = { g.setPhase .idle with on := true } := by
  intro s γ hI hgt r s' hs
  subst hgt
  cases hs
  have hph : (γ t).phase ≠ .idle := by simp [hg]
  have hr := hI.roles
  have hpo := hr.phaseOf_eq hph
  have hup : s.up = false := by rw [hr.up, hpo, hg]; rfl
  have hcache := hI.cache
  have hlh := hI.lh
  rw [hpo, hg] at hcache hlh
  have hnil : s.log.lh = [] := hlh
  refine ⟨{ (γ t).setPhase .idle with on := true }, hI.of_done hph rfl rfl rfl rfl ?_ ?_ hclean
    rfl rfl rfl (fun _ => by simp [hnil]) ?_ ⟨by simp [hnil], by simp, rfl⟩ ?_ ?_, rfl⟩
  · rw [hr.committing, hup]
    simp
  · intro u
    have := (hr.asleep u).mt (by simp [hup])
    simpa using this
  · -- nothing is pinned, so that the content that was logged does not matter
    refine ⟨fun j => ?_, hcache.uniq, hcache.lru, by simp [hnil]⟩
    have hok := hcache.ok j
    have hlinks : links (Function.update γ t { (γ t).setPhase .idle with on := true }) j =
        links γ j := links_update_same rfl
    simp only [State.BufOk, hlinks, hnil]
    simp only [Phase.pinned] at hok
    exact ⟨hok.lock, hok.held, hok.pend, hok.linked, hok.count, hok.pin, hok.coh, by simp⟩
  · intro hf
    have hd := hI.disk hf
    rw [hpo, hg] at hd
    obtain ⟨-, -, -, hhead, -⟩ := hd
    exact ⟨by simpa [hnil] using ListOk.nil, hhead, fun b _ _ => rfl⟩
  · intro hf
    have hd := hI.disk hf
    rw [hpo, hg] at hd
    obtain ⟨⟨k, hdone, hlen, rfl⟩, -, -, -, hhome⟩ := hd
    exact ⟨k, hdone, hlen, fun b hb => hhome b hb (by simp)⟩

/-! ### `log_write` -/

/-- What `log_write` leaves the process with. -/
def Logged (g : Local) (i : BufRef) (x : Held) (O : Finset ℕ) : Option String → Local → Prop
  | some _, g' => g' = g
  | none, g' => g' = (g.setLink i ⟨some { x with dirty := false, sync := false }, none⟩).setOp
      (some (insert x.blockno O))

variable {b : ℕ} {O : Finset ℕ}

theorem Budget.log (h : Budget lim s) (hO : s.book.ops t = some O)
    (hlim : lim → (insert b O).card ≤ MAXOPBLOCKS) (hup : s.up)
    (hops : s'.book.ops = (s.book.setOp t (some (insert b O))).ops)
    (hlh : b ∈ s.log.lh ∧ s'.log.lh = s.log.lh ∨ b ∉ s.log.lh ∧ s'.log.lh = s.log.lh ++ [b]) :
    Budget lim s' := by
  have hmem : ∀ c, c ∈ s.log.lh ∨ c = b → c ∈ s'.log.lh := by
    rintro c (hc | rfl) <;> rcases hlh with ⟨hb, hl⟩ | ⟨-, hl⟩ <;> rw [hl] <;> simp_all
  have hcases : ∀ u Q, s'.book.ops u = some Q →
      u = t ∧ Q = insert b O ∨ s.book.ops u = some Q := by
    intro u Q hQ
    rw [hops] at hQ
    by_cases hu : u = t
    · subst hu
      left
      simpa [Book.setOp, eq_comm] using hQ
    · right
      simpa [Book.setOp, hu] using hQ
  refine ⟨?_, ?_, ?_⟩
  · intro u Q hQ c hc
    rcases hcases u Q hQ with ⟨rfl, rfl⟩ | hold
    · rcases Finset.mem_insert.mp hc with rfl | hc
      · exact hmem c (.inr rfl)
      · exact hmem c (.inl (h.mem u O hO c hc))
    · exact hmem c (.inl (h.mem u Q hold c hc))
  · intro hl u Q hQ
    rcases hcases u Q hQ with ⟨rfl, rfl⟩ | hold
    · exact hlim hl
    · exact h.card hl u Q hold
  · intro hl _
    have hsum := sum_unused_setOp s.book t (some (insert b O))
    have hroom := h.room hl hup
    have hcard := hlim hl
    have hle : O.card ≤ (insert b O).card := Finset.card_le_card (Finset.subset_insert b O)
    rw [hO] at hsum
    simp only [unused_some] at hsum
    rw [hops]
    rcases hlh with ⟨-, hl'⟩ | ⟨hnot, hl'⟩ <;> rw [hl']
    · omega
    · -- a new block is new for the operation too
      have hnew : b ∉ O := fun hb => hnot (h.mem t O hO b hb)
      rw [Finset.card_insert_of_notMem hnew] at hcard hsum
      simp only [List.length_append, List.length_singleton]
      omega

theorem Roles.log (h : Roles s γ) (hO : s.book.ops t = some O)
    (hops : s'.book.ops = (s.book.setOp t (some (insert b O))).ops)
    (hbusy : s'.book.busy = s.book.busy) (hup : s'.up = s.up)
    (hout : s'.log.outstanding = s.log.outstanding) (hcomm : s'.log.committing = s.log.committing)
    (hasleep : s'.asleep = s.asleep) (hlh : s.log.lh.length ≤ s'.log.lh.length)
    (hop : g'.op = some (insert b O)) (hphase : g'.phase = (γ t).phase) :
    Roles s' (Function.update γ t g') := by
  have hfree := h.not_busy (t := t) (by simp [h.op t, hO])
  have hpo : ∀ γ', phaseOf s' γ' = .idle := fun γ' => by rw [phaseOf, hbusy, hfree]
  have hsup := (h.up_of_not_busy hfree).1
  constructor
  · intro u
    rw [hops]
    by_cases hu : u = t
    · subst hu
      simpa [Book.setOp] using hop
    · simpa [Book.setOp, hu] using h.op u
  · intro u _
    by_cases hu : u = t
    · subst hu
      simpa [hphase] using h.idle u (by simp [hfree])
    · simpa [hu] using h.idle u (by simp [hfree])
  · intro u hu
    rw [hbusy, hfree] at hu
    cases hu
  · intro hne
    exact absurd (hbusy.trans hfree) hne
  · have hsum := sum_isSome_setOp s.book t (some (insert b O))
    simp only [hO, Option.isSome_some] at hsum
    rw [hout, hops, h.outstanding]
    omega
  · rw [hcomm, hbusy, hup]
    exact h.committing
  · intro u hu
    rw [hasleep] at hu
    obtain ⟨hu1, hu2⟩ := h.asleep u hu
    refine ⟨hup.trans hu1, ?_⟩
    simp only [State.admits, hcomm, hout, Bool.and_eq_false_iff, decide_eq_false_iff_not,
      not_le] at hu2 ⊢
    exact hu2.imp_right fun hlt => by omega
  · rw [hpo, hup, hsup]
    rfl
  · exact fun _ _ => hup.trans hsup
  · intro u j x hx hd
    rw [hops, hbusy]
    by_cases hu : u = t
    · subst hu
      left
      simp [Book.setOp]
    · simpa [Book.setOp, hu] using h.writer u j x (by simpa [hu] using hx) hd

theorem Cache.log {P : List ℕ} (P' : List ℕ) (h : Cache full P s γ) {x : Held} {n pins' : ℕ}
    (hx : ((γ t).link i).held = some x) (hp : ((γ t).link i).pend = none) (hv : x.valid)
    (hlink : g'.link = ((γ t).setLink i ⟨some { x with dirty := false, sync := false }, none⟩).link)
    (hP : ∀ b, b ∈ P' ↔ b ∈ P ∨ b = x.blockno)
    (hbuf : s'.buf = Function.update s.buf i { s.buf i with refcnt := n }) (hlru : s'.lru = s.lru)
    (hrefs : s'.book.refs = s.book.refs) (hpins : s'.book.pins = Function.update s.book.pins i pins')
    (hpins' : pins' = 1) (hn : n + s.book.pins i = (s.buf i).refcnt + pins')
    (hdisk : s'.disk = s.disk)
    (hlogged : s'.hist.logged = Function.update s.hist.logged x.blockno x.data) :
    Cache full P' s' (Function.update γ t g') := by
  have hm := (h.ok i).held t x hx
  have hi : ∀ b, s'.Caches i b ↔ s.Caches i b := fun b => by simp [State.Caches, hbuf]
  refine h.frame i ?_ (fun j _ u => by rw [hrefs]) ?_ ?_ ?_ (by simpa [hlru] using h.lru) ?_ ?_ ?_
  · intro j hj
    simp [hbuf, hj]
  · intro j hj
    simp [hpins, hj]
  · intro j hj
    refine links_update_same ?_
    rw [hlink, Local.setLink_link_of_ne hj]
  · intro j b hj hjb
    have hne : b ≠ x.blockno := by
      rintro rfl
      exact hj (h.uniq j i _ hjb ⟨hm.dev, hm.blockno⟩)
    rw [hP b, hdisk, hlogged, Function.update_of_ne hne]
    exact ⟨or_iff_left hne, rfl, rfl⟩
  · have hok := (h.ok i).log (t := t) P' s'.hist.logged hx hp hv
      (by rw [hP, hm.blockno]; exact .inr rfl) (by rw [hlogged, hm.blockno]; simp [hm.data])
      hpins' hn
    simpa [State.BufOk, links_update, hbuf, hrefs, hpins, hdisk, hlink] using hok
  · intro b hb j hj hjb
    exact hj (h.uniq j i b hjb ((hi b).mp hb))
  · intro b hb
    rcases (hP b).mp hb with hb | rfl
    · obtain ⟨j, hj⟩ := h.cached b hb
      by_cases hji : j = i
      · exact .inl ((hi b).mpr (hji ▸ hj))
      · exact .inr ⟨j, hji, hj⟩
    · exact .inl ((hi _).mpr ⟨hm.dev, hm.blockno⟩)

theorem logSize_le (sb : Superblock) : sb.logSize ≤ sb.nlog := by
  unfold Superblock.logSize
  split_ifs <;> omega

theorem ListOk.append (h : ListOk sb l) (hnew : b ∉ l) (hb : ¬ sb.InLog b) (hsmall : b < 2 ^ 32)
    (hlen : l.length < LOGSIZE) (hsize : (l.length : ℤ) < sb.logSize - 1) :
    ListOk sb (l ++ [b]) where
  nodup := by
    rw [List.nodup_append]
    refine ⟨h.nodup, by simp, ?_⟩
    rintro c hc d hd rfl
    rw [List.mem_singleton] at hd
    exact hnew (hd ▸ hc)
  home c hc := by
    rcases List.mem_append.mp hc with hc | hc
    · exact h.home c hc
    · exact List.mem_singleton.mp hc ▸ hb
  small c hc := by
    rcases List.mem_append.mp hc with hc | hc
    · exact h.small c hc
    · exact List.mem_singleton.mp hc ▸ hsmall
  le_logsize := by
    rw [List.length_append, List.length_singleton]
    omega
  le_nlog := by
    have := logSize_le sb
    rw [List.length_append, List.length_singleton]
    omega

theorem does_logWrite {x : Held} (hx : (g.link i).held = some x) (hp : (g.link i).pend = none)
    (hv : x.valid) (hop : g.op = some O) (hhome : full → ¬ sb.InLog x.blockno ∧ x.blockno < 2 ^ 32)
    (hlim : lim → (insert x.blockno O).card ≤ MAXOPBLOCKS) :
    Does (sem sb) (Inv sb full lim) t (.logWrite i) g (Logged g i x O) := by
  intro s γ hI hgt r s' hs
  subst hgt
  have hr := hI.roles
  have hO : s.book.ops t = some O := by rw [← hr.op t, hop]
  have hfree := hr.not_busy (t := t) (by simp [hop])
  have hsup := (hr.up_of_not_busy hfree).1
  have hpos : phaseOf s γ = .idle := by rw [phaseOf, hfree]
  have hm := hI.held_ok hx
  have hcache := hI.cache
  have hlhs := hI.lh
  rw [hpos] at hcache hlhs
  simp only [sem, exec, State.logWrite] at hs
  -- the two panics change nothing
  split_ifs at hs with hbig hout hmem
  · cases hs
    exact ⟨γ t, hI.same rfl, rfl⟩
  · cases hs
    exact ⟨γ t, hI.same rfl, rfl⟩
  · -- the block is in the header already
    cases hs
    rw [hm.blockno] at hmem
    have hone : s.book.pins i = 1 := by
      rw [(hcache.ok i).pin, if_pos ⟨hm.dev, by rw [hm.blockno]; exact hmem⟩]
    have hops : (s.recordLog t i).book.ops =
        (s.book.setOp t (some (insert x.blockno O))).ops := by
      simp [State.recordLog, hO, hm.blockno]
    have hpo : ∀ γ', phaseOf (s.recordLog t i) γ' = .idle := fun γ' => by
      simp [phaseOf, State.recordLog, Book.setOp, hfree]
    refine ⟨_, ⟨?_, ?_, ?_, ?_, ?_, hI.past⟩, rfl⟩
    · rw [hpo]
      refine hcache.log s.log.lh hx hp hv rfl (fun b => ?_) ?_ rfl rfl ?_ hone
        (n := (s.buf i).refcnt) (by omega) rfl ?_
      · simp only [Phase.pinned, iff_self_or]
        exact fun hb => hb ▸ hmem
      · exact (Function.update_eq_self i s.buf).symm
      · exact (Function.update_eq_self i s.book.pins).symm
      · rw [← hm.blockno, ← hm.data]
        exact Hist.logged_log _ _
    · exact hr.log hO hops rfl rfl rfl rfl rfl (le_refl _) rfl rfl
    · rw [hpo]
      refine ⟨hlhs.1, fun w hw => ?_, hlhs.2.2⟩
      rcases List.mem_append.mp hw with hw | hw
      · exact hlhs.2.1 w hw
      · rw [List.mem_singleton.mp hw, hm.blockno]
        exact hmem
    · exact hI.budget.log hO hlim hsup hops (.inl ⟨hmem, rfl⟩)
    · intro hf
      have hd := hI.disk hf
      rw [hpos] at hd
      rw [hpo]
      exact hd
  · cases hs
    rw [hm.blockno] at hmem
    push Not at hbig
    have hzero : s.book.pins i = 0 := by
      rw [(hcache.ok i).pin, if_neg]
      rw [hm.blockno]
      exact fun h => hmem h.2
    have hops : ((s.recordLog t i).bpin i).book.ops =
        (s.book.setOp t (some (insert x.blockno O))).ops := by
      simp [State.recordLog, State.bpin, Book.setPins, hO, hm.blockno]
    have hpo : ∀ γ', phaseOf { (s.recordLog t i).bpin i with
        log := { s.log with lh := s.log.lh ++ [(s.buf i).blockno] } } γ' = .idle := fun γ' => by
      simp [phaseOf, State.recordLog, State.bpin, Book.setPins, Book.setOp, hfree]
    refine ⟨_, ⟨?_, ?_, ?_, ?_, ?_, hI.past⟩, rfl⟩
    · rw [hpo]
      refine hcache.log (s.log.lh ++ [(s.buf i).blockno]) hx hp hv rfl (fun b => ?_) rfl rfl
        rfl rfl (by simp [State.recordLog, hzero]) (by simp [State.recordLog, hzero]) rfl ?_
      · simp [Phase.pinned, hm.blockno]
      · rw [← hm.blockno, ← hm.data]
        exact Hist.logged_log _ _
    · exact hr.log hO hops rfl rfl rfl rfl rfl (by simp) rfl rfl
    · rw [hpo]
      refine ⟨?_, fun w hw => ?_, hlhs.2.2⟩
      · rw [List.nodup_append]
        refine ⟨hlhs.1, by simp, ?_⟩
        rintro c hc d hd rfl
        rw [List.mem_singleton, hm.blockno] at hd
        exact hmem (hd ▸ hc)
      · rcases List.mem_append.mp hw with hw | hw
        · exact List.mem_append_left _ (hlhs.2.1 w hw)
        · rw [List.mem_singleton.mp hw]
          simp
    · exact hI.budget.log hO hlim hsup hops (.inr ⟨hmem, by rw [← hm.blockno]⟩)
    · intro hf
      have hd := hI.disk hf
      rw [hpos] at hd
      rw [hpo]
      obtain ⟨hl, hhead, hho⟩ := hd
      refine ⟨?_, hhead, hho⟩
      rw [hm.blockno]
      exact hl.append hmem (hhome hf).1 (hhome hf).2 hbig.1 hbig.2

/-! ### Waiting, restarting, starting -/

/-- Who sleeps in `begin_op` concerns nobody else. -/
theorem Inv.setAsleep (h : Inv sb full lim s γ) {v : Bool}
    (hv : v = true → s.up ∧ s.admits = false) : Inv sb full lim (s.setAsleep t v) γ := by
  obtain ⟨hcache, hr, hlh, hb, hd, hpast⟩ := h
  refine ⟨?_, ?_, hlh, ⟨hb.mem, hb.card, hb.room⟩, hd, hpast⟩
  · exact hcache.quiet rfl rfl rfl rfl (fun _ => rfl) (fun _ => Iff.rfl) rfl rfl
  · refine ⟨hr.op, hr.idle, hr.busy, hr.alone, hr.outstanding, hr.committing, fun u hu => ?_, hr.up,
      hr.on, hr.writer⟩
    by_cases hut : u = t
    · subst hut
      exact hv (by simpa [State.setAsleep] using hu)
    · exact hr.asleep u (by simpa [State.setAsleep, hut] using hu)

theorem Inv.wait {o : PrimOp} (h : Inv sb full lim s γ) (hw : Wait t o s s') :
    Inv sb full lim s' γ := by
  cases hw with
  | sleep hup hawake hfull => exact h.setAsleep fun _ => ⟨hup, hfull⟩
  | killed hasleep => exact h.setAsleep (by simp)

/-- What the disk says about the log survives a restart. -/
theorem DiskOk.describes {φ : Phase} (h : DiskOk sb s φ) (hlh : LhOk s.log.lh s.hist φ) :
    ∃ S, s.hist.Target S ∧ Describes sb s.disk S := by
  have hempty : ∀ S, readHead (s.disk sb.logstart) = [] → HomeOff sb s.disk [] S →
      Describes sb s.disk S := fun S hhead hhome =>
    ⟨[], .nil, .nil hhead, hhome⟩
  have hstage : ∀ B l S st, ListOk sb l → (∀ k, st ≠ .writing k) → StageOk sb s.disk B l S st →
      Describes sb s.disk S := by
    intro B l S st hl hne hst
    cases st with
    | writing k => exact absurd rfl (hne k)
    | installing k => exact ⟨l, hl, hst.1, hst.2.mono fun b => List.mem_of_mem_drop⟩
    | installed k => exact ⟨l, hl, hst.1, hst.2.mono fun b => List.mem_of_mem_drop⟩
    | clearing => exact ⟨l, hl, hst.1, hst.2.mono (by simp)⟩
    | erased => exact hempty S hst.1 hst.2
  cases φ with
  | idle | entered =>
    obtain ⟨-, hhead, hhome⟩ := h
    exact ⟨_, ⟨s.hist.done, le_refl _, hlh.2.2.le, rfl⟩, hempty _ hhead hhome⟩
  | commit l S st =>
    obtain ⟨hS, hl, hst⟩ := h
    obtain ⟨-, -, hcur, hlen⟩ := hlh
    have htarget : s.hist.Target S :=
      ⟨s.hist.groups.length, by omega, le_refl _, hS.trans (Hist.logged_of_cur_nil hcur)⟩
    cases st with
    | writing k =>
      exact ⟨_, ⟨s.hist.done, le_refl _, by omega, rfl⟩, hempty _ hst.1 hst.2.1⟩
    | installing k | installed k | clearing | erased =>
      exact ⟨S, htarget, hstage _ l S _ hl (by simp) hst⟩
  | booting => exact h
  | replay l S st =>
    obtain ⟨htarget, hl, hne, hst⟩ := h
    exact ⟨S, htarget, hstage S l S st hl hne hst⟩

/-- What the processes know after a restart: the first one has to recover the log. -/
def bootGhost (boot : Slot) : Slot → Local :=
  Function.update (fun _ => .off) boot (Local.off.setPhase .booting)

theorem bootGhost_link (boot t : Slot) (i : BufRef) : ((bootGhost boot t).link i) = .empty := by
  by_cases ht : t = boot
  · subst ht
    simp [bootGhost, Local.off]
  · simp [bootGhost, ht, Local.off]

theorem bootGhost_op (boot t : Slot) :
    (bootGhost boot t).op = none ∧ (bootGhost boot t).on = false := by
  by_cases ht : t = boot
  · subst ht
    simp [bootGhost, Local.off]
  · simp [bootGhost, ht, Local.off]

/-- The invariant holds after a restart, whatever happened before, if the log on disk is sound. -/
theorem Inv.reboot (boot : Slot)
    (hdisk : full → ∃ S, s.hist.Target S ∧ Describes sb s.disk S) :
    Inv sb full lim (s.reboot boot) (bootGhost boot) := by
  have hpo : phaseOf (s.reboot boot) (bootGhost boot) = .booting := by
    simp [phaseOf, State.reboot, bootGhost]
  have hnot : ∀ i b, ¬ (s.reboot boot).Caches i b := by
    rintro i b ⟨hd, -⟩
    simp [State.reboot, ROOTDEV] at hd
  refine ⟨?_, ?_, ?_, ?_, ?_, by simp [State.reboot]⟩
  · rw [hpo]
    refine ⟨fun i => ?_, fun i j b hi => absurd hi (hnot i b), ?_, by simp [Phase.pinned]⟩
    · constructor <;> simp [State.reboot, links, bootGhost_link, Phase.pinned, ROOTDEV]
    · simp [State.reboot]
  · constructor
    · exact fun t => (bootGhost_op boot t).1
    · intro t ht
      have hne : t ≠ boot := by
        rintro rfl
        simp [State.reboot] at ht
      simp [bootGhost, hne, Local.off]
    · intro t ht
      obtain rfl : boot = t := by simpa [State.reboot] using ht
      simp [bootGhost]
    · simp [State.reboot]
    · simp [State.reboot]
    · simp [State.reboot]
    · simp [State.reboot]
    · rw [hpo]
      rfl
    · intro t ht
      rw [(bootGhost_op boot t).2] at ht
      cases ht
    · intro t i x hx
      rw [bootGhost_link] at hx
      cases hx
  · rw [hpo]
    rfl
  · constructor <;> simp [State.reboot]
  · intro hf
    rw [hpo]
    exact hdisk hf

/-- A process that has not run since the restart learns that the log has been recovered. -/
theorem Inv.start (h : Inv sb full lim s γ) (hup : s.up)
    (hrest : (γ t).link = Local.init.link ∧ (γ t).op = none ∧ (γ t).phase = .idle) :
    Inv sb full lim s (Function.update γ t .init) := by
  obtain ⟨hlink, hop, hphase⟩ := hrest
  have hsame : ∀ u, (Function.update γ t .init u).link = (γ u).link ∧
      (Function.update γ t .init u).op = (γ u).op ∧
      (Function.update γ t .init u).phase = (γ u).phase := by
    intro u
    by_cases hu : u = t
    · subst hu
      simp [hlink, hop, hphase, Local.init]
    · simp [hu]
  have hpo : phaseOf s (Function.update γ t .init) = phaseOf s γ :=
    phaseOf_update rfl (by simp [hphase, Local.init])
  obtain ⟨hcache, hr, hlh, hb, hd, hpast⟩ := h
  refine ⟨?_, ?_, ?_, hb, ?_, hpast⟩ <;> try rw [hpo]
  · exact hcache.quiet rfl rfl rfl rfl (fun j => links_update_same (by simp [hlink]))
      (fun _ => Iff.rfl) rfl rfl
  · constructor
    · exact fun u => (hsame u).2.1.trans (hr.op u)
    · exact fun u hu => (hsame u).2.2.trans (hr.idle u hu)
    · intro u hu
      rw [(hsame u).2.2]
      exact hr.busy u hu
    · exact hr.alone
    · exact hr.outstanding
    · exact hr.committing
    · exact hr.asleep
    · rw [hpo]
      exact hr.up
    · exact fun _ _ => hup
    · intro u j x hx
      rw [(hsame u).1] at hx
      exact hr.writer u j x hx
  · exact hlh
  · exact hd

end Xv6.Block
