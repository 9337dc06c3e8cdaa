import Xv6.Block.Buffers

/-!
# The process that owns the log

What the primitive operations of `commit` and of recovery do to the invariant. While a process
commits or recovers, no operation is outstanding, so that it may change the log as it likes.
-/

namespace Xv6.Block

open Lib Lib.Prog

variable {sb : Superblock} {full lim : Prop} {s s' : State} {γ : Slot → Local} {t : Slot}
  {g g' : Local} {i : BufRef} {l : List ℕ} {S : ℕ → Data} {k : ℕ}

/-! ### Steps of the owner -/

theorem Roles.ops_none (h : Roles s γ) (hph : (γ t).phase ≠ .idle) (u : Slot) :
    s.book.ops u = none := h.alone (by simp [h.busy_of hph]) u

/-- What a step of the owner leaves alone. -/
structure SameUsers (s s' : State) : Prop where
  prev : s'.prev = s.prev
  base : s'.hist.base = s.hist.base
  outstanding : s'.log.outstanding = s.log.outstanding
  committing : s'.log.committing = s.log.committing
  asleep : s'.asleep = s.asleep
  ops : s'.book.ops = s.book.ops
  busy : s'.book.busy = s.book.busy
  up : s'.up = s.up

/-- A step of the owner of the log. -/
theorem Inv.of_owner (h : Inv sb full lim s γ) (hph : (γ t).phase ≠ .idle) (hsame : SameUsers s s')
    (hop : g'.op = (γ t).op) (hon : g'.on = (γ t).on) (hph' : g'.phase ≠ .idle)
    (hup : g'.phase.up = (γ t).phase.up)
    (hlen : s.up → s'.log.lh.length ≤ s.log.lh.length)
    (hcache : Cache full (g'.phase.pinned s'.log.lh) s' (Function.update γ t g'))
    (hlh : LhOk s'.log.lh s'.hist g'.phase) (hdisk : full → DiskOk sb s' g'.phase) :
    Inv sb full lim s' (Function.update γ t g') := by
  have hr := h.roles
  have hbusy := hr.busy_of hph
  have hnone := hr.ops_none hph
  have hpo : phaseOf s' (Function.update γ t g') = g'.phase := by
    rw [phaseOf, hsame.busy, hbusy]
    simp
  refine ⟨?_, ?_, ?_, ?_, ?_, ?_⟩
  · rwa [hpo]
  · constructor
    · intro u
      rw [hsame.ops, ← hr.op u]
      by_cases hu : u = t
      · subst hu
        simpa using hop
      · simp [hu]
    · intro u hu
      have hne : u ≠ t := by
        rintro rfl
        exact hu (hsame.busy.trans hbusy)
      rw [Function.update_of_ne hne]
      exact hr.idle u (hsame.busy ▸ hu)
    · intro u hu
      rw [hsame.busy, hbusy, Option.some.injEq] at hu
      subst hu
      simpa using hph'
    · rw [hsame.busy, hsame.ops]
      exact hr.alone
    · rw [hsame.outstanding, hsame.ops]
      exact hr.outstanding
    · rw [hsame.committing, hsame.busy, hsame.up]
      exact hr.committing
    · intro u hu
      rw [hsame.asleep] at hu
      have hup := (hr.asleep u hu).1
      have hcomm : s'.log.committing = true := by
        rw [hsame.committing, hr.committing, hbusy, hup]
        rfl
      exact ⟨hsame.up.trans hup, by simp [State.admits, hcomm]⟩
    · rw [hpo, hup, hsame.up, ← hr.phaseOf_eq hph]
      exact hr.up
    · intro u hu
      rw [hsame.up]
      refine hr.on u ?_
      by_cases hut : u = t
      · subst hut
        simpa [hon] using hu
      · simpa [hut] using hu
    · intro u j x hx hdirty
      rw [hsame.ops, hsame.busy]
      by_cases hu : u = t
      · subst hu
        exact .inr hbusy
      · exact hr.writer u j x (by simpa [hu] using hx) hdirty
  · rwa [hpo]
  · refine ⟨?_, ?_, ?_⟩
    · intro u O hO
      rw [hsame.ops, hnone u] at hO
      cases hO
    · intro _ u O hO
      rw [hsame.ops, hnone u] at hO
      cases hO
    · intro hlim hs
      rw [hsame.up] at hs
      have := h.budget.room hlim hs
      have := hlen hs
      rw [hsame.ops]
      omega
  · rwa [hpo]
  · rw [hsame.up, hsame.prev, hsame.base]
    exact h.past

variable {φ : Phase} {x : Held}

/-- A step of the owner that touches no buffer. -/
theorem Inv.of_owner_quiet (h : Inv sb full lim s γ) (hph : (γ t).phase ≠ .idle)
    (hsame : SameUsers s s') (hbuf : s'.buf = s.buf) (hlru : s'.lru = s.lru)
    (hrefs : s'.book.refs = s.book.refs) (hpins : s'.book.pins = s.book.pins)
    (hdisk : s'.disk = s.disk) (hlogged : s'.hist.logged = s.hist.logged) (hφ : φ ≠ .idle)
    (hup : φ.up = (γ t).phase.up)
    (hP : ∀ b, b ∈ φ.pinned s'.log.lh ↔ b ∈ (γ t).phase.pinned s.log.lh)
    (hlen : s.up → s'.log.lh.length ≤ s.log.lh.length) (hlh : LhOk s'.log.lh s'.hist φ)
    (hdisk' : full → DiskOk sb s' φ) :
    Inv sb full lim s' (Function.update γ t ((γ t).setPhase φ)) := by
  refine h.of_owner hph hsame rfl rfl hφ hup hlen ?_ hlh hdisk'
  have hcache := h.cache
  rw [h.roles.phaseOf_eq hph] at hcache
  exact hcache.quiet hbuf hlru hrefs hpins (fun j => links_update_same rfl) hP hlogged hdisk

/-! ### Disk writes -/

/-- Writing buffer `i`, of which `x` is known, takes the log to phase `ψ`. -/
def WritesTo (sb : Superblock) (full lim : Prop) (t : Slot) (i : BufRef) (x : Held) (ψ : Phase)
    (g : Local) : Prop :=
  Does (sem sb) (Inv sb full lim) t (.diskWrite i) g fun _ g' =>
    g' = (g.setLink i ⟨some { x with dirty := false, sync := true }, none⟩).setPhase ψ

/-- Writing a buffer to disk, if the write takes the log from phase `φ` to `ψ`. -/
theorem does_diskWrite {ψ : Phase} (hx : (g.link i).held = some x) (hp : (g.link i).pend = none)
    (hg : g.phase = φ) (hφ : φ ≠ .idle) (hψ : ψ ≠ .idle) (hup : ψ.up = φ.up)
    (hpin : ∀ lh, ψ.pinned lh = φ.pinned lh) (hlh : ∀ lh h, LhOk lh h φ → LhOk lh h ψ)
    (hlogged : full → ∀ s, DiskOk sb s φ → LhOk s.log.lh s.hist φ →
      x.blockno ∈ φ.pinned s.log.lh → x.data = s.hist.logged x.blockno)
    (hdisk : full → ∀ s, DiskOk sb s φ → LhOk s.log.lh s.hist φ →
      DiskOk sb { s with disk := Function.update s.disk x.blockno x.data } ψ) :
    WritesTo sb full lim t i x ψ g := by
  intro s γ hI hgt r s' hs
  subst hgt
  cases hs
  have hm := hI.held_ok hx
  have hph : (γ t).phase ≠ .idle := by rwa [hg]
  have hpo := hI.roles.phaseOf_eq hph
  have hcache := hI.cache
  have hlhs := hI.lh
  rw [hpo, hg] at hcache hlhs
  refine ⟨((γ t).setLink i ⟨some { x with dirty := false, sync := true }, none⟩).setPhase ψ,
    hI.of_owner hph ⟨rfl, rfl, rfl, rfl, rfl, rfl, rfl, rfl⟩ rfl rfl hψ ?_ (fun _ => le_refl _) ?_
      (hlh _ _ hlhs) ?_, rfl⟩
  · rw [hg]
    exact hup
  · simp only [Local.setPhase_phase, hpin]
    refine hcache.frame i (fun _ _ => rfl) (fun _ _ _ => rfl) (fun _ _ => rfl) ?_ ?_
      hcache.lru ?_ ?_ ?_
    · exact fun j hj => links_update_same (by simp [Local.setLink_link_of_ne hj])
    · intro j b hj hjb
      refine ⟨Iff.rfl, rfl, Function.update_of_ne ?_ _ _⟩
      rintro rfl
      exact hj (hcache.uniq j i _ hjb ⟨hm.dev, rfl⟩)
    · have hok := (hcache.ok i).write (t := t) hx hp ?_
      · simpa [State.BufOk, links_update] using hok
      · intro hf hP
        have hd := hI.disk hf
        rw [hpo, hg] at hd
        rw [hm.data, hm.blockno]
        exact hlogged hf s hd hlhs (hm.blockno ▸ hP)
    · intro b hb j hj hjb
      exact hj (hcache.uniq j i b hjb hb)
    · intro b hb
      obtain ⟨j, hj⟩ := hcache.cached b hb
      by_cases hji : j = i
      · exact .inl (hji ▸ hj)
      · exact .inr ⟨j, hji, hj⟩
  · intro hf
    have hd := hI.disk hf
    rw [hpo, hg] at hd
    have := hdisk hf s hd hlhs
    rwa [← hm.data, ← hm.blockno] at this

/-! ### The stages on disk -/

section stages

variable {disk B : ℕ → Data} {d : Data}

theorem StageOk.log_write (h : StageOk sb disk B l S (.writing k)) (hl : ListOk sb l)
    (hk : k < l.length) (hd : d = S l[k]) :
    StageOk sb (Function.update disk (sb.logstart + k + 1) d) B l S (.writing (k + 1)) := by
  obtain ⟨hhead, hhome, hB, hlog⟩ := h
  refine ⟨readHead_log_write hhead, hhome.log_write (hl.inLog hk), hB, fun i hi hik => ?_⟩
  by_cases hik' : i = k
  · subst hik'
    simpa using hd
  · rw [Function.update_of_ne (by omega)]
    exact hlog i hi (by omega)

/-- The header is written: the commit. -/
theorem StageOk.head_write (h : StageOk sb disk B l S (.writing l.length)) (hnlog : 0 < sb.nlog)
    (hd : readHead d = l) :
    StageOk sb (Function.update disk sb.logstart d) B l S (.installing 0) := by
  obtain ⟨-, hhome, hB, hlog⟩ := h
  refine ⟨.head_write (fun i hi => hlog i hi hi) hd, fun b hb hbl => ?_⟩
  rw [Function.update_of_ne ((inLog_head hnlog).ne hb), hhome b hb (by simp)]
  exact hB b hb (by simpa using hbl)

theorem StageOk.install (h : StageOk sb disk B l S (.installing k)) (hl : ListOk sb l)
    (hnlog : 0 < sb.nlog) (hk : k < l.length) (hd : d = S l[k]) :
    StageOk sb (Function.update disk l[k] d) B l S (.installed k) :=
  ⟨h.1.home_write hl hnlog (hl.home _ (List.getElem_mem hk)), h.2.install hk hd⟩

theorem StageOk.clear (h : StageOk sb disk B l S .clearing) (hnlog : 0 < sb.nlog)
    (hd : readHead d = []) : StageOk sb (Function.update disk sb.logstart d) B l S .erased :=
  ⟨by simpa using hd, h.2.log_write (inLog_head hnlog)⟩

theorem StageOk.all_installed (h : StageOk sb disk B l S (.installing l.length)) :
    StageOk sb disk B l S .clearing := ⟨h.1, by simpa using h.2⟩

end stages

/-! ### The writes of `commit` and of recovery -/

theorem does_write_log (hx : (g.link i).held = some x) (hp : (g.link i).pend = none)
    (hg : g.phase = .commit l S (.writing k)) (hk : k < l.length)
    (hb : x.blockno = sb.logstart + k + 1) (hd : full → x.data = S l[k]) :
    WritesTo sb full lim t i x (.commit l S (.writing (k + 1))) g := by
  refine does_diskWrite hx hp hg (by simp) (by simp) rfl (fun _ => rfl) (fun _ _ => id) ?_ ?_
  · rintro - s ⟨-, hl, -⟩ - hmem
    rw [hb] at hmem
    exact absurd (hl.inLog hk) (hl.home _ hmem)
  · rintro hf s ⟨hS, hl, hst⟩ -
    rw [hb]
    exact ⟨hS, hl, hst.log_write hl hk (hd hf)⟩

theorem does_write_head (hnlog : full → 0 < sb.nlog) (hx : (g.link i).held = some x)
    (hp : (g.link i).pend = none) (hg : g.phase = .commit l S (.writing l.length))
    (hb : x.blockno = sb.logstart) (hd : full → ListOk sb l → readHead x.data = l) :
    WritesTo sb full lim t i x (.commit l S (.installing 0)) g := by
  refine does_diskWrite hx hp hg (by simp) (by simp) rfl (fun _ => rfl) (fun _ _ => id) ?_ ?_
  · rintro hf s ⟨-, hl, -⟩ - hmem
    rw [hb] at hmem
    exact absurd (inLog_head (hnlog hf)) (hl.home _ hmem)
  · rintro hf s ⟨hS, hl, hst⟩ -
    rw [hb]
    exact ⟨hS, hl, hst.head_write (hnlog hf) (hd hf hl)⟩

theorem does_install (hnlog : full → 0 < sb.nlog) (hx : (g.link i).held = some x)
    (hp : (g.link i).pend = none) (hg : g.phase = .commit l S (.installing k)) (hk : k < l.length)
    (hb : x.blockno = l[k]) (hd : full → x.data = S l[k]) :
    WritesTo sb full lim t i x (.commit l S (.installed k)) g := by
  refine does_diskWrite hx hp hg (by simp) (by simp) rfl (fun _ => rfl) (fun _ _ => id) ?_ ?_
  · rintro hf s ⟨hS, -, -⟩ - -
    rw [hd hf, hb, hS]
  · rintro hf s ⟨hS, hl, hst⟩ -
    rw [hb]
    exact ⟨hS, hl, hst.install hl (hnlog hf) hk (hd hf)⟩

theorem does_replay (hnlog : full → 0 < sb.nlog) (hx : (g.link i).held = some x)
    (hp : (g.link i).pend = none) (hg : g.phase = .replay l S (.installing k)) (hk : k < l.length)
    (hb : x.blockno = l[k]) (hd : full → x.data = S l[k]) :
    WritesTo sb full lim t i x (.replay l S (.installing (k + 1))) g := by
  refine does_diskWrite hx hp hg (by simp) (by simp) rfl (fun _ => rfl) (fun _ _ => id) ?_ ?_
  · rintro - s - - hmem
    simp [Phase.pinned] at hmem
  · rintro hf s ⟨hS, hl, -, hst⟩ -
    rw [hb]
    exact ⟨hS, hl, by simp, hst.install hl (hnlog hf) hk (hd hf)⟩

theorem does_clear (hnlog : full → 0 < sb.nlog) (hx : (g.link i).held = some x)
    (hp : (g.link i).pend = none) (hg : g.phase = .commit l S .clearing)
    (hb : x.blockno = sb.logstart) (hd : readHead x.data = []) :
    WritesTo sb full lim t i x (.commit l S .erased) g := by
  refine does_diskWrite hx hp hg (by simp) (by simp) rfl (fun _ => rfl) (fun _ _ => id) ?_ ?_
  · rintro - s - - hmem
    simp [Phase.pinned, Stage.pinned] at hmem
  · rintro hf s ⟨hS, hl, hst⟩ -
    rw [hb]
    exact ⟨hS, hl, hst.clear (hnlog hf) hd⟩

theorem does_wipe (hnlog : full → 0 < sb.nlog) (hx : (g.link i).held = some x)
    (hp : (g.link i).pend = none) (hg : g.phase = .replay l S .clearing)
    (hb : x.blockno = sb.logstart) (hd : readHead x.data = []) :
    WritesTo sb full lim t i x (.replay l S .erased) g := by
  refine does_diskWrite hx hp hg (by simp) (by simp) rfl (fun _ => rfl) (fun _ _ => id) ?_ ?_
  · rintro - s - - hmem
    simp [Phase.pinned] at hmem
  · rintro hf s ⟨hS, hl, -, hst⟩ -
    rw [hb]
    exact ⟨hS, hl, by simp, hst.clear (hnlog hf) hd⟩

/-! ### Pins -/

theorem does_bunpin (hx : (g.link i).held = some x) (hsync : x.sync)
    (hg : g.phase = .commit l S (.installed k)) (hk : k < l.length) (hb : x.blockno = l[k]) :
    Does (sem sb) (Inv sb full lim) t (.bunpin i) g fun _ g' =>
      g' = g.setPhase (.commit l S (.installing (k + 1))) := by
  intro s γ hI hgt r s' hs
  subst hgt
  cases hs
  have hm := hI.held_ok hx
  have hph : (γ t).phase ≠ .idle := by simp [hg]
  have hpo := hI.roles.phaseOf_eq hph
  have hcache := hI.cache
  have hlhs := hI.lh
  rw [hpo, hg] at hcache hlhs
  obtain ⟨hnodup, hlh, hcur⟩ := hlhs
  have hdrop : l.drop k = l[k] :: l.drop (k + 1) := List.drop_eq_getElem_cons hk
  have hout : l[k] ∉ l.drop (k + 1) := by
    have := hnodup.sublist (List.drop_sublist k l)
    rw [hdrop, List.nodup_cons] at this
    exact this.1
  refine ⟨(γ t).setPhase (.commit l S (.installing (k + 1))), hI.of_owner hph
    ⟨rfl, rfl, rfl, rfl, rfl, rfl, rfl, rfl⟩ rfl rfl (by simp) (by rw [hg]; rfl) (fun _ => le_refl _) ?_
    ⟨hnodup, hlh, hcur⟩ ?_, rfl⟩
  · simp only [Local.setPhase_phase, Phase.pinned, Stage.pinned] at hcache ⊢
    refine hcache.frame i ?_ (fun _ _ _ => rfl) ?_ (fun j _ => links_update_same rfl) ?_
      hcache.lru ?_ ?_ ?_
    · intro j hj
      simp [State.bunpin, State.setBuf, hj]
    · intro j hj
      simp [State.bunpin, Book.setPins, hj]
    · intro j b hj hjb
      refine ⟨?_, rfl, rfl⟩
      have hne : b ≠ l[k] := by
        rintro rfl
        exact hj (hcache.uniq j i _ hjb ⟨hm.dev, hm.blockno.trans hb⟩)
      rw [hdrop, List.mem_cons, or_iff_right hne]
    · have hbn : (s.buf i).blockno = l[k] := hm.blockno.trans hb
      have hok := (hcache.ok i).unpin (t := t) (l.drop (k + 1)) hx hsync
        (by rw [hbn, hdrop]; exact List.mem_cons_self) (by rwa [hbn])
      have hlink : links (Function.update γ t
          ((γ t).setPhase (.commit l S (.installing (k + 1))))) i = links γ i :=
        links_update_same rfl
      rw [← hlink] at hok
      simpa [State.BufOk, State.bunpin, State.setBuf, Book.setPins] using hok
    · intro b hb' j hj hjb
      refine hj (hcache.uniq j i b hjb ?_)
      simpa [State.Caches, State.bunpin, State.setBuf] using hb'
    · intro b hb'
      obtain ⟨j, hj⟩ := hcache.cached b (by rw [hdrop]; exact List.mem_cons_of_mem _ hb')
      by_cases hji : j = i
      · refine .inl ?_
        subst hji
        simpa [State.Caches, State.bunpin, State.setBuf] using hj
      · exact .inr ⟨j, hji, hj⟩
  · intro hf
    have hd := hI.disk hf
    rw [hpo, hg] at hd
    exact hd

/-! ### What the owner reads -/

theorem DiskOk.home (h : DiskOk sb s φ) (hlh : LhOk s.log.lh s.hist φ) (hup : φ.up) {b : ℕ}
    (hb : ¬ sb.InLog b) (hP : b ∉ φ.pinned s.log.lh) : s.disk b = s.hist.logged b := by
  have hquiet : (∀ w ∈ s.hist.cur, w.1 ∈ s.log.lh) → b ∉ s.log.lh →
      s.hist.logged b = s.hist.content s.hist.groups.length b := by
    intro hcur hnot
    rw [Hist.logged_eq]
    refine applyWrites_of_not_mem fun w hw hwb => hnot ?_
    exact hwb ▸ hcur w hw
  cases φ with
  | idle | entered =>
    obtain ⟨-, -, hhome⟩ := h
    rw [hhome b hb (by simp), hquiet hlh.2.1 hP, hlh.2.2]
  | commit l S st =>
    obtain ⟨rfl, -, hst⟩ := h
    cases st with
    | writing k => rw [hst.2.1 b hb (by simp), hst.2.2.1 b hb hP]
    | installing k => exact hst.2 b hb hP
    | installed k =>
      refine hst.2 b hb fun hmem => hP ?_
      exact (List.drop_sublist_drop_left l (Nat.le_succ k)).subset hmem
    | clearing => exact hst.2 b hb (by simp)
    | erased => exact hst.2 b hb (by simp)
  | booting => cases hup
  | replay l S st => cases hup

/-- A buffer without changes has the content last logged. -/
theorem Inv.data_eq_logged (h : Inv sb full lim s γ) (hf : full) (hx : ((γ t).link i).held = some x)
    (hv : x.valid) (hd : x.dirty = false) (hup : s.up) (hb : ¬ sb.InLog x.blockno) :
    x.data = s.hist.logged x.blockno := by
  have hm := h.held_ok hx
  have hok := h.cache.ok i
  have hclean := hok.clean_of_held hx hd
  rw [← hm.data, ← hm.blockno]
  by_cases hP : (s.buf i).blockno ∈ (phaseOf s γ).pinned s.log.lh
  · exact (hok.pinned hf hm.dev hP).2 hclean
  · rw [hok.coh hm.dev (hm.valid.trans hv) hP hclean]
    refine (h.disk hf).home h.lh (h.roles.up ▸ hup) ?_ hP
    rwa [hm.blockno]

theorem Inv.data_eq_disk (h : Inv sb full lim s γ) (hx : ((γ t).link i).held = some x)
    (hv : x.valid) (hd : x.dirty = false) (hP : x.blockno ∉ (phaseOf s γ).pinned s.log.lh) :
    x.data = s.disk x.blockno := by
  have hm := h.held_ok hx
  have hok := h.cache.ok i
  rw [← hm.data, ← hm.blockno]
  exact hok.coh hm.dev (hm.valid.trans hv) (by rwa [hm.blockno]) (hok.clean_of_held hx hd)

/-- `write_log` reads what was logged. -/
theorem does_load_home {st : Stage} (hx : (g.link i).held = some x) (hv : x.valid)
    (hd : x.dirty = false) (hg : g.phase = .commit l S st) (hb : x.blockno ∈ l) :
    Does (sem sb) (Inv sb full lim) t (.load i) g fun r g' =>
      g' = g ∧ (full → r = S x.blockno) := by
  refine does_read fun s γ r s' hI hgt hs => ?_
  cases hs
  subst hgt
  refine ⟨rfl, rfl, fun hf => ?_⟩
  have hpo := hI.roles.phaseOf_eq (t := t) (by simp [hg])
  have hdisk := hI.disk hf
  rw [hpo, hg] at hdisk
  obtain ⟨hS, hl, -⟩ := hdisk
  rw [(hI.held_ok hx).data, hS]
  refine hI.data_eq_logged hf hx hv hd ?_ (hl.home _ hb)
  rw [hI.roles.up, hpo, hg]
  rfl

/-- The disk while log blocks are installed. -/
theorem Inv.log_block (h : Inv sb full lim s γ) (hf : full)
    (hg : (γ t).phase = .commit l S (.installing k) ∨ (γ t).phase = .replay l S (.installing k))
    (hk : k < l.length) : s.disk (sb.logstart + k + 1) = S l[k] ∧
      sb.logstart + k + 1 ∉ (phaseOf s γ).pinned s.log.lh := by
  have hph : (γ t).phase ≠ .idle := by
    rcases hg with hg | hg <;> simp [hg]
  have hdisk := h.disk hf
  rw [h.roles.phaseOf_eq hph] at hdisk ⊢
  rcases hg with hg | hg <;> rw [hg] at hdisk ⊢
  · obtain ⟨-, hl, hst⟩ := hdisk
    refine ⟨hst.1.block hk, fun hmem => ?_⟩
    exact hl.home _ (List.mem_of_mem_drop hmem) (hl.inLog hk)
  · exact ⟨hdisk.2.2.2.1.block hk, by simp [Phase.pinned]⟩

theorem does_load_log (hx : (g.link i).held = some x) (hv : x.valid) (hd : x.dirty = false)
    (hg : g.phase = .commit l S (.installing k) ∨ g.phase = .replay l S (.installing k))
    (hk : k < l.length) (hb : x.blockno = sb.logstart + k + 1) :
    Does (sem sb) (Inv sb full lim) t (.load i) g fun r g' =>
      g' = g ∧ (full → r = S l[k]) := by
  refine does_read fun s γ r s' hI hgt hs => ?_
  cases hs
  subst hgt
  refine ⟨rfl, rfl, fun hf => ?_⟩
  obtain ⟨hdisk, hP⟩ := hI.log_block hf hg hk
  rw [(hI.held_ok hx).data, hI.data_eq_disk hx hv hd (by rwa [hb]), hb, hdisk]

theorem does_lh (st : Stage) (hg : g.phase = .commit l S st ∨ g.phase = .replay l S st) :
    Does (sem sb) (Inv sb full lim) t .lh g fun r g' => g' = g ∧ r = st.lh l := by
  refine does_read fun s γ r s' hI hgt hs => ?_
  cases hs
  subst hgt
  have hph : (γ t).phase ≠ .idle := by
    rcases hg with hg | hg <;> simp [hg]
  have hlh := hI.lh
  rw [hI.roles.phaseOf_eq hph] at hlh
  rcases hg with hg | hg <;> rw [hg] at hlh
  · exact ⟨rfl, rfl, hlh.2.1⟩
  · exact ⟨rfl, rfl, hlh⟩

/-! ### The steps of `commit` -/

theorem does_commitCalled (hg : g.phase = .entered) :
    Does (sem sb) (Inv sb full lim) t .commitCalled g fun _ g' =>
      ∃ l S, g' = g.setPhase (.commit l S (.writing 0)) := by
  intro s γ hI hgt r s' hs
  subst hgt
  cases hs
  have hph : (γ t).phase ≠ .idle := by simp [hg]
  have hpo := hI.roles.phaseOf_eq hph
  have hlh := hI.lh
  rw [hpo, hg] at hlh
  refine ⟨(γ t).setPhase (.commit s.log.lh s.hist.logged (.writing 0)),
    hI.of_owner_quiet hph ⟨rfl, rfl, rfl, rfl, rfl, rfl, rfl, rfl⟩ rfl rfl rfl rfl rfl Hist.logged_seal
      (by simp) (by rw [hg]; rfl) (by simp [hg, Phase.pinned, Stage.pinned]) (fun _ => le_refl _)
      ⟨hlh.1, rfl, rfl, by simp [hlh.2.2]⟩ ?_, _, _, rfl⟩
  intro hf
  have hd := hI.disk hf
  rw [hpo, hg] at hd
  obtain ⟨hl, hhead, hhome⟩ := hd
  have hdone := hlh.2.2
  refine ⟨Hist.logged_seal.symm, hl, hhead, ?_, ?_, by simp⟩
  · rwa [Hist.content_seal_of_le hdone.le]
  · intro b _ hbl
    rw [Hist.content_seal_of_le hdone.le, Hist.logged_eq, hdone]
    refine (applyWrites_of_not_mem fun w hw hwb => hbl ?_).symm
    exact hwb ▸ hlh.2.1 w hw

theorem does_setLh_commit (hg : g.phase = .commit l S (.installing l.length)) :
    Does (sem sb) (Inv sb full lim) t (.setLh []) g fun _ g' =>
      g' = g.setPhase (.commit l S .clearing) := by
  intro s γ hI hgt r s' hs
  subst hgt
  cases hs
  have hph : (γ t).phase ≠ .idle := by simp [hg]
  have hpo := hI.roles.phaseOf_eq hph
  have hlh := hI.lh
  rw [hpo, hg] at hlh
  refine ⟨(γ t).setPhase (.commit l S .clearing), hI.of_owner_quiet hph
    ⟨rfl, rfl, rfl, rfl, rfl, rfl, rfl, rfl⟩ rfl rfl rfl rfl rfl rfl (by simp) (by rw [hg]; rfl)
    (by simp [hg, Phase.pinned, Stage.pinned]) (fun _ => by simp [State.setLh])
    ⟨hlh.1, rfl, hlh.2.2⟩ fun hf => ?_, rfl⟩
  have hd := hI.disk hf
  rw [hpo, hg] at hd
  exact ⟨hd.1, hd.2.1, hd.2.2.all_installed⟩

theorem does_setLh_replay (hg : g.phase = .replay l S (.installing l.length)) :
    Does (sem sb) (Inv sb full lim) t (.setLh []) g fun _ g' =>
      g' = g.setPhase (.replay l S .clearing) := by
  intro s γ hI hgt r s' hs
  subst hgt
  cases hs
  have hph : (γ t).phase ≠ .idle := by simp [hg]
  have hpo := hI.roles.phaseOf_eq hph
  refine ⟨(γ t).setPhase (.replay l S .clearing), hI.of_owner_quiet hph
    ⟨rfl, rfl, rfl, rfl, rfl, rfl, rfl, rfl⟩ rfl rfl rfl rfl rfl rfl (by simp) (by rw [hg]; rfl)
    (by simp [hg, Phase.pinned]) (fun _ => by simp [State.setLh]) rfl fun hf => ?_, rfl⟩
  have hd := hI.disk hf
  rw [hpo, hg] at hd
  exact ⟨hd.1, hd.2.1, by simp, hd.2.2.2.all_installed⟩

/-- `read_head` finds the log that is to be replayed. -/
theorem does_setLh_boot (hx : (g.link i).held = some x) (hv : x.valid) (hd : x.dirty = false)
    (hb : x.blockno = sb.logstart) (hg : g.phase = .booting) :
    Does (sem sb) (Inv sb full lim) t (.setLh (readHead x.data)) g fun _ g' =>
      ∃ S, g' = g.setPhase (.replay (readHead x.data) S (.installing 0)) := by
  intro s γ hI hgt r s' hs
  subst hgt
  cases hs
  have hph : (γ t).phase ≠ .idle := by simp [hg]
  have hpo := hI.roles.phaseOf_eq hph
  have hup : s.up = false := by rw [hI.roles.up, hpo, hg]; rfl
  have hdata : x.data = s.disk sb.logstart := by
    rw [← hb]
    exact hI.data_eq_disk hx hv hd (by simp [hpo, hg, Phase.pinned])
  have hstep : ∀ S, (full → DiskOk sb (s.setLh (readHead x.data))
      (.replay (readHead x.data) S (.installing 0))) →
      Inv sb full lim (s.setLh (readHead x.data)) (Function.update γ t ((γ t).setPhase
        (.replay (readHead x.data) S (.installing 0)))) := fun S hS =>
    hI.of_owner_quiet hph ⟨rfl, rfl, rfl, rfl, rfl, rfl, rfl, rfl⟩ rfl rfl rfl rfl rfl rfl (by simp)
      (by rw [hg]; rfl) (by simp [hg, Phase.pinned]) (fun h => by simp [hup] at h) rfl hS
  by_cases hf : full
  · have hdisk := hI.disk hf
    rw [hpo, hg] at hdisk
    obtain ⟨S, htarget, l, hl, hlog, hhome⟩ := hdisk
    have hle : readHead x.data = l := by rw [hdata]; exact hlog.1
    refine ⟨_, hstep S fun _ => ?_, S, rfl⟩
    rw [hle]
    exact ⟨htarget, hl, by simp, hlog, hhome⟩
  · exact ⟨_, hstep (fun _ _ => 0) fun h => absurd h hf, _, rfl⟩

theorem does_commitReturns
    (hg : g.phase = .commit l S .erased ∨ g.phase = .commit [] S (.writing 0)) :
    Does (sem sb) (Inv sb full lim) t .commitReturns g fun _ g' => g' = g.setPhase .entered := by
  intro s γ hI hgt r s' hs
  subst hgt
  cases hs
  have hph : (γ t).phase ≠ .idle := by
    rcases hg with hg | hg <;> simp [hg]
  have hpo := hI.roles.phaseOf_eq hph
  have hlh := hI.lh
  have hempty : s.log.lh = [] ∧ s.hist.cur = [] ∧ (γ t).phase.up = true ∧
      (γ t).phase.pinned s.log.lh = [] := by
    rw [hpo] at hlh
    rcases hg with hg | hg <;> rw [hg] at hlh ⊢
    · exact ⟨hlh.2.1, hlh.2.2.1, rfl, rfl⟩
    · exact ⟨hlh.2.1, hlh.2.2.1, rfl, rfl⟩
  refine ⟨(γ t).setPhase .entered, hI.of_owner_quiet hph ⟨rfl, rfl, rfl, rfl, rfl, rfl, rfl, rfl⟩
    rfl rfl rfl rfl rfl rfl (by simp) hempty.2.2.1.symm ?_ (fun _ => le_refl _)
    ⟨by simp [hempty.1], by simp [hempty.2.1], rfl⟩ ?_, rfl⟩
  · rw [hempty.2.2.2]
    simp [Phase.pinned, hempty.1]
  · intro hf
    have hd := hI.disk hf
    rw [hpo] at hd
    have hlogged := Hist.logged_of_cur_nil hempty.2.1
    refine ⟨by simpa [hempty.1] using ListOk.nil, ?_⟩
    rcases hg with hg | hg <;> rw [hg] at hd <;> obtain ⟨hS, -, hst⟩ := hd
    · refine ⟨hst.1, ?_⟩
      rw [hS, hlogged] at hst
      exact hst.2
    · refine ⟨hst.1, fun b hb _ => ?_⟩
      rw [hst.2.1 b hb (by simp), hst.2.2.1 b hb (by simp), hS, hlogged]
      rfl

end Xv6.Block
