import Xv6.Block.Inv

/-!
# The operations on buffers

What each primitive operation on a buffer does to the invariant and to what the process knows. The
operations of this module leave the log and the disk alone, so only `Cache` has to be shown again.
-/

namespace Xv6.Block

open Lib Lib.Prog

variable {sb : Superblock} {full lim : Prop} {s s' : State} {γ : Slot → Local} {t : Slot}
  {g g' : Local} {i : BufRef}

/-! ### Steps that touch neither log nor disk -/

/-- The two states differ in buffers and references only. -/
structure SameLog (s s' : State) : Prop where
  log : s'.log = s.log
  asleep : s'.asleep = s.asleep
  hist : s'.hist = s.hist
  prev : s'.prev = s.prev
  ops : s'.book.ops = s.book.ops
  busy : s'.book.busy = s.book.busy
  up : s'.up = s.up
  disk : s'.disk = s.disk

theorem phaseOf_update (hbusy : s'.book.busy = s.book.busy) (hphase : g'.phase = (γ t).phase) :
    phaseOf s' (Function.update γ t g') = phaseOf s γ := by
  rw [phaseOf, phaseOf, hbusy]
  cases s.book.busy with
  | none => rfl
  | some u =>
    by_cases hu : u = t
    · subst hu
      simpa using hphase
    · simp [hu]

theorem SameLog.admits (h : SameLog s s') : s'.admits = s.admits := by
  rw [State.admits, State.admits, h.log]

/-- A step of `t` that changes only buffers and what `t` knows of them. -/
theorem Inv.of_cache (h : Inv sb full lim s γ) (hsame : SameLog s s') (hop : g'.op = (γ t).op)
    (hphase : g'.phase = (γ t).phase) (hon : g'.on = (γ t).on)
    (hwriter : ∀ j x, (g'.link j).held = some x → x.dirty →
      (s.book.ops t).isSome ∨ s.book.busy = some t)
    (hcache : Cache full ((phaseOf s γ).pinned s.log.lh) s' (Function.update γ t g')) :
    Inv sb full lim s' (Function.update γ t g') := by
  have hpo := phaseOf_update (γ := γ) (t := t) hsame.busy hphase
  have hthread : ∀ u, (Function.update γ t g' u).op = (γ u).op ∧
      (Function.update γ t g' u).phase = (γ u).phase := by
    intro u
    by_cases hu : u = t
    · subst hu
      simpa using ⟨hop, hphase⟩
    · simp [hu]
  obtain ⟨-, hr, hlh, hb, hd, hpast⟩ := h
  refine ⟨?_, ?_, ?_, ?_, ?_, ?_⟩
  · rw [hpo, hsame.log]
    exact hcache
  · constructor
    · intro u
      rw [(hthread u).1, hsame.ops]
      exact hr.op u
    · intro u hu
      rw [(hthread u).2]
      exact hr.idle u (hsame.busy ▸ hu)
    · intro u hu
      rw [(hthread u).2]
      exact hr.busy u (hsame.busy ▸ hu)
    · rw [hsame.busy, hsame.ops]
      exact hr.alone
    · rw [hsame.log, hsame.ops]
      exact hr.outstanding
    · rw [hsame.log, hsame.busy, hsame.up]
      exact hr.committing
    · rw [hsame.asleep, hsame.admits, hsame.up]
      exact hr.asleep
    · rw [hpo, hsame.up]
      exact hr.up
    · intro u hu
      rw [hsame.up]
      refine hr.on u ?_
      by_cases hut : u = t
      · subst hut
        simpa [hon] using hu
      · simpa [hut] using hu
    · intro u j x hx hdirty
      rw [hsame.ops, hsame.busy]
      by_cases hu : u = t
      · subst hu
        exact hwriter j x (by simpa using hx) hdirty
      · exact hr.writer u j x (by simpa [hu] using hx) hdirty
  · rw [hpo, hsame.log, hsame.hist]
    exact hlh
  · obtain ⟨hmem, hcard, hroom⟩ := hb
    constructor <;> rw [hsame.ops] <;> try rw [hsame.log]
    · exact hmem
    · exact hcard
    · rw [hsame.up]
      exact hroom
  · intro hf
    rw [hpo]
    have := hd hf
    revert this
    cases phaseOf s γ <;> simp only [DiskOk, hsame.log, hsame.hist, hsame.disk] <;> exact id
  · rw [hsame.up, hsame.prev, hsame.hist]
    exact hpast

/-- The other buffers are not concerned. -/
theorem links_of_ne (hg : ∀ j, j ≠ i → g'.link j = (γ t).link j) {j : BufRef} (hj : j ≠ i) :
    links (Function.update γ t g') j = links γ j :=
  links_update_same (hg j hj)

theorem Roles.busy_of (h : Roles s γ) (hph : (γ t).phase ≠ .idle) : s.book.busy = some t := by
  by_contra hne
  exact hph (h.idle t hne)

theorem Roles.phaseOf_eq (h : Roles s γ) (hph : (γ t).phase ≠ .idle) :
    phaseOf s γ = (γ t).phase := by
  rw [phaseOf, h.busy_of hph]

/-- A process that knows a buffer to be changed is in an operation, or owns the log. -/
theorem Roles.writer_of (h : Roles s γ) (hw : (γ t).op ≠ none ∨ (γ t).phase ≠ .idle) :
    (s.book.ops t).isSome ∨ s.book.busy = some t := by
  refine hw.imp (fun hop => ?_) h.busy_of
  rw [← h.op t]
  exact Option.isSome_iff_ne_none.mpr hop

variable {x : Held} {b : ℕ}

/-- The buffer as its holder knows it. -/
theorem Inv.held_ok (h : Inv sb full lim s γ) (hx : ((γ t).link i).held = some x) :
    Matches s.disk (s.buf i) x := (h.cache.ok i).held t x hx

theorem Inv.caches_held (h : Inv sb full lim s γ) (hx : ((γ t).link i).held = some x) :
    s.Caches i x.blockno := ⟨(h.held_ok hx).dev, (h.held_ok hx).blockno⟩

/-- Process `t` changes what it knows of buffer `i`, whose block stays. -/
theorem Inv.of_bufOk (b' : Buf) (refs' : ℕ) (h : Inv sb full lim s γ) {l : Link}
    (hsame : SameLog s s') (hbuf : s'.buf = Function.update s.buf i b')
    (hpins : s'.book.pins = s.book.pins)
    (hrefs : s'.book.refs = Function.update s.book.refs t
      (Function.update (s.book.refs t) i refs'))
    (hlru : ∀ j, j ∈ s'.lru) (hdev : b'.dev = (s.buf i).dev)
    (hblockno : b'.blockno = (s.buf i).blockno)
    (hwriter : ∀ x, l.held = some x → x.dirty → (γ t).op ≠ none ∨ (γ t).phase ≠ .idle)
    (hok : BufOk full ((phaseOf s γ).pinned s.log.lh) s.hist.logged s.disk b'
      (Function.update (fun u => s.book.refs u i) t refs') (s.book.pins i)
      (Function.update (links γ i) t l)) :
    Inv sb full lim s' (Function.update γ t ((γ t).setLink i l)) := by
  have hother : ∀ j, j ≠ i → ((γ t).setLink i l).link j = (γ t).link j := fun j hj =>
    Local.setLink_link_of_ne hj
  refine h.of_cache hsame rfl rfl rfl (fun j x hx hd => ?_) ?_
  · by_cases hj : j = i
    · subst hj
      exact h.roles.writer_of (hwriter x (by simpa using hx) hd)
    · exact h.roles.writer t j x (by rwa [hother j hj] at hx) hd
  · refine h.cache.frame_same i ?_ ?_ ?_ (fun j hj => links_of_ne hother hj) hsame.hist hsame.disk
      hlru ?_ ?_ ?_
    · intro j hj
      simp [hbuf, hj]
    · intro j hj u
      rw [hrefs]
      by_cases hu : u = t
      · subst hu
        simp [hj]
      · simp [hu]
    · intro j _
      rw [hpins]
    · simp [hbuf, hdev]
    · simp [hbuf, hblockno]
    · have hr : (fun u => s'.book.refs u i) =
          Function.update (fun u => s.book.refs u i) t refs' := by
        funext u
        rw [hrefs]
        by_cases hu : u = t
        · subst hu
          simp
        · simp [hu]
      rw [State.BufOk, hr, hpins, hsame.hist, hsame.disk, links_update, hbuf]
      simpa using hok

/-- The same when the references stay as they are. -/
theorem Inv.of_setBuf (h : Inv sb full lim s γ) {l : Link} {b' : Buf}
    (hdev : b'.dev = (s.buf i).dev) (hblockno : b'.blockno = (s.buf i).blockno)
    (hwriter : ∀ x, l.held = some x → x.dirty → (γ t).op ≠ none ∨ (γ t).phase ≠ .idle)
    (hok : BufOk full ((phaseOf s γ).pinned s.log.lh) s.hist.logged s.disk b'
      (fun u => s.book.refs u i) (s.book.pins i) (Function.update (links γ i) t l)) :
    Inv sb full lim (s.setBuf i b') (Function.update γ t ((γ t).setLink i l)) := by
  refine h.of_bufOk b' (s.book.refs t i) ⟨rfl, rfl, rfl, rfl, rfl, rfl, rfl, rfl⟩ rfl rfl ?_
    h.cache.lru hdev hblockno hwriter ?_
  · simp [State.setBuf]
  · have : Function.update (fun u => s.book.refs u i) t (s.book.refs t i) =
        fun u => s.book.refs u i := Function.update_eq_self t _
    rwa [this]

/-- The thread's own ghost value may be written back. -/
theorem Inv.same (h : Inv sb full lim s γ) (hg : γ t = g) :
    Inv sb full lim s (Function.update γ t g) := by
  rwa [← hg, Function.update_eq_self]

/-! ### The operations -/

theorem does_read {o : PrimOp} {R : Prim.Ret o → Local → Prop}
    (h : ∀ s γ r s', Inv sb full lim s γ → γ t = g → exec sb t o s = some (r, s') →
      s' = s ∧ R r g) : Does (sem sb) (Inv sb full lim) t o g R := by
  intro s γ hI hg r s' hs
  obtain ⟨rfl, hR⟩ := h s γ r s' hI hg hs
  exact ⟨g, hI.same hg, hR⟩

theorem does_valid (hx : (g.link i).held = some x) :
    Does (sem sb) (Inv sb full lim) t (.valid i) g fun r g' => g' = g ∧ r = x.valid := by
  refine does_read fun s γ r s' hI hg hs => ?_
  cases hs
  subst hg
  exact ⟨rfl, rfl, (hI.held_ok hx).valid⟩

theorem does_load (hx : (g.link i).held = some x) :
    Does (sem sb) (Inv sb full lim) t (.load i) g fun r g' => g' = g ∧ r = x.data := by
  refine does_read fun s γ r s' hI hg hs => ?_
  cases hs
  subst hg
  exact ⟨rfl, rfl, (hI.held_ok hx).data⟩

theorem does_holdingsleep (hx : (g.link i).held = some x) :
    Does (sem sb) (Inv sb full lim) t (.holdingsleep i) g fun r g' => g' = g ∧ r = true := by
  refine does_read fun s γ r s' hI hg hs => ?_
  cases hs
  subst hg
  have hlock := (hI.cache.ok i).lock_of_held (t := t) hx
  exact ⟨rfl, rfl, decide_eq_true hlock⟩

theorem does_acquiresleep (hp : (g.link i).pend = some b) :
    Does (sem sb) (Inv sb full lim) t (.acquiresleep i) g fun _ g' =>
      (g.link i).held = none ∧
        ∃ x : Held, x.blockno = b ∧ x.dirty = false ∧ g' = g.setLink i ⟨some x, none⟩ := by
  intro s γ hI hg r s' hs
  subst hg
  simp only [sem, exec] at hs
  split_ifs at hs with hlock
  cases hs
  have hok := hI.cache.ok i
  refine ⟨_, hI.of_setBuf rfl rfl ?_ (hok.acquire hlock hp), ?_, _, rfl, rfl, rfl⟩
  · rintro x ⟨⟩ hd
    simp at hd
  · have := (hok.lock t).not.mp (by simp [hlock])
    simpa [links] using this

theorem does_releasesleep (hx : (g.link i).held = some x) (hp : (g.link i).pend = none)
    (hd : x.dirty = false) :
    Does (sem sb) (Inv sb full lim) t (.releasesleep i) g fun _ g' =>
      g' = g.setLink i ⟨none, some x.blockno⟩ := by
  intro s γ hI hg r s' hs
  subst hg
  cases hs
  refine ⟨_, hI.of_setBuf rfl rfl ?_ ((hI.cache.ok i).release hx hp hd), rfl⟩
  rintro y ⟨⟩

theorem does_diskRead (hx : (g.link i).held = some x) (hp : (g.link i).pend = none)
    (hv : x.valid = false) :
    Does (sem sb) (Inv sb full lim) t (.diskRead i) g fun _ g' =>
      ∃ y : Held, y.blockno = x.blockno ∧ y.valid ∧ y.dirty = false ∧
        g' = g.setLink i ⟨some y, none⟩ := by
  intro s γ hI hg r s' hs
  subst hg
  cases hs
  have hm := hI.held_ok hx
  have hinvalid : (s.buf i).valid = false := hm.valid.trans hv
  let y : Held := ⟨x.blockno, true, s.disk (s.buf i).blockno, false, true⟩
  refine ⟨(γ t).setLink i ⟨some y, none⟩, hI.of_setBuf rfl rfl ?_ ?_, y, rfl, rfl, rfl, rfl⟩
  · rintro z ⟨⟩ hd
    simp [y] at hd
  · refine (hI.cache.ok i).change hx hp ⟨hm.dev, hm.blockno, rfl, rfl, ?_⟩ ?_ ?_
    · exact fun _ => ⟨rfl, rfl⟩
    · exact fun _ _ _ => rfl
    · intro hf hP
      -- a pinned block has been valid since it was logged
      have := ((hI.cache.ok i).pinned hf hm.dev hP).1
      rw [hinvalid] at this
      cases this

theorem does_store {d : Data} (hx : (g.link i).held = some x) (hp : (g.link i).pend = none)
    (hw : g.op ≠ none ∨ g.phase ≠ .idle) :
    Does (sem sb) (Inv sb full lim) t (.store i d) g fun _ g' =>
      g' = g.setLink i ⟨some { x with data := d, dirty := true, sync := false }, none⟩ := by
  intro s γ hI hg r s' hs
  subst hg
  cases hs
  have hm := hI.held_ok hx
  refine ⟨_, hI.of_setBuf rfl rfl (fun _ _ _ => hw) ?_, rfl⟩
  refine (hI.cache.ok i).change hx hp ⟨hm.dev, hm.blockno, hm.valid, rfl, by simp⟩ (by simp) ?_
  exact fun hf hP => ⟨((hI.cache.ok i).pinned hf hm.dev hP).1, by simp⟩

theorem does_unref (hp : (g.link i).pend = some b) (hx : (g.link i).held = none) :
    Does (sem sb) (Inv sb full lim) t (.unref i) g fun _ g' => g' = g.setLink i .empty := by
  intro s γ hI hg r s' hs
  subst hg
  cases hs
  refine ⟨(γ t).setLink i .empty, ?_, rfl⟩
  refine hI.of_bufOk { s.buf i with refcnt := (s.buf i).refcnt - 1 } (s.book.refs t i - 1) ?_ ?_
    ?_ ?_ ?_ rfl rfl ?_ ((hI.cache.ok i).unref hp hx)
  · unfold State.unref
    split_ifs <;> exact ⟨rfl, rfl, rfl, rfl, rfl, rfl, rfl, rfl⟩
  · unfold State.unref
    split_ifs <;> rfl
  · unfold State.unref
    split_ifs <;> rfl
  · unfold State.unref
    split_ifs <;> rfl
  · intro j
    unfold State.unref
    split_ifs
    · by_cases hj : j = i
      · simp [hj]
      · simpa [hj] using (List.mem_erase_of_ne hj).mpr (hI.cache.lru j)
    · exact hI.cache.lru j
  · rintro y ⟨⟩

/-! ### Looking for a buffer -/

/-- The pins of `NBUF` blocks are on all buffers. -/
theorem Cache.all_pinned {P : List ℕ} (h : Cache full P s γ) (hP : P.Nodup) (hlen : NBUF ≤ P.length)
    (i : BufRef) : (s.buf i).dev = ROOTDEV ∧ (s.buf i).blockno ∈ P := by
  have : Nonempty BufRef := ⟨i⟩
  choose! f hf using h.cached
  have hinj : Set.InjOn f P.toFinset := by
    intro b hb c hc hbc
    have hb' := hf b (List.mem_toFinset.mp hb)
    rw [hbc] at hb'
    exact hb'.2.symm.trans (hf c (List.mem_toFinset.mp hc)).2
  have hall : P.toFinset.image f = Finset.univ := by
    refine Finset.eq_univ_of_card _ (le_antisymm (Finset.card_le_univ _) ?_)
    rwa [Finset.card_image_of_injOn hinj, List.toFinset_card_of_nodup hP, Fintype.card_fin]
  obtain ⟨b, hb, rfl⟩ := Finset.mem_image.mp (hall ▸ Finset.mem_univ i)
  have hb' := List.mem_toFinset.mp hb
  exact ⟨(hf b hb').1, by rwa [(hf b hb').2]⟩

/-- Fewer pins leave a buffer, if no process refers to any. -/
theorem Cache.exists_unused {P : List ℕ} (h : Cache full P s γ)
    (hempty : ∀ u i, (γ u).link i = .empty) (hlen : P.length < NBUF) :
    ∃ i, (s.buf i).refcnt = 0 := by
  by_contra hne
  have hmem : ∀ i, (s.buf i).dev = ROOTDEV ∧ (s.buf i).blockno ∈ P := by
    intro i
    by_contra hno
    have hrefs : ∑ u, s.book.refs u i = 0 := Finset.sum_eq_zero fun u _ => by
      rw [(h.ok i).linked u, links, hempty, Link.empty_count]
    exact hne ⟨i, by rw [(h.ok i).count, (h.ok i).pin, if_neg hno, hrefs]⟩
  have hle := Finset.card_le_card_of_injOn (s := Finset.univ) (t := P.toFinset)
    (fun i => (s.buf i).blockno) (fun i _ => List.mem_toFinset.mpr (hmem i).2)
    (fun i _ j _ hij => h.uniq i j _ ⟨(hmem i).1, rfl⟩ ⟨(hmem j).1, hij.symm⟩)
  rw [Finset.card_univ, Fintype.card_fin] at hle
  exact absurd (hle.trans (List.toFinset_card_le P)) (not_le.mpr hlen)

/-- The cache and the header while process `t` commits. -/
theorem Inv.committing (h : Inv sb full lim s γ) {l : List ℕ} {S : ℕ → Data} {st : Stage}
    (hφ : (γ t).phase = .commit l S st) :
    l.Nodup ∧ s.log.lh = st.lh l ∧ Cache full (st.pinned l) s γ := by
  have hpo : phaseOf s γ = .commit l S st := (h.roles.phaseOf_eq (by simp [hφ])).trans hφ
  have hlh := h.lh
  have hcache := h.cache
  rw [hpo] at hlh hcache
  exact ⟨hlh.1, hlh.2.1, hcache⟩

/-- If a process has so many blocks to commit, all buffers are in use for them. -/
theorem Inv.all_pinned (h : Inv sb full lim s γ) (hlen : NBUF ≤ ((γ t).phase.pinned []).length)
    (i : BufRef) : (s.buf i).blockno ∈ (γ t).phase.pinned [] ∧ (s.buf i).refcnt ≠ 0 := by
  have hpos : 0 < NBUF := Nat.zero_lt_of_lt i.isLt
  cases hφ : (γ t).phase with
  | idle | entered | booting | replay =>
    rw [hφ, Phase.pinned, List.length_nil] at hlen
    omega
  | commit l S st =>
    obtain ⟨hnodup, -, hcache⟩ := h.committing hφ
    rw [hφ] at hlen
    have hi := hcache.all_pinned ((st.pinned_sublist l).nodup hnodup) hlen i
    refine ⟨hi.2, ?_⟩
    rw [(hcache.ok i).count, (hcache.ok i).pin, if_pos hi]
    omega

/-- What `bget` leaves the process with: a reference to the buffer of the block, if there is one. Not
all buffers are pinned for other blocks then. -/
def Got (g : Local) (b : ℕ) : Option BufRef → Local → Prop
  | none, g' => g' = g
  | some i, g' => g' = g.setLink i ⟨(g.link i).held, some b⟩ ∧
      (∀ j x, (g.link j).held = some x → (x.blockno = b ↔ j = i)) ∧
      (b ∈ g.phase.pinned [] ∨ (g.phase.pinned []).length < NBUF)

theorem Inv.recycle (h : Inv sb full lim s γ) (h0 : (s.buf i).refcnt = 0)
    (hnew : ∀ j, ¬ s.Caches j b) :
    Inv sb full lim { s.setBuf i { s.buf i with
        dev := ROOTDEV, blockno := b, valid := false, refcnt := 1 } with
        book := s.book.setRefs t i (s.book.refs t i + 1) }
      (Function.update γ t ((γ t).setLink i ⟨none, some b⟩)) := by
  have hP : b ∉ (phaseOf s γ).pinned s.log.lh := by
    intro hb
    obtain ⟨j, hj⟩ := h.cache.cached b hb
    exact hnew j hj
  obtain ⟨hpins, hrefs, -⟩ := (h.cache.ok i).unused h0
  have hother : ∀ j, j ≠ i → ((γ t).setLink i ⟨none, some b⟩).link j = (γ t).link j :=
    fun j hj => Local.setLink_link_of_ne hj
  refine h.of_cache ⟨rfl, rfl, rfl, rfl, rfl, rfl, rfl, rfl⟩ rfl rfl rfl (fun j x hx hd => ?_) ?_
  · by_cases hj : j = i
    · subst hj
      simp at hx
    · exact h.roles.writer t j x (by rwa [hother j hj] at hx) hd
  · refine h.cache.frame i ?_ ?_ (fun _ _ => rfl) (fun j hj => links_of_ne hother hj)
      (fun _ _ _ _ => ⟨Iff.rfl, rfl, rfl⟩) h.cache.lru ?_ ?_ ?_
    · intro j hj
      simp [State.setBuf, hj]
    · intro j hj u
      by_cases hu : u = t
      · subst hu
        simp [Book.setRefs, hj]
      · simp [Book.setRefs, hu]
    · have hr : (fun u => (s.book.setRefs t i (s.book.refs t i + 1)).refs u i) =
          Function.update (fun u => s.book.refs u i) t 1 := by
        funext u
        by_cases hu : u = t
        · subst hu
          simp [Book.setRefs, hrefs u]
        · simp [Book.setRefs, hu]
      have hok := (h.cache.ok i).recycle (t := t) h0 hP
      rw [← hr] at hok
      simpa [State.BufOk, State.setBuf, links_update] using hok
    · rintro c ⟨-, rfl⟩ j - hj
      exact hnew j (by simpa [State.setBuf] using hj)
    · intro c hc
      obtain ⟨j, hj⟩ := h.cache.cached c hc
      refine .inr ⟨j, ?_, hj⟩
      rintro rfl
      -- a pinned block has a reference
      have := (h.cache.ok j).pin
      rw [hpins, if_pos ⟨hj.1, by rwa [hj.2]⟩] at this
      cases this

theorem does_bget (hcalm : g.Calm) :
    Does (sem sb) (Inv sb full lim) t (.bget ROOTDEV b) g (Got g b) := by
  intro s γ hI hg r s' hs
  subst hg
  simp only [sem, exec, State.bget] at hs
  split at hs
  · rename_i i hfind
    cases hs
    have hi : s.Caches i b := by simpa [State.Caches] using List.find?_some hfind
    refine ⟨(γ t).setLink i ⟨((γ t).link i).held, some b⟩, ?_, rfl, fun j x hx => ⟨?_, ?_⟩, ?_⟩
    rotate_left
    · exact fun hb => hI.cache.uniq j i b (hb ▸ hI.caches_held hx) hi
    · rintro rfl
      exact (hI.caches_held hx).2.symm.trans hi.2
    · by_contra! hno
      exact hno.1 (hi.2 ▸ (hI.all_pinned hno.2 i).1)
    refine hI.of_bufOk { s.buf i with refcnt := (s.buf i).refcnt + 1 } (s.book.refs t i + 1)
      ⟨rfl, rfl, rfl, rfl, rfl, rfl, rfl, rfl⟩
      rfl rfl rfl hI.cache.lru rfl rfl ?_ ((hI.cache.ok i).ref hi.1 hi.2 (hcalm i))
    exact fun x hx hd => (hI.roles.writer t i x hx hd).imp
      (fun hop => by rw [hI.roles.op t]; exact Option.isSome_iff_ne_none.mp hop)
      (fun hb => hI.roles.busy t hb)
  · rename_i hnone
    split at hs
    · rename_i i hfind
      cases hs
      have h0 : (s.buf i).refcnt = 0 := by simpa using List.find?_some hfind
      have hnew : ∀ j, ¬ s.Caches j b := by
        intro j hj
        have := List.find?_eq_none.mp hnone j (hI.cache.lru j)
        exact this (by simpa [State.Caches] using hj)
      have hheld : ((γ t).link i).held = none := ((hI.cache.ok i).unused h0).2.2 t |>.1
      refine ⟨_, hI.recycle h0 hnew, by rw [hheld], fun j x hx => ⟨fun hb => ?_, ?_⟩, .inr ?_⟩
      · exact absurd (hb ▸ hI.caches_held hx) (hnew j)
      · rintro rfl
        rw [hheld] at hx
        cases hx
      · by_contra! hlen
        exact (hI.all_pinned hlen i).2 h0
    · cases hs
      exact ⟨γ t, hI.same rfl, rfl⟩

end Xv6.Block
