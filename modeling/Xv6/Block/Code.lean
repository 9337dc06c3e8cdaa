import Xv6.Block.Users

/-!
# The code of `bio.c` and `log.c`

One specification for each function, from the rules for the primitive operations. `wp_end_op` and
`wp_initlog` are the main ones: whatever other processes do meanwhile, a commit and a recovery take
the log through all their phases.

The specifications are those of partial correctness, or with `total` of total correctness, for a process
that has the buffers to itself.
-/

namespace Xv6.Block

open Lib Lib.Prog

variable {sb : Superblock} {full lim total : Prop} {t : Slot} {g g' : Local} {i j : BufRef} {l : List ℕ}
  {S : ℕ → Data} {k : ℕ}

/-- The invariant; with `total`, no process but `t` refers to a buffer. -/
def Solo (sb : Superblock) (full lim total : Prop) (t : Slot) (s : State) (γ : Slot → Local) : Prop :=
  Inv sb full lim s γ ∧ (total → ∀ u, u ≠ t → ∀ i, (γ u).link i = .empty)

theorem solo_false : Solo sb full lim False t = Inv sb full lim := by
  funext s γ
  simp [Solo]

/-- The logic for the code of process `t`. -/
abbrev Spec (sb : Superblock) (full lim total : Prop) (t : Slot) {α : Type} (p : Code α)
    (Q : α → Local → Prop) (g : Local) : Prop :=
  wp (sem sb) (Solo sb full lim total t) t total p Q g

theorem Does.solo {o : PrimOp} {Q : Prim.Ret o → Local → Prop}
    (h : Does (sem sb) (Inv sb full lim) t o g Q) :
    Does (sem sb) (Solo sb full lim total t) t o g Q := by
  intro s γ hS hg r s' hs
  obtain ⟨g', hI', hQ⟩ := h s γ hS.1 hg r s' hs
  refine ⟨g', ⟨hI', fun ht u hu i => ?_⟩, hQ⟩
  rw [Function.update_of_ne hu]
  exact hS.2 ht u hu i

/-- An operation that never waits. -/
theorem wp_prim {o : PrimOp} {Q : Prim.Ret o → Local → Prop}
    (h : Does (sem sb) (Inv sb full lim) t o g Q)
    (he : total → Enabled (sem sb) (Solo sb full lim total t) t o g := by
      exact fun _ _ _ _ _ => ⟨_, _, rfl⟩) :
    Spec sb full lim total t (prim o) Q g := ⟨he, Does.solo h⟩

/-! ### `bio.c` -/

theorem Local.Calm.setLink (h : g.Calm) {x : Option Held} : (g.setLink i ⟨x, none⟩).Calm := by
  intro j
  by_cases hj : j = i
  · subst hj
    simp
  · rw [Local.setLink_link_of_ne hj]
    exact h j

theorem Local.Calm.setPhase (h : g.Calm) {φ : Phase} : (g.setPhase φ).Calm := h

/-- The process holds buffer `i`, whose block is `b`. -/
def Read (g : Local) (b : ℕ) (i : BufRef) (g' : Local) : Prop :=
  g.link i = .empty ∧ ∃ x : Held, x.blockno = b ∧ x.valid ∧ x.dirty = false ∧
    g' = g.setLink i ⟨some x, none⟩

/-- The process does not hold block `b`, and the pins of its commit leave a buffer for it. -/
structure Local.Lacks (g : Local) (b : ℕ) : Prop where
  free : ∀ j x, (g.link j).held = some x → x.blockno ≠ b
  room : b ∈ g.phase.pinned [] ∨ (g.phase.pinned []).length < NBUF

/-- No other buffer is needed than one that is pinned for the block, or none is in use but for pins. -/
def Local.Served (g : Local) (b : ℕ) : Prop :=
  g.Lacks b ∧ ∃ l S st, g.phase = .commit l S st ∧ (b ∈ st.pinned l ∨ ∀ i, g.link i = .empty)

variable {x : Held} {b : ℕ} {bs : List ℕ}

/-- `bget` finds a buffer, if no other process refers to one. -/
theorem does_bget_served (hcalm : g.Calm) (hserved : total → g.Served b) :
    Does (sem sb) (Solo sb full lim total t) t (.bget ROOTDEV b) g
      fun r g' => Got g b r g' ∧ (total → r ≠ none) := by
  intro s γ hS hg r s' hs
  obtain ⟨g', hS', hgot⟩ := Does.solo (does_bget hcalm) s γ hS hg r s' hs
  refine ⟨g', hS', hgot, ?_⟩
  rintro ht rfl
  subst hg
  obtain ⟨hlacks, l, S, st, hφ, hserved⟩ := hserved ht
  obtain ⟨-, -, hcache⟩ := hS.1.committing hφ
  simp only [sem, exec, State.bget] at hs
  split at hs
  · cases hs
  rename_i hnone
  split at hs
  · cases hs
  rename_i hused
  have hnew : b ∉ st.pinned l := by
    intro hb
    obtain ⟨i, hi⟩ := hcache.cached b hb
    exact List.find?_eq_none.mp hnone i (hcache.lru i) (by simpa [State.Caches] using hi)
  have hlen := hlacks.room.resolve_left (by rwa [hφ])
  rw [hφ] at hlen
  have hempty : ∀ u i, (γ u).link i = .empty := by
    intro u
    by_cases hu : u = t
    · exact hu ▸ hserved.resolve_left hnew
    · exact hS.2 ht u hu
  obtain ⟨i, hi⟩ := hcache.exists_unused hempty hlen
  exact List.find?_eq_none.mp hused i (by simpa using hcache.lru i) (by simpa using hi)

theorem wp_bget (hcalm : g.Calm) (hserved : total → g.Served b) :
    Spec sb full lim total t (bget ROOTDEV b) (fun i g' => g.Lacks b ∧ g.link i = .empty ∧
      ∃ x : Held, x.blockno = b ∧ x.dirty = false ∧ g' = g.setLink i ⟨some x, none⟩) g := by
  refine wp_seq ⟨fun _ _ _ _ _ => ⟨_, _, rfl⟩, does_bget_served hcalm hserved⟩ fun r g₁ hr => ?_
  cases r with
  | none => exact fun ht => hr.2 ht rfl
  | some i =>
    obtain ⟨⟨rfl, hiff, hroom⟩, -⟩ := hr
    refine wp_seq (wp_prim (does_acquiresleep (b := b) (by simp)) ?_) ?_
    · -- neither this process nor another one has the sleep lock
      intro ht s γ hS hg
      refine ⟨(), _, if_pos ?_⟩
      cases hl : (s.buf i).lock with
      | none => rfl
      | some u =>
        have hheld := ((hS.1.cache.ok i).lock u).mp hl
        by_cases hu : u = t
        · subst hu
          rw [links, hg, Local.setLink_link_self] at hheld
          obtain ⟨x, hx⟩ := Option.isSome_iff_exists.mp hheld
          exact absurd ((hiff i x hx).mpr rfl) ((hserved ht).1.free i x hx)
        · simp [links, hS.2 ht u hu i] at hheld
    rintro - g₂ ⟨hheld, x, hb, hd, rfl⟩
    simp only [Local.setLink_link_self] at hheld
    refine ⟨⟨fun j y hy hyb => ?_, hroom⟩, ?_, x, hb, hd, by simp⟩
    · rw [(hiff j y hy).mp hyb, hheld] at hy
      cases hy
    · have hpend := hcalm i
      cases hl : g.link i
      simp_all [Link.empty]

theorem wp_bread (hcalm : g.Calm) (hserved : total → g.Served b) :
    Spec sb full lim total t (bread ROOTDEV b) (fun i g' => g.Lacks b ∧ Read g b i g') g := by
  refine wp_seq (wp_bget (b := b) hcalm hserved) ?_
  rintro i g₁ ⟨hlacks, hlink, x, hb, hd, rfl⟩
  refine wp_seq (wp_prim (does_valid (x := x) (by simp))) ?_
  rintro r g₂ ⟨rfl, rfl⟩
  refine wp_seq (Q := fun _ g' => Read g b i g') (wp_when ?_ ?_) fun _ _ hread => ⟨hlacks, hread⟩
  · intro hv
    refine wp_mono (wp_prim (does_diskRead (x := x) (by simp) (by simp) (by simpa using hv))) ?_
    rintro - g₃ ⟨y, hyb, hyv, hyd, rfl⟩
    exact ⟨hlink, y, hyb.trans hb, hyv, hyd, by simp⟩
  · intro hv
    exact ⟨hlink, x, hb, by simpa using hv, hd, rfl⟩

theorem wp_brelse (hx : (g.link i).held = some x) (hp : (g.link i).pend = none)
    (hd : x.dirty = false) :
    Spec sb full lim total t (brelse i) (fun _ g' => g' = g.setLink i .empty) g := by
  refine wp_seq (wp_prim (does_holdingsleep hx)) ?_
  rintro r g₁ ⟨rfl, rfl⟩
  refine wp_seq (wp_prim (does_releasesleep hx hp hd)) ?_
  rintro - g₂ rfl
  refine wp_mono (wp_prim (does_unref (b := x.blockno) (by simp) (by simp))) ?_
  rintro - g₃ rfl
  simp

/-- `bwrite`, if the write is allowed. -/
theorem wp_bwrite {Q : Local → Prop} (hx : (g.link i).held = some x)
    (h : Does (sem sb) (Inv sb full lim) t (.diskWrite i) g fun _ g' => Q g') :
    Spec sb full lim total t (bwrite i) (fun _ => Q) g := by
  refine wp_seq (wp_prim (does_holdingsleep hx)) ?_
  rintro r g₁ ⟨rfl, rfl⟩
  exact wp_prim h

/-! ### `log.c` -/

/-- What is left when two buffers have been given back. -/
theorem Local.restore (hi : g.link i = .empty) (hj : g.link j = .empty)
    (hlink : ∀ u, u ≠ i → u ≠ j → g'.link u = g.link u) (hop : g'.op = g.op) (hon : g'.on = g.on) :
    (g'.setLink i .empty).setLink j .empty = g.setPhase g'.phase := by
  have heq : Function.update (Function.update g'.link i .empty) j .empty = g.link := by
    funext u
    by_cases huj : u = j
    · subst huj
      simp [hj]
    · by_cases hui : u = i
      · subst hui
        simp [huj, hi]
      · simp [huj, hui, hlink u hui huj]
  simp only [setLink, setPhase, heq, hop, hon]

theorem wp_brelse_two {g₀ : Local} {y : Held} {rest : Unit → Code Unit} {Q : Unit → Local → Prop}
    (hi : g.link i = ⟨some x, none⟩) (hj : g.link j = ⟨some y, none⟩) (hne : j ≠ i)
    (hx : x.dirty = false) (hy : y.dirty = false) (hi₀ : g₀.link i = .empty)
    (hj₀ : g₀.link j = .empty) (hlink : ∀ u, u ≠ i → u ≠ j → g.link u = g₀.link u)
    (hop : g.op = g₀.op) (hon : g.on = g₀.on)
    (h : Spec sb full lim total t (rest ()) Q (g₀.setPhase g.phase)) :
    Spec sb full lim total t (brelse i >>= fun _ => brelse j >>= rest) Q g := by
  refine wp_seq (wp_brelse (x := x) (by rw [hi]) (by rw [hi]) hx) ?_
  rintro - g₁ rfl
  have hj' : (g.setLink i .empty).link j = ⟨some y, none⟩ := by
    rw [Local.setLink_link_of_ne hne, hj]
  refine wp_seq (wp_brelse (x := y) (by rw [hj']) (by rw [hj']) hy) ?_
  rintro - g₂ rfl
  rwa [Local.restore hi₀ hj₀ hlink hop hon]

/-- The first buffer is still held when the second has been read. -/
theorem Read.ne (h : Read (g.setLink i ⟨some x, none⟩) b j g') : j ≠ i ∧ g.link j = .empty := by
  have hne : j ≠ i := by
    rintro rfl
    have := h.1
    rw [Local.setLink_link_self] at this
    simp [Link.empty] at this
  exact ⟨hne, Local.setLink_link_of_ne hne ▸ h.1⟩

/-- Copying one buffer to another and writing that: `K` is what is known about the content, and the
write takes the log to phase `ψ`. -/
theorem wp_copyWrite {dst src : BufRef} {ψ : Phase} {K : Data → Prop}
    (hx : g.link dst = ⟨some x, none⟩) (hw : g.phase ≠ .idle)
    (hload : Does (sem sb) (Inv sb full lim) t (.load src) g fun d g' => g' = g ∧ K d)
    (hwrite : ∀ d g', K d → (g'.link dst).held = some ⟨x.blockno, x.valid, d, true, false⟩ →
      (g'.link dst).pend = none → g'.phase = g.phase →
      WritesTo sb full lim t dst ⟨x.blockno, x.valid, d, true, false⟩ ψ g') :
    Spec sb full lim total t (copyWrite dst src) (fun _ g' =>
      ∃ d, g' = (g.setLink dst ⟨some ⟨x.blockno, x.valid, d, false, true⟩, none⟩).setPhase ψ) g := by
  refine wp_seq (wp_prim hload) ?_
  rintro d g₁ ⟨rfl, hd⟩
  refine wp_seq (wp_prim (does_store (x := x) (by rw [hx]) (by rw [hx]) (.inr hw))) ?_
  rintro - g₂ rfl
  refine wp_mono (wp_bwrite (by rw [Local.setLink_link_self])
    (hwrite d _ hd (by simp) (by simp) rfl)) ?_
  rintro - g₃ rfl
  exact ⟨d, by simp⟩

/-- A list that is what is left of `l`. -/
theorem drop_cases (hbs : bs = l.drop k) (hk : k ≤ l.length) :
    bs = [] ∧ k = l.length ∨ ∃ h : k < l.length, bs = l[k] :: l.drop (k + 1) := by
  rcases Nat.lt_or_ge k l.length with hlt | hge
  · exact .inr ⟨hlt, hbs.trans (List.drop_eq_getElem_cons hlt)⟩
  · exact .inl ⟨hbs.trans (List.drop_eq_nil_of_le hge), by omega⟩

/-- The transaction `l` leaves a buffer for the blocks of the log, and no block of it is needed while its
own log block is held. -/
structure Fits (sb : Superblock) (l : List ℕ) : Prop where
  short : l.length < NBUF
  apart : ∀ m (hm : m < l.length), l[m] ≠ sb.logstart + m + 1

/-- What the turns of `write_log` from `k` on have shown when they are done. -/
def Written (sb : Superblock) (l : List ℕ) (k : ℕ) : Prop :=
  ∀ m (hm : m < l.length), k ≤ m →
    l[m] ≠ sb.logstart + m + 1 ∧ (sb.logstart + m + 1 ∈ l ∨ l.length < NBUF)

/-- If the header has been read as well, the transaction fits: of the `l.length + 1` blocks that were read
not all are pinned. -/
theorem Written.fits (h : Written sb l 0) (hhead : sb.logstart ∈ l ∨ l.length < NBUF) : Fits sb l := by
  refine ⟨?_, fun m hm => (h m hm (Nat.zero_le m)).1⟩
  by_contra hge
  have hsub : (List.range (l.length + 1)).map (sb.logstart + ·) ⊆ l := by
    intro b hb
    obtain ⟨m, hm, rfl⟩ := List.mem_map.mp hb
    cases m with
    | zero => exact hhead.resolve_right hge
    | succ m => exact (h m (by simpa using hm) (Nat.zero_le m)).2.resolve_right hge
  have hle := ((List.nodup_range.map (add_right_injective _)).subperm hsub).length_le
  simp at hle

/-- A committing process without buffers is served. -/
theorem Local.served_of_empty {st : Stage} (hempty : ∀ i, g.link i = .empty)
    (hg : g.phase = .commit l S st) (hl : Fits sb l) : g.Served b := by
  refine ⟨⟨fun j x hx => ?_, .inr ?_⟩, l, S, st, hg, .inr hempty⟩
  · rw [hempty j] at hx
    cases hx
  · rw [hg]
    exact (st.pinned_sublist l).length_le.trans_lt hl.short

/-- With the log block for it, it is served the next block. -/
theorem Local.served_of_pinned {st : Stage} (hempty : ∀ i, g.link i = .empty)
    (hg : g.phase = .commit l S st) (hl : Fits sb l) (hk : k < l.length) (hmem : l[k] ∈ st.pinned l)
    (hx : x.blockno = sb.logstart + k + 1) : (g.setLink i ⟨some x, none⟩).Served l[k] := by
  refine ⟨⟨fun j y hy => ?_, .inl ?_⟩, l, S, st, hg, .inl hmem⟩
  · by_cases hj : j = i
    · subst hj
      obtain rfl : x = y := by simpa using hy
      exact fun h => hl.apart k hk (h.symm.trans hx)
    · rw [Local.setLink_link_of_ne hj, hempty j] at hy
      cases hy
  · rwa [Local.setLink_phase, hg]

theorem wp_writeLogFrom (hbs : bs = l.drop k) (hk : k ≤ l.length) (hcalm : g.Calm)
    (hg : g.phase = .commit l S (.writing k))
    (hfits : total → (∀ i, g.link i = .empty) ∧ Fits sb l) :
    Spec sb full lim total t (writeLogFrom sb k bs) (fun _ g' =>
      g' = g.setPhase (.commit l S (.writing l.length)) ∧ Written sb l k) g := by
  induction bs generalizing k g with
  | nil =>
    obtain ⟨-, rfl⟩ | ⟨hlt, h⟩ := drop_cases hbs hk
    · exact ⟨(Local.setPhase_eq_self hg).symm, fun m hm hle => by omega⟩
    · cases h
  | cons b bs ih =>
    obtain ⟨h, -⟩ | ⟨hlt, h⟩ := drop_cases hbs hk
    · cases h
    obtain ⟨rfl, hrest⟩ := List.cons.inj h
    refine wp_seq (wp_bread hcalm fun ht => Local.served_of_empty (hfits ht).1 hg (hfits ht).2) ?_
    rintro dst g₁ ⟨hlog, hdst, x, hxb, hxv, hxd, rfl⟩
    refine wp_seq (wp_bread hcalm.setLink fun ht => Local.served_of_pinned (hfits ht).1 hg (hfits ht).2
      hlt (List.getElem_mem hlt) hxb) ?_
    rintro src g₂ ⟨hhome, hread⟩
    obtain ⟨hne, hsrc⟩ := hread.ne
    obtain ⟨-, y, hyb, hyv, hyd, rfl⟩ := hread
    have hapart : l[k] ≠ sb.logstart + k + 1 := fun h =>
      hhome.free dst x (by simp) (hxb.trans h.symm)
    have hroom := hlog.room
    rw [hg] at hroom
    refine wp_seq (wp_copyWrite (x := x) (K := fun d => full → d = S l[k])
      (ψ := .commit l S (.writing (k + 1))) ?_ (by simp [hg]) ?_ ?_) ?_
    · rw [Local.setLink_link_of_ne hne.symm, Local.setLink_link_self]
    · rw [← hyb]
      exact does_load_home (by simp) hyv hyd hg (by rw [hyb]; exact List.getElem_mem hlt)
    · intro d g' hd hx' hp' hph'
      exact does_write_log hx' hp' (hph'.trans hg) hlt hxb hd
    · rintro - g₃ ⟨d, rfl⟩
      refine wp_brelse_two (x := y) (y := ⟨x.blockno, x.valid, d, false, true⟩) ?_ ?_ hne.symm
        hyd rfl hsrc hdst ?_ rfl rfl ?_
      · simp [Local.setLink_link_of_ne hne]
      · simp
      · intro u hs hd
        simp [Local.setLink_link_of_ne hs, Local.setLink_link_of_ne hd]
      · refine wp_mono (ih hrest hlt hcalm.setPhase rfl hfits) ?_
        rintro - g₄ ⟨rfl, hlater⟩
        refine ⟨by simp, fun m hm hle => ?_⟩
        obtain rfl | hlt' := Nat.eq_or_lt_of_le hle
        · exact ⟨hapart, hroom⟩
        · exact hlater m hm hlt'

/-- The phase in which `install_trans` has installed `k` blocks. -/
def installing (recovering : Bool) (l : List ℕ) (S : ℕ → Data) (k : ℕ) : Phase :=
  bif recovering then .replay l S (.installing k) else .commit l S (.installing k)

theorem wp_installFrom {r : Bool} (hnlog : full → 0 < sb.nlog) (hbs : bs = l.drop k)
    (hk : k ≤ l.length) (hcalm : g.Calm) (hg : g.phase = installing r l S k)
    (hfits : total → r = false ∧ (∀ i, g.link i = .empty) ∧ Fits sb l) :
    Spec sb full lim total t (installFrom sb r k bs)
      (fun _ g' => g' = g.setPhase (installing r l S l.length)) g := by
  induction bs generalizing k g with
  | nil =>
    obtain ⟨-, rfl⟩ | ⟨hlt, h⟩ := drop_cases hbs hk
    · exact (Local.setPhase_eq_self hg).symm
    · cases h
  | cons b bs ih =>
    obtain ⟨h, -⟩ | ⟨hlt, h⟩ := drop_cases hbs hk
    · cases h
    obtain ⟨rfl, hrest⟩ := List.cons.inj h
    have hor : g.phase = .commit l S (.installing k) ∨ g.phase = .replay l S (.installing k) := by
      cases r with
      | false => exact .inl hg
      | true => exact .inr hg
    have hw : g.phase ≠ .idle := by
      rcases hor with h | h <;> simp [h]
    have hcommit : total → g.phase = .commit l S (.installing k) := by
      intro ht
      rw [hg, (hfits ht).1]
      rfl
    have hmem : l[k] ∈ l.drop k := by
      rw [List.drop_eq_getElem_cons hlt]
      exact List.mem_cons_self
    refine wp_seq (wp_bread hcalm fun ht =>
      Local.served_of_empty (hfits ht).2.1 (hcommit ht) (hfits ht).2.2) ?_
    rintro lbuf g₁ ⟨-, hlbuf, x, hxb, hxv, hxd, rfl⟩
    refine wp_seq (wp_bread hcalm.setLink fun ht => Local.served_of_pinned (hfits ht).2.1 (hcommit ht)
      (hfits ht).2.2 hlt hmem hxb) ?_
    rintro dbuf g₂ ⟨-, hread⟩
    obtain ⟨hne, hdbuf⟩ := hread.ne
    obtain ⟨-, y, hyb, hyv, hyd, rfl⟩ := hread
    -- In `commit` the block is still pinned when it has been written.
    refine wp_seq (wp_copyWrite (x := y) (K := fun d => full → d = S l[k])
      (ψ := bif r then .replay l S (.installing (k + 1)) else .commit l S (.installed k))
      (by simp) (by simpa using hw) ?_ ?_) ?_
    · refine does_load_log (x := x) ?_ hxv hxd (by simpa using hor) hlt hxb
      simp [Local.setLink_link_of_ne hne.symm]
    · intro d g' hd hy' hp' hph'
      cases r with
      | false => exact does_install hnlog hy' hp' (hph'.trans hg) hlt hyb hd
      | true => exact does_replay hnlog hy' hp' (hph'.trans hg) hlt hyb hd
    · rintro - g₃ ⟨d, rfl⟩
      refine wp_seq (Q := fun _ g' => g' = ((g.setLink lbuf ⟨some x, none⟩).setLink dbuf
        ⟨some ⟨y.blockno, y.valid, d, false, true⟩, none⟩).setPhase
          (installing r l S (k + 1))) ?_ ?_
      · cases r with
        | false =>
          exact wp_mono (wp_prim (does_bunpin (x := ⟨y.blockno, y.valid, d, false, true⟩)
            (l := l) (S := S) (k := k) (by simp) rfl rfl hlt hyb)) (by simp [installing])
        | true => exact wp_when (by simp) (by simp [installing])
      rintro - g₄ rfl
      refine wp_brelse_two (x := x) (y := ⟨y.blockno, y.valid, d, false, true⟩) ?_ ?_ hne
        hxd rfl hlbuf hdbuf ?_ rfl rfl ?_
      · simp [Local.setLink_link_of_ne hne.symm]
      · simp
      · intro u hl hd
        simp [Local.setLink_link_of_ne hl, Local.setLink_link_of_ne hd]
      · refine wp_mono (ih hrest hlt hcalm.setPhase rfl hfits) ?_
        rintro - g₅ rfl
        simp

/-- `write_head`, if the write takes the log to phase `ψ`. -/
theorem wp_write_head {ψ : Phase} {st : Stage} (hcalm : g.Calm)
    (hg : g.phase = .commit l S st ∨ g.phase = .replay l S st)
    (hserved : total → g.Served sb.logstart)
    (hwrite : ∀ i g' d, (g'.link i).held = some ⟨sb.logstart, true, putHead d (st.lh l), true, false⟩ →
      (g'.link i).pend = none → g'.phase = g.phase →
      WritesTo sb full lim t i ⟨sb.logstart, true, putHead d (st.lh l), true, false⟩ ψ g') :
    Spec sb full lim total t (write_head sb) (fun _ g' => g' = g.setPhase ψ ∧ g.Lacks sb.logstart) g := by
  refine wp_seq (wp_bread hcalm hserved) ?_
  rintro i g₁ ⟨hlacks, hi, ⟨b, v, d, dirty, sync⟩, rfl, rfl, rfl, rfl⟩
  refine wp_seq (wp_prim (does_lh (l := l) (S := S) st hg)) ?_
  rintro lh g₂ ⟨rfl, hlh⟩
  obtain rfl := hlh.symm
  refine wp_seq (wp_prim (does_load (x := ⟨sb.logstart, true, d, false, sync⟩) (by simp))) ?_
  rintro e g₃ ⟨rfl, he⟩
  obtain rfl : d = e := he.symm
  have hw : g.phase ≠ .idle := by
    rcases hg with hg | hg <;> simp [hg]
  refine wp_seq (wp_prim (does_store (x := ⟨sb.logstart, true, d, false, sync⟩) (by simp) (by simp)
    (.inr hw))) ?_
  rintro - g₄ rfl
  refine wp_seq (wp_bwrite (by rw [Local.setLink_link_self])
    (hwrite i _ d (by simp) (by simp) rfl)) ?_
  rintro - g₅ rfl
  refine wp_mono (wp_brelse (x := ⟨sb.logstart, true, putHead d (st.lh l), false, true⟩)
    (by simp) (by simp) rfl) ?_
  rintro - g₆ rfl
  simp only [Local.setLink_setPhase, Local.setLink_setLink]
  exact ⟨Local.setLink_eq_self (by simpa using hi), hlacks⟩

theorem readHead_putHead_nil (d : Data) : readHead (putHead d []) = [] :=
  readHead_putHead d (by simp) (by simp)

/-- With `total`, `commit` returns if the transaction fits; and only then it returns at all. -/
theorem wp_commitBody (hnlog : full → 0 < sb.nlog) (hcalm : g.Calm)
    (hfits : total → (∀ i, g.link i = .empty) ∧ Fits sb l) :
    Spec sb full lim total t (commitBody sb) (fun _ g' => g' = g.setPhase .entered ∧ Fits sb l)
      (g.setPhase (.commit l S (.writing 0))) := by
  have hserved : ∀ st b, total → (g.setPhase (.commit l S st)).Served b := fun st b ht =>
    Local.served_of_empty (hfits ht).1 rfl (hfits ht).2
  refine wp_seq (wp_prim (does_lh (l := l) (S := S) (.writing 0) (.inl rfl))) ?_
  rintro lh g₂ ⟨rfl, hlh⟩
  obtain rfl := hlh.symm
  refine wp_seq (Q := fun _ g' => (g' = g.setPhase (.commit l S .erased) ∨
    l = [] ∧ g' = g.setPhase (.commit l S (.writing 0))) ∧ Fits sb l)
    (wp_when (fun _ => ?_) fun hlen => ?_) ?_
  · refine wp_seq (Q := fun _ g' => g' = g.setPhase (.commit l S (.writing l.length)) ∧ Written sb l 0)
      ?_ ?_
    · refine wp_seq (wp_prim (does_lh (l := l) (S := S) (.writing 0) (.inl rfl))) ?_
      rintro lh g₂ ⟨rfl, hlh⟩
      obtain rfl := hlh.symm
      exact wp_writeLogFrom (l := l) (S := S) (k := 0) (by simp [Stage.lh]) (by simp) hcalm.setPhase rfl
        hfits
    rintro - g₂ ⟨rfl, hlog⟩
    refine wp_seq (wp_write_head (l := l) (S := S) (ψ := .commit l S (.installing 0)) hcalm.setPhase
      (.inl rfl) (hserved _ _) ?_) ?_
    · intro i g' d hx hp hph
      refine does_write_head hnlog hx hp hph rfl fun _ hl => ?_
      exact readHead_putHead d hl.le_logsize hl.small
    rintro - g₃ ⟨rfl, hhead⟩
    refine wp_seq (Q := fun _ g' => g' = g.setPhase (.commit l S (.installing l.length))) ?_ ?_
    · refine wp_seq (wp_prim (does_lh (l := l) (S := S) (.installing 0) (.inl rfl))) ?_
      rintro lh g₄ ⟨rfl, hlh⟩
      obtain rfl := hlh.symm
      exact wp_installFrom (r := false) (l := l) (S := S) (k := 0) hnlog (by simp [Stage.lh]) (by simp)
        hcalm.setPhase rfl fun ht => ⟨rfl, hfits ht⟩
    rintro - g₄ rfl
    refine wp_seq (wp_prim (does_setLh_commit (l := l) (S := S) rfl)) ?_
    rintro - g₅ rfl
    refine wp_mono (wp_write_head (l := l) (S := S) (ψ := .commit l S .erased) hcalm.setPhase
      (.inl rfl) (hserved _ _) ?_) ?_
    · intro i g' d hx hp hph
      exact does_clear hnlog hx hp hph rfl (readHead_putHead_nil d)
    rintro - g₆ ⟨rfl, -⟩
    exact ⟨.inl (by simp), hlog.fits hhead.room⟩
  · obtain rfl : l = [] := by simpa [Stage.lh] using hlen
    exact ⟨.inr ⟨rfl, rfl⟩, by decide, by simp⟩
  · rintro - g₃ ⟨hg₃, hl⟩
    refine wp_mono (wp_prim (does_commitReturns (l := l) (S := S) ?_)) ?_
    · rcases hg₃ with rfl | ⟨rfl, rfl⟩
      · exact .inl rfl
      · exact .inr rfl
    · rintro - g₄ rfl
      refine ⟨?_, hl⟩
      rcases hg₃ with rfl | ⟨rfl, rfl⟩ <;> simp

theorem wp_commit (hnlog : full → 0 < sb.nlog) (hcalm : g.Calm) (hg : g.phase = .entered) :
    Spec sb full lim False t (commit sb) (fun _ g' => g' = g) g := by
  refine wp_seq (wp_prim (does_commitCalled hg)) ?_
  rintro - g₁ ⟨l, S, rfl⟩
  refine wp_mono (wp_commitBody hnlog hcalm (fun h => h.elim)) ?_
  rintro - g₂ ⟨rfl, -⟩
  exact Local.setPhase_eq_self hg

theorem wp_end_op (hnlog : full → 0 < sb.nlog) (hcalm : g.Calm) (hop : g.op ≠ none)
    (hphase : g.phase = .idle) (hclean : ∀ j x, (g.link j).held = some x → x.dirty = false) :
    Spec sb full lim False t (end_op sb) (fun _ g' => g' = g.setOp none) g := by
  refine wp_seq (wp_prim (does_endOp hop hclean)) fun r g₁ hr => ?_
  cases r with
  | none => exact hr.elim
  | some v =>
    cases v with
    | false => exact hr
    | true =>
      obtain rfl : g₁ = (g.setOp none).setPhase .entered := hr
      refine wp_seq (wp_commit hnlog (g := (g.setOp none).setPhase .entered) hcalm rfl) ?_
      rintro - g₂ rfl
      refine wp_mono (wp_prim (does_commitDone rfl hclean)) ?_
      rintro - g₃ rfl
      exact Local.setPhase_eq_self (g := g.setOp none) hphase

theorem wp_initlog (hnlog : full → 0 < sb.nlog) (hcalm : g.Calm) (hg : g.phase = .booting)
    (hclean : ∀ j x, (g.link j).held = some x → x.dirty = false) :
    Spec sb full lim False t (initlog sb)
      (fun _ g' => g' = { g.setPhase .idle with on := true }) g := by
  refine wp_seq (Q := fun _ g' => ∃ l S, g' = g.setPhase (.replay l S .erased)) ?_ ?_
  · refine wp_seq (Q := fun _ g' => ∃ l S, g' = g.setPhase (.replay l S (.installing 0))) ?_ ?_
    · -- `read_head`
      refine wp_seq (wp_bread hcalm (fun h => h.elim)) ?_
      rintro i g₁ ⟨-, hi, x, hxb, hxv, hxd, rfl⟩
      refine wp_seq (wp_prim (does_load (x := x) (by simp))) ?_
      rintro d g₂ ⟨rfl, rfl⟩
      refine wp_seq (wp_prim (does_setLh_boot (x := x) (i := i) (by simp) hxv hxd hxb
        (by simpa using hg))) ?_
      rintro - g₃ ⟨S, rfl⟩
      refine wp_mono (wp_brelse (x := x) (by simp) (by simp) hxd) ?_
      rintro - g₄ rfl
      refine ⟨readHead x.data, S, ?_⟩
      simp only [Local.setLink_setPhase, Local.setLink_setLink]
      exact Local.setLink_eq_self (by simpa using hi)
    rintro - g₁ ⟨l, S, rfl⟩
    refine wp_seq (Q := fun _ g' => g' = g.setPhase (.replay l S (.installing l.length))) ?_ ?_
    · refine wp_seq (wp_prim (does_lh (l := l) (S := S) (.installing 0) (.inr rfl))) ?_
      rintro lh g₂ ⟨rfl, hlh⟩
      obtain rfl := hlh.symm
      refine wp_mono (wp_installFrom (r := true) (l := l) (S := S) (k := 0) hnlog
        (by simp [Stage.lh]) (by simp) hcalm.setPhase rfl (fun h => h.elim)) ?_
      rintro - g₃ rfl
      rfl
    rintro - g₂ rfl
    refine wp_seq (wp_prim (does_setLh_replay (l := l) (S := S) rfl)) ?_
    rintro - g₃ rfl
    refine wp_mono (wp_write_head (l := l) (S := S) (ψ := .replay l S .erased) hcalm.setPhase
      (.inr rfl) (fun h => h.elim) ?_) ?_
    · intro i g' d hx hp hph
      exact does_wipe hnlog hx hp hph rfl (readHead_putHead_nil d)
    rintro - g₄ ⟨rfl, -⟩
    exact ⟨l, S, by simp⟩
  · rintro - g₁ ⟨l, S, rfl⟩
    refine wp_mono (wp_prim (does_recovered (l := l) (S := S) rfl hclean)) ?_
    rintro - g₂ rfl
    simp

end Xv6.Block
