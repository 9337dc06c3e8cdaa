import Mathlib.Algebra.Order.BigOperators.Group.Finset
import Xv6.Lib.Count
import Xv6.Block.Disk

/-!
# The invariant of the buffer cache and the log

Each process has a ghost value `Local`: what it knows about the buffers it refers to, the operation
it is in, and, while it commits or recovers, how far it has come. `Cache` ties the buffers to what
the processes know of them, `Roles` says who may do what, `LhOk` and `DiskOk` describe the log in
memory and on disk in each phase of a commit.

The part `full` describes the content of the disk. It needs clients that log only blocks outside the
log. The rest holds for any blocks, and is all that the bookkeeping of the log depends on.
-/

namespace Xv6.Block

open Lib

/-! ### What a process knows -/

/-- What a process knows about a buffer whose sleep lock it holds. -/
structure Held where
  /-- The block. -/
  blockno : ℕ
  /-- `b->valid`. -/
  valid : Bool
  /-- The content. -/
  data : Data
  /-- Changed, and neither logged nor written since. -/
  dirty : Bool
  /-- Known to be the content on disk. -/
  sync : Bool

/-- The references of a process to a buffer. -/
structure Link where
  /-- It holds the sleep lock. -/
  held : Option Held
  /-- It has a reference, to this block, and no lock: on the way in or out. -/
  pend : Option ℕ

/-- No reference. -/
def Link.empty : Link := ⟨none, none⟩

/-- The number of references. -/
def Link.count (l : Link) : ℕ := l.held.isSome.toNat + l.pend.isSome.toNat

@[simp] theorem Link.empty_held : Link.empty.held = none := rfl

@[simp] theorem Link.empty_pend : Link.empty.pend = none := rfl

@[simp] theorem Link.empty_count : Link.empty.count = 0 := rfl

/-- How far the log of blocks `l` with content `S` has come. -/
inductive Stage
  /-- The first `k` log blocks are written. -/
  | writing (k : ℕ)
  /-- The header is written, and the first `k` blocks are installed. -/
  | installing (k : ℕ)
  /-- Block `k` is installed as well, but still pinned. -/
  | installed (k : ℕ)
  /-- All blocks are installed, the header is to be cleared. -/
  | clearing
  /-- The header is cleared. -/
  | erased

/-- What a process has to do with the log. -/
inductive Phase
  /-- Nothing. -/
  | idle
  /-- It has to commit, or has just done so. -/
  | entered
  /-- It is in `commit`. -/
  | commit (l : List ℕ) (S : ℕ → Data) (st : Stage)
  /-- It is to read the header. -/
  | booting
  /-- It replays the log. -/
  | replay (l : List ℕ) (S : ℕ → Data) (st : Stage)

/-- The blocks that are pinned. -/
def Stage.pinned (l : List ℕ) : Stage → List ℕ
  | writing _ => l
  | installing k | installed k => l.drop k
  | clearing | erased => []

theorem Stage.pinned_sublist (st : Stage) (l : List ℕ) : (st.pinned l).Sublist l := by
  cases st <;> simp [Stage.pinned, List.drop_sublist]

/-- The in-memory header. -/
def Stage.lh (l : List ℕ) : Stage → List ℕ
  | writing _ | installing _ | installed _ => l
  | clearing | erased => []

/-- The blocks that are pinned, if `lh` is the in-memory header. -/
def Phase.pinned (lh : List ℕ) : Phase → List ℕ
  | idle | entered => lh
  | commit l _ st => st.pinned l
  | booting | replay _ _ _ => []

/-- The log has been recovered. -/
def Phase.up : Phase → Bool
  | idle | entered | commit _ _ _ => true
  | booting | replay _ _ _ => false

/-- The ghost value of a process. -/
structure Local where
  /-- The buffers it refers to. -/
  link : BufRef → Link
  /-- The blocks logged by the operation it is in. -/
  op : Option (Finset ℕ)
  /-- What it does to the log. -/
  phase : Phase
  /-- It knows that the log has been recovered. -/
  on : Bool

namespace Local

/-- A process in user mode. -/
def init : Local := ⟨fun _ => .empty, none, .idle, true⟩

/-- A process that has not run since the last restart. -/
def off : Local := ⟨fun _ => .empty, none, .idle, false⟩

/-- Changes what is known about one buffer. -/
@[simps -fullyApplied op phase on]
def setLink (g : Local) (i : BufRef) (l : Link) : Local :=
  { g with link := Function.update g.link i l }

/-- Changes the phase. -/
@[simps -fullyApplied]
def setPhase (g : Local) (φ : Phase) : Local := { g with phase := φ }

/-- Changes the operation. -/
def setOp (g : Local) (o : Option (Finset ℕ)) : Local := { g with op := o }

/-- Between two calls. -/
def Calm (g : Local) : Prop := ∀ i, (g.link i).pend = none

variable (g : Local) (i j : BufRef) (l m : Link) (φ ψ : Phase)

@[simp] theorem setLink_link_self : (g.setLink i l).link i = l := by simp [setLink]

variable {g i j l m φ ψ}

theorem setLink_link_of_ne (h : j ≠ i) : (g.setLink i l).link j = g.link j := by
  simp [setLink, h]

@[simp] theorem setLink_setLink : (g.setLink i l).setLink i m = g.setLink i m := by
  simp [setLink]

theorem setLink_eq_self (h : g.link i = l) : g.setLink i l = g := by
  simp [setLink, ← h]

@[simp] theorem setLink_setPhase : (g.setLink i l).setPhase φ = (g.setPhase φ).setLink i l := rfl

@[simp] theorem setPhase_setPhase : (g.setPhase φ).setPhase ψ = g.setPhase ψ := rfl

theorem setPhase_eq_self (h : g.phase = φ) : g.setPhase φ = g := by
  simp [setPhase, ← h]

end Local

/-- What the processes know of buffer `i`. -/
def links (γ : Slot → Local) (i : BufRef) : Slot → Link := fun t => (γ t).link i

theorem links_update (γ : Slot → Local) (t : Slot) (g : Local) (i : BufRef) :
    links (Function.update γ t g) i = Function.update (links γ i) t (g.link i) := by
  funext u
  by_cases hu : u = t
  · subst hu
    simp [links]
  · simp [links, hu]

/-- A step of `t` that leaves what it knows of the buffer. -/
theorem links_update_same {γ : Slot → Local} {t : Slot} {g : Local} {i : BufRef}
    (h : g.link i = (γ t).link i) : links (Function.update γ t g) i = links γ i := by
  rw [links_update, h]
  exact Function.update_eq_self t (links γ i)

/-! ### Buffers -/

/-- A buffer is what its holder knows. -/
structure Matches (disk : ℕ → Data) (b : Buf) (h : Held) : Prop where
  dev : b.dev = ROOTDEV
  blockno : b.blockno = h.blockno
  valid : b.valid = h.valid
  data : b.data = h.data
  sync : h.sync → b.data = disk b.blockno ∧ h.dirty = false

/-- Nobody has changes to the buffer that are not logged. -/
def Clean (L : Slot → Link) : Prop := ∀ t h, (L t).held = some h → h.dirty = false

/-- One buffer: `P` are the pinned blocks, `S` their content. -/
structure BufOk (full : Prop) (P : List ℕ) (S disk : ℕ → Data) (b : Buf) (refs : Slot → ℕ)
    (pins : ℕ) (L : Slot → Link) : Prop where
  /-- The holder of the sleep lock knows that it is. -/
  lock : ∀ t, b.lock = some t ↔ (L t).held.isSome
  /-- It knows the buffer. -/
  held : ∀ t h, (L t).held = some h → Matches disk b h
  /-- A reference is to the block that was asked for. -/
  pend : ∀ t n, (L t).pend = some n → b.dev = ROOTDEV ∧ b.blockno = n
  /-- The recorded references are those of the processes. -/
  linked : ∀ t, refs t = (L t).count
  /-- `refcnt` counts references and pins. -/
  count : b.refcnt = ∑ t, refs t + pins
  /-- A pinned block has one pin. -/
  pin : pins = if b.dev = ROOTDEV ∧ b.blockno ∈ P then 1 else 0
  /-- What is not pinned is the content on disk. -/
  coh : b.dev = ROOTDEV → b.valid → b.blockno ∉ P → Clean L → b.data = disk b.blockno
  /-- What is pinned is the content that was logged. -/
  pinned : full → b.dev = ROOTDEV → b.blockno ∈ P → b.valid ∧ (Clean L → b.data = S b.blockno)

namespace BufOk

variable {full : Prop} {P P' : List ℕ} {S S' disk disk' : ℕ → Data} {b : Buf} {refs : Slot → ℕ}
  {pins : ℕ} {L : Slot → Link} {t : Slot}

/-- Changes that leave what is known of the content leave the buffer clean or not. -/
theorem clean_update_iff {l : Link} (h : l.held = (L t).held) :
    Clean (Function.update L t l) ↔ Clean L := by
  constructor <;> intro hc u x hx <;> refine hc u x ?_ <;> by_cases hu : u = t
  · subst hu
    simpa [h] using hx
  · simpa [hu] using hx
  · subst hu
    simpa [h] using hx
  · simpa [hu] using hx

variable (h : BufOk full P S disk b refs pins L)

include h

theorem congr
    (hsame : b.dev = ROOTDEV → (b.blockno ∈ P' ↔ b.blockno ∈ P) ∧ S' b.blockno = S b.blockno ∧ disk' b.blockno = disk b.blockno) :
    BufOk full P' S' disk' b refs pins L where
  lock := h.lock
  held u x hx := by
    have hm := h.held u x hx
    refine ⟨hm.dev, hm.blockno, hm.valid, hm.data, fun hs => ?_⟩
    rw [(hsame hm.dev).2.2]
    exact hm.sync hs
  pend := h.pend
  linked := h.linked
  count := h.count
  pin := by
    rw [h.pin]
    by_cases hd : b.dev = ROOTDEV
    · simp [hd, (hsame hd).1]
    · simp [hd]
  coh hd hv hP hc := by
    rw [(hsame hd).1] at hP
    rw [(hsame hd).2.2]
    exact h.coh hd hv hP hc
  pinned hf hd hP := by
    rw [(hsame hd).1] at hP
    rw [(hsame hd).2.1]
    exact h.pinned hf hd hP

variable {x : Held} {n : ℕ}

theorem lock_of_held (hx : (L t).held = some x) :
    b.lock = some t := (h.lock t).mpr (by simp [hx])

theorem held_none (hx : (L t).held = some x) {u : Slot} (hu : u ≠ t) : (L u).held = none := by
  by_contra hne
  have := (h.lock u).mpr (Option.isSome_iff_ne_none.mpr hne)
  rw [h.lock_of_held hx, Option.some.injEq] at this
  exact hu this.symm

/-- What the holder knows decides whether the buffer is clean. -/
theorem clean_of_held (hx : (L t).held = some x) (hd : x.dirty = false) : Clean L := by
  intro u y hy
  by_cases hu : u = t
  · subst hu
    rw [hx, Option.some.injEq] at hy
    exact hy ▸ hd
  · rw [h.held_none hx hu] at hy
    cases hy

theorem clean_of_unlocked (hl : b.lock = none) : Clean L := by
  intro u y hy
  have := h.lock_of_held hy
  rw [hl] at this
  cases this

theorem unused (h0 : b.refcnt = 0) :
    pins = 0 ∧ (∀ u, refs u = 0) ∧ ∀ u, (L u).held = none ∧ (L u).pend = none := by
  have hsum : ∑ u, refs u = 0 ∧ pins = 0 := by
    have := h.count
    omega
  have hrefs : ∀ u, refs u = 0 := fun u => Finset.sum_eq_zero_iff.mp hsum.1 u (Finset.mem_univ u)
  refine ⟨hsum.2, hrefs, fun u => ?_⟩
  have hu := h.linked u
  rw [hrefs u] at hu
  cases hheld : (L u).held <;> cases hpend : (L u).pend <;>
    simp [Link.count, hheld, hpend] at hu ⊢

/-! #### What a section does to a buffer -/

theorem set {b' : Buf} {l : Link} (hdev : b'.dev = b.dev) (hblockno : b'.blockno = b.blockno)
    (hlock : ∀ u, b'.lock = some u ↔ (Function.update L t l u).held.isSome)
    (hheld : ∀ x, l.held = some x → Matches disk b' x)
    (hother : ∀ u x, u ≠ t → (L u).held = some x → Matches disk b' x)
    (hpend : ∀ n, l.pend = some n → b.dev = ROOTDEV ∧ b.blockno = n)
    (hcount : b'.refcnt + (L t).count = b.refcnt + l.count)
    (hcoh : b.dev = ROOTDEV → b'.valid → b.blockno ∉ P → Clean (Function.update L t l) → b'.data = disk b.blockno)
    (hpinned : full → b.dev = ROOTDEV → b.blockno ∈ P → b'.valid ∧ (Clean (Function.update L t l) → b'.data = S b.blockno)) :
    BufOk full P S disk b' (Function.update refs t l.count) pins (Function.update L t l) where
  lock := hlock
  held u x hx := by
    by_cases hu : u = t
    · subst hu
      exact hheld x (by simpa using hx)
    · exact hother u x hu (by simpa [hu] using hx)
  pend u n hn := by
    rw [hdev, hblockno]
    by_cases hu : u = t
    · subst hu
      exact hpend n (by simpa using hn)
    · exact h.pend u n (by simpa [hu] using hn)
  linked u := by
    by_cases hu : u = t
    · subst hu
      simp
    · simpa [hu] using h.linked u
  count := by
    have hsum := sum_change refs (Function.update refs t l.count) t
      fun u hu => by simp [hu]
    have hold := h.count
    have hlt := h.linked t
    simp only [Function.update_self] at hsum
    omega
  pin := by rw [hdev, hblockno, h.pin]
  coh := by
    rw [hdev, hblockno]
    exact hcoh
  pinned := by
    rw [hdev, hblockno]
    exact hpinned

theorem ref (hd : b.dev = ROOTDEV) (hn : b.blockno = n) (hp : (L t).pend = none) :
    BufOk full P S disk { b with refcnt := b.refcnt + 1 } (Function.update refs t (refs t + 1)) pins
      (Function.update L t ⟨(L t).held, some n⟩) := by
  have hsame := clean_update_iff (L := L) (t := t) (l := ⟨(L t).held, some n⟩) rfl
  have hl : refs t + 1 = (⟨(L t).held, some n⟩ : Link).count := by
    simp [h.linked t, Link.count, hp]
  rw [hl]
  refine h.set rfl rfl ?_ ?_ ?_ ?_ ?_ ?_ ?_
  · intro u
    rw [h.lock u]
    by_cases hu : u = t
    · subst hu
      simp
    · simp [hu]
  · exact fun x hx => let m := h.held t x hx; ⟨m.dev, m.blockno, m.valid, m.data, m.sync⟩
  · exact fun u x _ hx => let m := h.held u x hx; ⟨m.dev, m.blockno, m.valid, m.data, m.sync⟩
  · rintro m ⟨⟩
    exact ⟨hd, hn⟩
  · rw [← hl, h.linked t]
    simp only
    omega
  · exact fun hd hv hP hc => h.coh hd hv hP (hsame.mp hc)
  · exact fun hf hd hP => ⟨(h.pinned hf hd hP).1, fun hc => (h.pinned hf hd hP).2 (hsame.mp hc)⟩

/-- `bget` recycles a buffer for a block that is not pinned. -/
theorem recycle (h0 : b.refcnt = 0) (hn : n ∉ P) :
    BufOk full P S disk { b with dev := ROOTDEV, blockno := n, valid := false, refcnt := 1 }
      (Function.update refs t 1) pins (Function.update L t ⟨none, some n⟩) := by
  obtain ⟨hpins, hrefs, hnone⟩ := h.unused h0
  have hheld : ∀ u, (Function.update L t ⟨none, some n⟩ u).held = none := by
    intro u
    by_cases hu : u = t
    · subst hu
      simp
    · simpa [hu] using (hnone u).1
  constructor
  · intro u
    rw [hheld u, h.lock u, (hnone u).1]
  · intro u x hx
    rw [hheld u] at hx
    cases hx
  · intro u m hm
    by_cases hu : u = t
    · subst hu
      simpa using hm
    · rw [Function.update_of_ne hu, (hnone u).2] at hm
      cases hm
  · intro u
    by_cases hu : u = t
    · subst hu
      simp [Link.count]
    · simp [hu, hrefs u, Link.count, hnone u]
  · have hsum := sum_change refs (Function.update refs t 1) t
      fun u hu => by simp [hu]
    have hzero : ∑ u, refs u = 0 := Finset.sum_eq_zero fun u _ => hrefs u
    simp only [Function.update_self, hrefs t] at hsum
    simp only
    omega
  · simp [hpins, hn]
  · simp
  · exact fun _ _ hP => absurd hP hn

theorem acquire (hl : b.lock = none) (hp : (L t).pend = some n) :
    BufOk full P S disk { b with lock := some t } refs pins
      (Function.update L t ⟨some ⟨n, b.valid, b.data, false, false⟩, none⟩) := by
  have hheld : ∀ u, (L u).held = none := by
    intro u
    have := (h.lock u).not.mp (by simp [hl])
    simpa using this
  obtain ⟨hd, hb⟩ := h.pend t n hp
  have hone : (L t).count = 1 := by simp [Link.count, hheld t, hp]
  have hrefs : Function.update refs t 1 = refs := by
    rw [← hone, ← h.linked t, Function.update_eq_self]
  rw [← hrefs]
  refine h.set (l := ⟨some ⟨n, b.valid, b.data, false, false⟩, none⟩) rfl rfl ?_ ?_ ?_ ?_ ?_ ?_ ?_
  · intro u
    by_cases hu : u = t
    · subst hu
      simp
    · simp [hu, hheld u, Ne.symm hu]
  · rintro x ⟨⟩
    exact ⟨hd, hb, rfl, rfl, by simp⟩
  · intro u x _ hx
    rw [hheld u] at hx
    cases hx
  · rintro m ⟨⟩
  · simp only [hone]
    rfl
  · exact fun hd hv hP _ => h.coh hd hv hP (h.clean_of_unlocked hl)
  · exact fun hf hd hP => ⟨(h.pinned hf hd hP).1,
      fun _ => (h.pinned hf hd hP).2 (h.clean_of_unlocked hl)⟩

theorem release (hx : (L t).held = some x) (hp : (L t).pend = none) (hdirty : x.dirty = false) :
    BufOk full P S disk { b with lock := none } refs pins
      (Function.update L t ⟨none, some x.blockno⟩) := by
  have hm := h.held t x hx
  have hclean := h.clean_of_held hx hdirty
  have hone : (L t).count = 1 := by simp [Link.count, hx, hp]
  have hrefs : Function.update refs t 1 = refs := by
    rw [← hone, ← h.linked t, Function.update_eq_self]
  rw [← hrefs]
  refine h.set (l := ⟨none, some x.blockno⟩) rfl rfl ?_ ?_ ?_ ?_ ?_ ?_ ?_
  · intro u
    by_cases hu : u = t
    · subst hu
      simp
    · simp [hu, h.held_none hx hu]
  · rintro y ⟨⟩
  · intro u y hu hy
    rw [h.held_none hx hu] at hy
    cases hy
  · rintro m ⟨⟩
    exact ⟨hm.dev, hm.blockno⟩
  · simp only [hone]
    rfl
  · exact fun hd hv hP _ => h.coh hd hv hP hclean
  · exact fun hf hd hP => ⟨(h.pinned hf hd hP).1, fun _ => (h.pinned hf hd hP).2 hclean⟩

theorem unref (hp : (L t).pend = some n) (hx : (L t).held = none) :
    BufOk full P S disk { b with refcnt := b.refcnt - 1 } (Function.update refs t (refs t - 1)) pins
      (Function.update L t .empty) := by
  have hone : refs t = 1 := by simp [h.linked t, Link.count, hx, hp]
  have hpos : 0 < b.refcnt := by
    have := Finset.single_le_sum (f := refs) (fun u _ => Nat.zero_le _) (Finset.mem_univ t)
    have := h.count
    omega
  have hsame := clean_update_iff (L := L) (t := t) (l := .empty) (by simp [hx])
  have hzero : refs t - 1 = Link.empty.count := by simp [hone]
  rw [hzero]
  refine h.set rfl rfl ?_ ?_ ?_ ?_ ?_ ?_ ?_
  · intro u
    rw [h.lock u]
    by_cases hu : u = t
    · subst hu
      simp [hx]
    · simp [hu]
  · rintro y ⟨⟩
  · exact fun u y _ hy => let m := h.held u y hy; ⟨m.dev, m.blockno, m.valid, m.data, m.sync⟩
  · rintro m ⟨⟩
  · rw [← h.linked t, hone]
    simp only [Link.empty_count]
    omega
  · exact fun hd hv hP hc => h.coh hd hv hP (hsame.mp hc)
  · exact fun hf hd hP => ⟨(h.pinned hf hd hP).1, fun hc => (h.pinned hf hd hP).2 (hsame.mp hc)⟩

theorem rehold {b' : Buf} {pins' : ℕ} {y : Held} (hx : (L t).held = some x) (hp : (L t).pend = none)
    (hdev : b'.dev = b.dev) (hblockno : b'.blockno = b.blockno) (hlock : b'.lock = b.lock)
    (hy : Matches disk' b' y) (hcount : b'.refcnt + pins = b.refcnt + pins')
    (hpin : pins' = if b.dev = ROOTDEV ∧ b.blockno ∈ P' then 1 else 0)
    (hcoh : b'.valid → b.blockno ∉ P' → y.dirty = false → b'.data = disk' b.blockno)
    (hpinned : full → b.blockno ∈ P' → b'.valid ∧ (y.dirty = false → b'.data = S' b.blockno)) :
    BufOk full P' S' disk' b' refs pins' (Function.update L t ⟨some y, none⟩) := by
  have hdirty : Clean (Function.update L t ⟨some y, none⟩) → y.dirty = false := fun hc =>
    hc t y (by simp)
  constructor
  · intro u
    rw [hlock, h.lock u]
    by_cases hu : u = t
    · subst hu
      simp [hx]
    · simp [hu]
  · intro u z hz
    by_cases hu : u = t
    · subst hu
      obtain rfl : y = z := by simpa using hz
      exact hy
    · rw [Function.update_of_ne hu, h.held_none hx hu] at hz
      cases hz
  · intro u m hm
    rw [hdev, hblockno]
    by_cases hu : u = t
    · subst hu
      simp at hm
    · exact h.pend u m (by simpa [hu] using hm)
  · intro u
    by_cases hu : u = t
    · subst hu
      simp [h.linked u, Link.count, hx, hp]
    · simp [hu, h.linked u]
  · have := h.count
    omega
  · rw [hdev, hblockno]
    exact hpin
  · rw [hblockno]
    exact fun _ hv hP hc => hcoh hv hP (hdirty hc)
  · rw [hblockno]
    exact fun hf _ hP => ⟨(hpinned hf hP).1, fun hc => (hpinned hf hP).2 (hdirty hc)⟩

theorem change {y : Held} {v : Bool} {d : Data} (hx : (L t).held = some x) (hp : (L t).pend = none)
    (hy : Matches disk { b with valid := v, data := d } y)
    (hcoh : v → b.blockno ∉ P → y.dirty = false → d = disk b.blockno)
    (hpinned : full → b.blockno ∈ P → v ∧ (y.dirty = false → d = S b.blockno)) :
    BufOk full P S disk { b with valid := v, data := d } refs pins
      (Function.update L t ⟨some y, none⟩) := h.rehold hx hp rfl rfl rfl hy rfl h.pin hcoh hpinned

/-- `log_write`: the content of the buffer becomes that of the block, and it is pinned. -/
theorem log (P' : List ℕ) (S' : ℕ → Data) {pins' : ℕ} (hx : (L t).held = some x)
    (hp : (L t).pend = none) (hv : x.valid) (hP : b.blockno ∈ P') (hS : S' b.blockno = b.data)
    (hpins : pins' = 1) (hn : n + pins = b.refcnt + pins') :
    BufOk full P' S' disk { b with refcnt := n } refs pins'
      (Function.update L t ⟨some { x with dirty := false, sync := false }, none⟩) := by
  have hm := h.held t x hx
  refine h.rehold hx hp rfl rfl rfl ⟨hm.dev, hm.blockno, hm.valid, hm.data, by simp⟩ hn ?_ ?_ ?_
  · simp [hpins, hm.dev, hP]
  · exact fun _ hnot => absurd hP hnot
  · exact fun _ _ => ⟨hm.valid.trans hv, fun _ => hS.symm⟩

/-- `virtio_disk_rw(b, 1)`: the block on disk becomes the content of the buffer. -/
theorem write (hx : (L t).held = some x) (hp : (L t).pend = none)
    (hS : full → b.blockno ∈ P → b.data = S b.blockno) :
    BufOk full P S (Function.update disk b.blockno b.data) b refs pins
      (Function.update L t ⟨some { x with dirty := false, sync := true }, none⟩) := by
  have hm := h.held t x hx
  refine h.rehold hx hp rfl rfl rfl ⟨hm.dev, hm.blockno, hm.valid, hm.data, by simp⟩ rfl h.pin ?_ ?_
  · simp
  · exact fun hf hP => ⟨(h.pinned hf hm.dev hP).1, fun _ => hS hf hP⟩

theorem unpin (P' : List ℕ) (hx : (L t).held = some x) (hs : x.sync) (hP : b.blockno ∈ P)
    (hP' : b.blockno ∉ P') :
    BufOk full P' S disk { b with refcnt := b.refcnt - 1 } refs (pins - 1) L := by
  have hm := h.held t x hx
  have hone : pins = 1 := by rw [h.pin, if_pos ⟨hm.dev, hP⟩]
  constructor
  · exact h.lock
  · exact fun u y hy => let m := h.held u y hy; ⟨m.dev, m.blockno, m.valid, m.data, m.sync⟩
  · exact h.pend
  · exact h.linked
  · have := h.count
    simp only
    omega
  · simp [hone, hP']
  · exact fun _ _ _ _ => (hm.sync hs).1
  · exact fun _ _ hmem => absurd hmem hP'

end BufOk

/-! ### The cache -/

namespace State

/-- Buffer `i` of the state. -/
def BufOk (full : Prop) (P : List ℕ) (s : State) (γ : Slot → Local) (i : BufRef) : Prop :=
  Block.BufOk full P s.hist.logged s.disk (s.buf i) (fun t => s.book.refs t i) (s.book.pins i)
    (links γ i)

/-- Buffer `i` caches block `b`. -/
def Caches (s : State) (i : BufRef) (b : ℕ) : Prop :=
  (s.buf i).dev = ROOTDEV ∧ (s.buf i).blockno = b

end State

/-- The buffer cache. -/
structure Cache (full : Prop) (P : List ℕ) (s : State) (γ : Slot → Local) : Prop where
  /-- Every buffer is what the processes know of it. -/
  ok : ∀ i, s.BufOk full P γ i
  /-- A block is cached once. -/
  uniq : ∀ i j b, s.Caches i b → s.Caches j b → i = j
  /-- The list has all buffers. -/
  lru : ∀ i, i ∈ s.lru
  /-- Pinned blocks are cached. -/
  cached : ∀ b ∈ P, ∃ i, s.Caches i b

namespace Cache

variable {full : Prop} {P P' : List ℕ} {s s' : State} {γ γ' : Slot → Local} {i : BufRef}

/-- A section that changes only buffer `i`. -/
theorem frame (h : Cache full P s γ) (i : BufRef)
    (hbuf : ∀ j, j ≠ i → s'.buf j = s.buf j)
    (hrefs : ∀ j, j ≠ i → ∀ t, s'.book.refs t j = s.book.refs t j)
    (hpins : ∀ j, j ≠ i → s'.book.pins j = s.book.pins j)
    (hlinks : ∀ j, j ≠ i → links γ' j = links γ j)
    (hsame : ∀ j b, j ≠ i → s.Caches j b → (b ∈ P' ↔ b ∈ P) ∧
      s'.hist.logged b = s.hist.logged b ∧ s'.disk b = s.disk b)
    (hlru : ∀ j, j ∈ s'.lru) (hok : s'.BufOk full P' γ' i)
    (hnew : ∀ b, s'.Caches i b → ∀ j, j ≠ i → ¬ s.Caches j b)
    (hcached : ∀ b ∈ P', s'.Caches i b ∨ ∃ j, j ≠ i ∧ s.Caches j b) : Cache full P' s' γ' := by
  have hcaches : ∀ j b, j ≠ i → (s'.Caches j b ↔ s.Caches j b) := by
    intro j b hj
    rw [State.Caches, State.Caches, hbuf j hj]
  refine ⟨fun j => ?_, fun j k b hj hk => ?_, hlru, fun b hb => ?_⟩
  · by_cases hj : j = i
    · exact hj ▸ hok
    · rw [State.BufOk, hbuf j hj, hpins j hj, hlinks j hj, funext (hrefs j hj)]
      exact (h.ok j).congr fun hd => hsame j _ hj ⟨hd, rfl⟩
  · by_cases hji : j = i <;> by_cases hki : k = i
    · rw [hji, hki]
    · subst hji
      exact absurd ((hcaches k b hki).mp hk) (hnew b hj k hki)
    · subst hki
      exact absurd ((hcaches j b hji).mp hj) (hnew b hk j hji)
    · exact h.uniq j k b ((hcaches j b hji).mp hj) ((hcaches k b hki).mp hk)
  · obtain hi | ⟨j, hj, hjb⟩ := hcached b hb
    · exact ⟨i, hi⟩
    · exact ⟨j, (hcaches j b hj).mpr hjb⟩

/-- The same when the buffer keeps its block. -/
theorem frame_same (h : Cache full P s γ) (i : BufRef)
    (hbuf : ∀ j, j ≠ i → s'.buf j = s.buf j)
    (hrefs : ∀ j, j ≠ i → ∀ t, s'.book.refs t j = s.book.refs t j)
    (hpins : ∀ j, j ≠ i → s'.book.pins j = s.book.pins j)
    (hlinks : ∀ j, j ≠ i → links γ' j = links γ j)
    (hhist : s'.hist = s.hist) (hdisk : s'.disk = s.disk) (hlru : ∀ j, j ∈ s'.lru)
    (hdev : (s'.buf i).dev = (s.buf i).dev) (hblockno : (s'.buf i).blockno = (s.buf i).blockno)
    (hok : s'.BufOk full P γ' i) : Cache full P s' γ' := by
  have hi : ∀ b, s'.Caches i b ↔ s.Caches i b := by
    intro b
    rw [State.Caches, State.Caches, hdev, hblockno]
  refine h.frame i hbuf hrefs hpins hlinks (fun j b _ _ => ?_) hlru hok (fun b hb j hj hjb => ?_)
    fun b hb => ?_
  · rw [hhist, hdisk]
    exact ⟨Iff.rfl, rfl, rfl⟩
  · exact hj (h.uniq j i b hjb ((hi b).mp hb))
  · obtain ⟨j, hj⟩ := h.cached b hb
    by_cases hji : j = i
    · exact .inl ((hi b).mpr (hji ▸ hj))
    · exact .inr ⟨j, hji, hj⟩

theorem quiet (h : Cache full P s γ) (hbuf : s'.buf = s.buf) (hlru : s'.lru = s.lru)
    (hrefs : s'.book.refs = s.book.refs) (hpins : s'.book.pins = s.book.pins)
    (hlinks : ∀ i, links γ' i = links γ i) (hP : ∀ b, b ∈ P' ↔ b ∈ P)
    (hlogged : s'.hist.logged = s.hist.logged) (hdisk : s'.disk = s.disk) :
    Cache full P' s' γ' := by
  refine ⟨fun i => ?_, ?_, ?_, fun b hb => ?_⟩
  · rw [State.BufOk, hbuf, hrefs, hpins, hlinks, hlogged, hdisk]
    exact (h.ok i).congr fun _ => ⟨hP _, rfl, rfl⟩
  · simpa [State.Caches, hbuf] using h.uniq
  · simpa [hlru] using h.lru
  · obtain ⟨i, hi⟩ := h.cached b ((hP b).mp hb)
    exact ⟨i, by simpa [State.Caches, hbuf] using hi⟩

end Cache

/-! ### Who does what -/

/-- The phase the log is in. -/
def phaseOf (s : State) (γ : Slot → Local) : Phase :=
  match s.book.busy with
  | none => .idle
  | some t => (γ t).phase

/-- Who may do what. -/
structure Roles (s : State) (γ : Slot → Local) : Prop where
  /-- A process knows its operation. -/
  op : ∀ t, (γ t).op = s.book.ops t
  /-- Only one process has to do with the log as a whole. -/
  idle : ∀ t, s.book.busy ≠ some t → (γ t).phase = .idle
  /-- That process knows it. -/
  busy : ∀ t, s.book.busy = some t → (γ t).phase ≠ .idle
  /-- Meanwhile no operation is outstanding. -/
  alone : s.book.busy ≠ none → ∀ t, s.book.ops t = none
  /-- `log.outstanding` counts the operations. -/
  outstanding : s.log.outstanding = ∑ t, (s.book.ops t).isSome.toNat
  /-- `log.committing` is set from the end of the last operation to the end of the commit. -/
  committing : s.log.committing = (s.book.busy.isSome && s.up)
  /-- A process sleeps only as long as it cannot start. -/
  asleep : ∀ t, s.asleep t → s.up ∧ s.admits = false
  /-- The phases before and after the recovery of the log. -/
  up : s.up = (phaseOf s γ).up
  /-- Processes run only after it. -/
  on : ∀ t, (γ t).on → s.up
  /-- Buffers are changed in operations, or by the process that owns the log. -/
  writer : ∀ t i x, ((γ t).link i).held = some x → x.dirty →
    (s.book.ops t).isSome ∨ s.book.busy = some t

/-- The in-memory header, and the blocks that were logged since the last commit. -/
def LhOk (lh : List ℕ) (h : Hist) : Phase → Prop
  | .idle | .entered => lh.Nodup ∧ (∀ w ∈ h.cur, w.1 ∈ lh) ∧ h.done = h.groups.length
  | .commit l _ st => l.Nodup ∧ lh = st.lh l ∧ h.cur = [] ∧ h.groups.length = h.done + 1
  | .booting => lh = []
  | .replay l _ st => lh = st.lh l

/-- The part of its allowance that an operation has not used. -/
def unused : Option (Finset ℕ) → ℕ
  | none => 0
  | some S => MAXOPBLOCKS - S.card

@[simp] theorem unused_none : unused none = 0 := rfl

@[simp] theorem unused_some (S : Finset ℕ) : unused (some S) = MAXOPBLOCKS - S.card := rfl

/-- The space in the log. `lim` says that no operation logs more blocks than it may. -/
structure Budget (lim : Prop) (s : State) : Prop where
  /-- What an operation has logged is in the header. -/
  mem : ∀ t S, s.book.ops t = some S → ∀ b ∈ S, b ∈ s.log.lh
  /-- No operation logs too much. -/
  card : lim → ∀ t S, s.book.ops t = some S → S.card ≤ MAXOPBLOCKS
  /-- There is room for what the operations have not logged yet. -/
  room : lim → s.up → s.log.lh.length + ∑ t, unused (s.book.ops t) ≤ LOGSIZE

/-! ### The disk -/

section

variable (sb : Superblock)

/-- The disk in the middle of a commit or a replay of the blocks `l` with content `S`, over a disk
with content `B`. -/
def StageOk (disk : ℕ → Data) (B : ℕ → Data) (l : List ℕ) (S : ℕ → Data) : Stage → Prop
  | .writing k => readHead (disk sb.logstart) = [] ∧ HomeOff sb disk [] B ∧
      (∀ b, ¬ sb.InLog b → b ∉ l → B b = S b) ∧
      ∀ i (hi : i < l.length), i < k → disk (sb.logstart + i + 1) = S l[i]
  | .installing k => LogHolds sb disk l S ∧ HomeOff sb disk (l.drop k) S
  | .installed k => LogHolds sb disk l S ∧ HomeOff sb disk (l.drop (k + 1)) S
  | .clearing => LogHolds sb disk l S ∧ HomeOff sb disk [] S
  | .erased => readHead (disk sb.logstart) = [] ∧ HomeOff sb disk [] S

/-- The content after some prefix of the groups that has all those whose commit has returned. -/
def Hist.Target (h : Hist) (S : ℕ → Data) : Prop :=
  ∃ k, h.done ≤ k ∧ k ≤ h.groups.length ∧ S = h.content k

/-- The disk after recovery: outside the log it has the content of such a prefix. -/
def Past (prev : Hist) (base : ℕ → Data) : Prop :=
  ∃ k, prev.done ≤ k ∧ k ≤ prev.groups.length ∧ ∀ b, ¬ sb.InLog b → base b = prev.content k b

/-- The log on disk is well formed, and the disk with the log applied has the content `S`. -/
def Describes (disk : ℕ → Data) (S : ℕ → Data) : Prop :=
  ∃ l, ListOk sb l ∧ LogHolds sb disk l S ∧ HomeOff sb disk l S

/-- The disk in each phase. -/
def DiskOk (s : State) : Phase → Prop
  | .idle | .entered => ListOk sb s.log.lh ∧ readHead (s.disk sb.logstart) = [] ∧
      HomeOff sb s.disk [] (s.hist.content s.hist.done)
  | .commit l S st => S = s.hist.logged ∧ ListOk sb l ∧
      StageOk sb s.disk (s.hist.content s.hist.done) l S st
  | .booting => ∃ S, s.hist.Target S ∧ Describes sb s.disk S
  | .replay l S st => s.hist.Target S ∧ ListOk sb l ∧ (∀ k, st ≠ .writing k) ∧
      StageOk sb s.disk S l S st

end

/-- The invariant. -/
structure Inv (sb : Superblock) (full lim : Prop) (s : State) (γ : Slot → Local) : Prop where
  cache : Cache full ((phaseOf s γ).pinned s.log.lh) s γ
  roles : Roles s γ
  lh : LhOk s.log.lh s.hist (phaseOf s γ)
  budget : Budget lim s
  disk : full → DiskOk sb s (phaseOf s γ)
  past : full → s.up → Past sb s.prev s.hist.base

end Xv6.Block
