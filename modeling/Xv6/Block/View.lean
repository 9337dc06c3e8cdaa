import Xv6.Block.Clients

/-!
# What a process sees of the block layer

Above the cache and the log a process sees one content for every block, the buffers it holds, and the
blocks it has logged in its operation. `viewSem` says what a call does to that view, as one step.
`returns_view` ties it to the code: in any interleaving, when a call returns, the view has changed as
`viewSem` says, and what the other processes did meanwhile has changed the content of blocks only.

`viewSem` also says what happens to a change that is not logged before the buffer is released. The
next process may see it, or not; the protocol of the block layer forbids it, and the file system does
not always follow the protocol.
-/

namespace Xv6.Block

open Lib

/-- The view of a process. -/
structure View where
  /-- The content of every block, as most recently logged. -/
  content : ℕ → Data
  /-- The buffers the process holds: the block, and the content of the buffer. -/
  held : BufRef → Option (ℕ × Data)
  /-- The blocks it has logged since `begin_op`, if it has not called `end_op` since. -/
  op : Option (Finset ℕ)
  /-- `log.size`. -/
  logsize : ℤ

namespace View

/-- Changes one buffer. -/
def setHeld (v : View) (i : BufRef) (x : Option (ℕ × Data)) : View :=
  { v with held := Function.update v.held i x }

variable (v : View) (i j : BufRef) (x y : Option (ℕ × Data))

@[simp] theorem setHeld_content : (v.setHeld i x).content = v.content := rfl

@[simp] theorem setHeld_op : (v.setHeld i x).op = v.op := rfl

@[simp] theorem setHeld_self : (v.setHeld i x).held i = x := by simp [setHeld]

/-- The blocks logged in the transaction, which are pinned in the cache. -/
def logged : Finset ℕ := v.op.getD ∅

/-- The blocks in the buffers that the process holds. -/
def heldBlocks : Finset ℕ := Finset.univ.biUnion fun i => ((v.held i).map Prod.fst).toFinset

/-- The blocks whose buffers cannot be recycled. -/
def inUse : Finset ℕ := v.logged ∪ v.heldBlocks

/-- The log has no room for another `log_write`. Source: `log.c` `log_write`. -/
def LogFull : Prop := LOGSIZE ≤ v.logged.card ∨ v.logsize - 1 ≤ v.logged.card

instance : Decidable v.LogFull := inferInstanceAs (Decidable (_ ∨ _))

end View

/-- The panics of a call while no other process runs. The blocks in use are then those that the process
has logged or holds. Source: `bio.c`, `log.c`. -/
def viewFails : BlockOp → View → String → Prop
  | .bread b, v, msg => b ∉ v.inUse ∧ NBUF ≤ v.inUse.card ∧ msg = "bget: no buffers"
  | .log_write _, v, msg => v.LogFull ∧ msg = "too big a transaction" ∨
      ¬ v.LogFull ∧ v.op = none ∧ msg = "log_write outside of trans"
  | .brelse i, v, msg => v.held i = none ∧ msg = "brelse"
  -- `commit` reads blocks of the log, while all that was logged is still pinned
  | .end_op, v, msg => v.logged.Nonempty ∧ NBUF ≤ v.inUse.card ∧ msg = "bget: no buffers"
  | _, _, _ => False

/-- What a call does to the view. A process that asks for a block it holds waits for ever. -/
def viewSem : (o : BlockOp) → View → Iface.Ret o → View → Prop
  | .bread b, v, i, v' => v.held i = none ∧ (∀ j d, v.held j ≠ some (b, d)) ∧
      v' = v.setHeld i (some (b, v.content b))
  | .load i, v, r, v' => (∀ b d, v.held i = some (b, d) → r = d) ∧ v' = v
  | .store i d, v, _, v' => v' = v.setHeld i ((v.held i).map fun x => (x.1, d))
  | .log_write i, v, _, v' => ∃ b d, (∀ x, v.held i = some x → x = (b, d)) ∧
      v' = { v with content := Function.update v.content b d, op := v.op.map (insert b) }
  | .brelse i, v, _, v' =>
    ∃ c, (∀ b, c b = v.content b ∨ ∃ d, v.held i = some (b, d) ∧ c b = d) ∧
      v' = { v.setHeld i none with content := c }
  | .begin_op, v, _, v' => v' = { v with op := some ∅ }
  | .end_op, v, _, v' => v' = { v with op := none }
  | .initlog, v, _, v' => v' = v

/-! ### The view is that of the code -/

section code

variable {sb : Superblock} {lim : Prop} {m : State} {γ : Slot → Local} {t : Slot} {g₀ : Local}

/-- The content of a block; for a block of the log, that on disk. -/
def State.content (sb : Superblock) (m : State) (b : ℕ) : Data :=
  if sb.InLog b then m.disk b else m.hist.logged b

/-- The view of a process that knows `g`. -/
def viewOf (sb : Superblock) (m : State) (g : Local) : View where
  content := m.content sb
  held i := (g.link i).held.map fun x => (x.blockno, x.data)
  op := g.op
  logsize := sb.logSize

theorem Inv.pinned_home (h : Inv sb True lim m γ) :
    ∀ b ∈ (phaseOf m γ).pinned m.log.lh, ¬ sb.InLog b := by
  intro b hb
  have hdisk := h.disk trivial
  cases hφ : phaseOf m γ with
  | idle | entered =>
    rw [hφ] at hdisk hb
    exact hdisk.1.home b hb
  | commit l S st =>
    rw [hφ] at hdisk hb
    refine hdisk.2.1.home b ?_
    cases st with
    | writing k => exact hb
    | installing k | installed k => exact List.mem_of_mem_drop hb
    | clearing | erased => cases hb
  | booting | replay l S st =>
    rw [hφ] at hb
    cases hb

/-- A buffer without changes has the content of its block. -/
theorem Inv.data_eq_content (h : Inv sb True lim m γ) {i : BufRef} {x : Held}
    (hx : ((γ t).link i).held = some x) (hv : x.valid) (hd : x.dirty = false) (hup : m.up) :
    x.data = m.content sb x.blockno := by
  unfold State.content
  split
  · rename_i hlog
    exact h.data_eq_disk hx hv hd fun hP => h.pinned_home _ hP hlog
  · rename_i hlog
    exact h.data_eq_logged trivial hx hv hd hup hlog

theorem Inv.held_once (h : Inv sb True lim m γ) {i j : BufRef} {x y : Held}
    (hx : ((γ t).link i).held = some x) (hy : ((γ t).link j).held = some y)
    (hb : x.blockno = y.blockno) : i = j := by
  have hxm := h.held_ok hx
  have hym := h.held_ok hy
  exact h.cache.uniq i j x.blockno ⟨hxm.dev, hxm.blockno⟩ ⟨hym.dev, hym.blockno.trans hb.symm⟩

theorem viewOf_setLink (g : Local) (i : BufRef) (l : Link) :
    viewOf sb m (g.setLink i l) =
      (viewOf sb m g).setHeld i (l.held.map fun x => (x.blockno, x.data)) := by
  unfold viewOf View.setHeld
  congr 1
  funext j
  by_cases hj : j = i
  · subst hj
    simp
  · simp [Local.setLink_link_of_ne hj, hj]

theorem read_view {i : BufRef} {b : ℕ} (h : Inv sb True lim m γ) (hready : g₀.Ready)
    (hret : Read g₀ b i (γ t)) :
    (viewOf sb m g₀).held i = none ∧ (∀ j d, (viewOf sb m g₀).held j ≠ some (b, d)) ∧
      viewOf sb m (γ t) = (viewOf sb m g₀).setHeld i (some (b, m.content sb b)) := by
  obtain ⟨hlink, x, rfl, hv, hd, hg⟩ := hret
  have hup : m.up := h.roles.on t (by rw [hg]; exact hready.on)
  have hx : ((γ t).link i).held = some x := by rw [hg]; simp
  refine ⟨by simp [viewOf, hlink], fun j d hj => ?_, ?_⟩
  · obtain ⟨y, hy, hyb⟩ := Option.map_eq_some_iff.mp hj
    have hne : j ≠ i := by
      rintro rfl
      simp [hlink] at hy
    have hy' : ((γ t).link j).held = some y := by rwa [hg, Local.setLink_link_of_ne hne]
    exact hne (h.held_once hy' hx (congrArg Prod.fst hyb))
  · rw [hg, viewOf_setLink, Option.map_some, h.data_eq_content hx hv hd hup]

theorem logged_view {i : BufRef} {x : Held} {O : Finset ℕ} (h : Inv sb True lim m γ)
    (hready : g₀.Ready) (hx : (g₀.link i).held = some x) (hv : x.valid) (hop : g₀.op = some O)
    (hg : γ t = (g₀.setLink i ⟨some { x with dirty := false, sync := false }, none⟩).setOp
      (some (insert x.blockno O))) :
    viewOf sb m (γ t) = { viewOf sb m g₀ with
      content := Function.update (m.content sb) x.blockno x.data
      op := g₀.op.map (insert x.blockno) } := by
  have hup : m.up := h.roles.on t (by rw [hg]; exact hready.on)
  have hx' : ((γ t).link i).held = some { x with dirty := false, sync := false } := by
    rw [hg]
    simp [Local.setOp]
  have hclean := h.data_eq_content hx' hv rfl hup
  have hdata : x.data = m.content sb x.blockno := hclean
  rw [hg]
  unfold viewOf
  congr 1
  · rw [hdata, Function.update_eq_self]
  · funext j
    by_cases hj : j = i
    · subst hj
      simp [Local.setOp, hx]
    · simp [Local.setOp, Local.setLink_link_of_ne hj]
  · simp [Local.setOp, hop]

/-- **Calls of the block layer change the view in one step.** When a call returns that was made with
the knowledge `g₀`, the view is the result of `viewSem` on a view with the same buffers and the same
operation as at the time of the call. -/
theorem returns_view {o : BlockOp} {r : Iface.Ret o} (h : Inv sb True lim m γ)
    (hok : allows sb True lim g₀ o) (hret : returns g₀ o r (γ t)) :
    viewSem o (viewOf sb m g₀) r (viewOf sb m (γ t)) := by
  cases o with
  | bread b => exact read_view h hok hret
  | load i =>
    obtain ⟨hg, x, hx, rfl⟩ := hret
    refine ⟨fun b d hbd => ?_, by rw [hg]⟩
    simp only [viewOf, hx, Option.map_some, Option.some.injEq, Prod.mk.injEq] at hbd
    exact hbd.2
  | store i d =>
    obtain ⟨x, hx, hg⟩ := hret
    change viewOf sb m (γ t) = _
    rw [hg, viewOf_setLink]
    simp [viewOf, hx]
  | log_write i =>
    obtain ⟨x, O, hx, hop, hg⟩ := hret
    obtain ⟨hready, y, -, hy, hv, -⟩ := hok
    obtain rfl : x = y := by simpa [hx] using hy
    refine ⟨x.blockno, x.data, fun z hz => ?_, logged_view h hready hx hv hop hg⟩
    simpa [viewOf, hx] using hz.symm
  | brelse i =>
    refine ⟨m.content sb, fun b => .inl rfl, ?_⟩
    change γ t = g₀.setLink i .empty at hret
    rw [hret, viewOf_setLink]
    rfl
  | begin_op | end_op | initlog =>
    change viewOf sb m (γ t) = _
    rw [show γ t = _ from hret]
    rfl

end code

end Xv6.Block
