import Xv6.Block.View
import Xv6.Fs.Syscalls
import Xv6.Lib.Runs

/-!
# The file system as one process sees it

Above the block layer a process sees the content of the blocks, the buffers it holds, the blocks it has
logged in its transaction, and the tables. `vsem` says what an operation does to that view while no
other process runs, and `vfails` where it panics: the block operations are those of `Xv6.Block.View`. A
change that is not logged before the buffer is released is seen by the next reader, as long as the buffer
is cached.

The memory of the process is what `copyin` reads and `copyout` writes. A page that is not mapped ends the
copy: the bytes before it have been copied.

`Runs` is the logic: every run of the code returns with the postcondition or panics with a message that
is allowed in that state, and if asked for, no run waits for ever. A block operation may also find the log
or the cache full. `Fits` is the logic without that exception; `Xv6.Fs.Room` leads from `Runs` to `Fits`.
-/

namespace Xv6.Fs

open Lib Block

/-- What a process sees of the file system. -/
structure View extends Block.View where
  kern : Kern

namespace View

/-- The process holds block `b` in buffer `i`, which contains `d`. -/
@[simps -fullyApplied content op kern]
def hold (v : View) (i : BufRef) (b : ℕ) (d : Data) : View :=
  { v with held := Function.update v.held i (some (b, d)) }

/-- The process does not hold buffer `i`. -/
@[simps -fullyApplied content op kern]
def release (v : View) (i : BufRef) : View := { v with held := Function.update v.held i none }

/-- Another content of block `b`. -/
@[simps -fullyApplied]
def setContent (v : View) (b : ℕ) (d : Data) : View :=
  { v with content := Function.update v.content b d }

/-- `d` has been logged for block `b`. -/
@[simps -fullyApplied]
def log (v : View) (b : ℕ) (d : Data) : View :=
  { v with content := Function.update v.content b d, op := v.op.map (insert b) }

/-- A transaction starts or ends. -/
@[simps -fullyApplied]
def setOp (v : View) (o : Option (Finset ℕ)) : View := { v with op := o }

/-- Other tables. -/
def setKern (v : View) (k : Kern) : View := { v with kern := k }

/-- Block `b` can be read: the process does not hold it, and there is a buffer. -/
structure Clear (v : View) (b : ℕ) : Prop where
  room : ∃ i, v.held i = none
  other : ∀ j d, v.held j ≠ some (b, d)

/-- The process holds no buffer. -/
def Idle (v : View) : Prop := ∀ i, v.held i = none

theorem Idle.clear {v : View} (h : v.Idle) (b : ℕ) : v.Clear b :=
  ⟨⟨⟨0, by decide⟩, h _⟩, fun j d hj => by simp [h j] at hj⟩

variable (v : View) (i j : BufRef) (b b' : ℕ) (d d' : Data) (k k' : Kern)

@[simp] theorem hold_held : (v.hold i b d).held i = some (b, d) := by simp [hold]

@[simp] theorem setKern_kern : (v.setKern k).kern = k := rfl

@[simp] theorem setKern_content : (v.setKern k).content = v.content := rfl

@[simp] theorem setKern_op : (v.setKern k).op = v.op := rfl

@[simp] theorem setKern_held : (v.setKern k).held = v.held := rfl

@[simp] theorem setKern_setKern : (v.setKern k).setKern k' = v.setKern k' := rfl

@[simp] theorem setKern_self : v.setKern v.kern = v := rfl

@[simp] theorem setKern_hold : (v.hold i b d).setKern k = (v.setKern k).hold i b d := rfl

@[simp] theorem setKern_log : (v.setKern k).log b d = (v.log b d).setKern k := rfl

@[simp] theorem hold_hold : (v.hold i b d).hold i b' d' = v.hold i b' d' := by simp [hold]

@[simp] theorem setContent_hold :
    (v.hold i b d).setContent b' d' = (v.setContent b' d').hold i b d := rfl

@[simp] theorem hold_log : (v.hold i b d).log b' d' = (v.log b' d').hold i b d := rfl

variable {v i b b' d d' k}

/-- Giving back a buffer that was not held before. -/
theorem hold_release (h : v.held i = none) : (v.hold i b d).release i = v := by
  have hheld : Function.update v.held i none = v.held := by rw [← h, Function.update_eq_self]
  simp [hold, release, hheld]

theorem Clear.log (h : v.Clear b') : (v.log b d).Clear b' := ⟨h.room, h.other⟩

theorem Idle.log (h : v.Idle) : (v.log b d).Idle := h

/-- One buffer is held, and another block is read. -/
theorem Idle.clear_hold (h : v.Idle) (hne : b' ≠ b) : (v.hold i b d).Clear b' := by
  constructor
  · have hi : ∃ j : BufRef, j ≠ i := by
      by_cases h0 : i = ⟨0, by decide⟩
      · exact ⟨⟨1, by decide⟩, by rw [h0]; decide⟩
      · exact ⟨⟨0, by decide⟩, fun he => h0 he.symm⟩
    obtain ⟨j, hj⟩ := hi
    exact ⟨j, by simp [hold, hj, h j]⟩
  · intro j d' hj
    by_cases hji : j = i
    · subst hji
      rw [hold_held] at hj
      exact hne (congrArg Prod.fst (Option.some.inj hj)).symm
    · simp [hold, hji, h j] at hj

end View

/-! ### What an operation does -/

/-- The bytes that a copy of `n` bytes at address `a` gets: those before the first invalid address. -/
def validBytes (user : ℕ → Option UInt8) (a : ℕ) : ℕ → List UInt8
  | 0 => []
  | n + 1 =>
    match user a with
    | none => []
    | some x => x :: validBytes user (a + 1) n

theorem length_validBytes_le (user : ℕ → Option UInt8) (a n : ℕ) :
    (validBytes user a n).length ≤ n := by
  induction n generalizing a with
  | zero => exact le_refl 0
  | succ n ih =>
    unfold validBytes
    cases user a with
    | none => exact Nat.zero_le _
    | some x => exact Nat.succ_le_succ (ih (a + 1))

/-- A process that calls the kernel. -/
structure Caller where
  slot : Slot
  /-- Its memory: the bytes at the valid addresses. -/
  user : ℕ → Option UInt8
  /-- `walkaddr` fails from `MAXVA` on. -/
  low : ∀ a, MAXVA ≤ a → user a = none

/-- The bytes of `l` that a copy to address `a` delivers: those before the first invalid address. -/
def delivered (user : ℕ → Option UInt8) (a : ℕ) (l : List UInt8) : List UInt8 :=
  l.take (validBytes user a l.length).length

/-- What the memory of the process says about the result of an operation.
Source: `vm.c` `copyin`, `copyout`. -/
def Caller.Gives (c : Caller) : (o : KernOp) → Ops.Ret o → Prop
  | .copyin a n, r =>
    r.1 = validBytes c.user a n ∧ r.2 = decide ((validBytes c.user a n).length = n)
  | .copyout a l, r => r.1 = delivered c.user a l ∧ r.2 = decide (delivered c.user a l = l)
  | _, _ => True

/-- What was changed in a buffer can be read after it has been released. -/
def View.Keeps (v v' : View) : BlockOp → Prop
  | .brelse i => ∀ b d, v.held i = some (b, d) → v'.content b = d
  | _ => True

/-- What an operation does while no other process runs. -/
def vsem (c : Caller) : (o : (Iface.sum Ops).Op) → View → (Iface.sum Ops).Ret o → View → Prop
  | .inl o, v, r, v' => (∀ msg, ¬ viewFails o v.toView msg) ∧ viewSem o v.toView r v'.toView ∧
      v.Keeps v' o ∧ v'.kern = v.kern
  | .inr o, v, r, v' => ksem c.slot o v.kern r v'.kern ∧ c.Gives o r ∧ v'.toView = v.toView

/-- Where an operation panics. -/
def vfails : (Iface.sum Ops).Op → View → String → Prop
  | .inl o, v, msg => viewFails o v.toView msg
  | .inr _, _, _ => False

/-- The log or the cache is full, and a block operation panics with that message. -/
def View.Full (msg : String) (v : View) : Prop :=
  v.LogFull ∧ msg = "too big a transaction" ∨ NBUF ≤ v.inUse.card ∧ msg = "bget: no buffers"

/-- Who runs, and what is said about the run. -/
structure Mode extends Caller where
  /-- Whether no run may wait for ever. -/
  live : Prop
  /-- The panics of a run, each with the state in which it may occur. -/
  panics : String → View → Prop

/-- Every run of the code from `v` returns with `Q`, or panics as `E` allows. -/
abbrev Ends {α : Type} (μ : Mode) (E : String → View → Prop) (p : Code α) (Q : α → View → Prop)
    (v : View) : Prop :=
  Prog.Ensures (vsem μ.toCaller) vfails μ.live E p Q v

/-- Every run of the code from `v` returns with `Q`, or panics as allowed. -/
abbrev Fits {α : Type} (μ : Mode) (p : Code α) (Q : α → View → Prop) (v : View) : Prop :=
  Ends μ μ.panics p Q v

/-- The same, unless the log or the cache is full. -/
abbrev Runs {α : Type} (μ : Mode) (p : Code α) (Q : α → View → Prop) (v : View) : Prop :=
  Ends μ (fun msg w => μ.panics msg w ∨ w.Full msg) p Q v

section rules

variable {α β : Type} {μ : Mode} {E : String → View → Prop} {v : View}

theorem runs_pure {a : α} {Q : α → View → Prop} (h : Q a v) : Ends μ E (pure a) Q v := h

theorem runs_panic {msg : String} {Q : α → View → Prop} (h : μ.panics msg v) :
    Runs μ (.panic msg) Q v := .inl h

theorem runs_bind {p : Code α} {f : α → Code β} {Q : β → View → Prop}
    (h : Ends μ E p (fun a v' => Ends μ E (f a) Q v') v) : Ends μ E (p >>= f) Q v := Prog.ensures_bind h

/-! ### Buffers -/

/-- A block operation, given where it panics and what it does otherwise. -/
theorem runs_blk {o : BlockOp} {Q : Iface.Ret o → View → Prop}
    (hfull : ∀ msg, viewFails o v.toView msg → E msg v)
    (hlive : ∃ r v', viewSem o v.toView r v'.toView ∧ v.Keeps v' o ∧ v'.kern = v.kern)
    (h : ∀ r w, viewSem o v.toView r w → v.Keeps ⟨w, v.kern⟩ o → Q r ⟨w, v.kern⟩) :
    Ends μ E (blk o) Q v := by
  refine ⟨fun _ => ?_, hfull, ?_⟩
  · by_cases hf : ∃ msg, viewFails o v.toView msg
    · exact .inl hf
    · obtain ⟨r, v', hv⟩ := hlive
      exact .inr ⟨r, v', fun msg hm => hf ⟨msg, hm⟩, hv⟩
  · rintro r ⟨w, k⟩ ⟨-, hw, hkeep, hk⟩
    obtain rfl : k = v.kern := hk
    exact h r w hw hkeep

variable {i : BufRef} {b a : ℕ} {d d' : Data} {f : Unit → Code α} {o : KernOp}

theorem runs_bread {Q : BufRef → View → Prop} (hc : v.Clear b)
    (h : ∀ i, v.held i = none → Q i (v.hold i b (v.content b))) : Runs μ (blk (.bread b)) Q v := by
  refine runs_blk (o := .bread b) (fun msg hf => .inr (.inr hf.2)) ?_ ?_
  · obtain ⟨i, hi⟩ := hc.room
    exact ⟨i, v.hold i b (v.content b), ⟨hi, hc.other, rfl⟩, trivial, rfl⟩
  · rintro (i : BufRef) w ⟨hi, -, rfl⟩ -
    exact h i hi

theorem runs_load {Q : Data → View → Prop} (hv : v.held i = some (b, d)) (h : Q d v) :
    Runs μ (blk (.load i)) Q v := by
  refine runs_blk (o := .load i) (fun msg hf => hf.elim) ?_ ?_
  · refine ⟨d, v, ⟨fun b' d' hb => ?_, rfl⟩, trivial, rfl⟩
    rw [hv] at hb
    exact congrArg Prod.snd (Option.some.inj hb)
  · rintro (r : Data) w ⟨hr, rfl⟩ -
    obtain rfl : r = d := hr b d hv
    exact h

variable {Q : Unit → View → Prop} {ip : InodeRef}

theorem runs_store (hv : v.held i = some (b, d)) (h : Q () (v.hold i b d')) :
    Runs μ (blk (.store i d')) Q v := by
  have hw : v.setHeld i ((v.held i).map fun x => (x.1, d')) = (v.hold i b d').toView := by
    rw [hv]
    rfl
  refine runs_blk (o := .store i d') (fun msg hf => hf.elim) ⟨(), v.hold i b d', hw.symm, trivial, rfl⟩ ?_
  rintro _ w rfl -
  rw [hw]
  exact h

theorem runs_log_write (hop : v.op ≠ none) (hv : v.held i = some (b, d)) (h : Q () (v.log b d)) :
    Runs μ (blk (.log_write i)) Q v := by
  refine runs_blk (o := .log_write i) (fun msg hf => ?_) ?_ ?_
  · rcases hf with hf | hf
    · exact .inr (.inl hf)
    · exact absurd hf.2.1 hop
  · refine ⟨(), v.log b d, ⟨b, d, fun x hx => ?_, rfl⟩, trivial, rfl⟩
    rw [hv] at hx
    exact (Option.some.inj hx).symm
  · rintro _ w ⟨b', d', hx, rfl⟩ -
    obtain ⟨rfl, rfl⟩ : b = b' ∧ d = d' := Prod.mk.inj (hx _ hv)
    exact h

/-- Gives back a buffer; what was changed in it can be read. -/
theorem runs_brelse_dirty (hv : v.held i = some (b, d)) (h : Q () ((v.setContent b d).release i)) :
    Runs μ (blk (.brelse i)) Q v := by
  have honly {b' : ℕ} {d' : Data} (hx : v.held i = some (b', d')) : b' = b ∧ d' = d := by
    rw [hv] at hx
    exact (Prod.mk.inj (Option.some.inj hx)).imp Eq.symm Eq.symm
  refine runs_blk (o := .brelse i) (fun msg hf => ?_) ?_ ?_
  · rw [viewFails, hv] at hf
    exact absurd hf.1 (Option.some_ne_none _)
  · refine ⟨(), (v.setContent b d).release i, ⟨_, fun b' => ?_, rfl⟩, fun b' d' hx => ?_, rfl⟩
    · by_cases hb : b' = b
      · subst hb
        exact .inr ⟨d, hv, Function.update_self ..⟩
      · exact .inl (Function.update_of_ne hb _ _)
    · obtain ⟨rfl, rfl⟩ := honly hx
      exact Function.update_self ..
  · rintro _ w ⟨c, hc, rfl⟩ hkeep
    obtain rfl : c = Function.update v.content b d := by
      funext b'
      by_cases hb : b' = b
      · subst hb
        rw [Function.update_self]
        exact hkeep _ d hv
      · rw [Function.update_of_ne hb]
        rcases hc b' with h' | ⟨d', hx, -⟩
        · exact h'
        · exact absurd (honly hx).1 hb
    exact h

theorem runs_brelse (hv : v.held i = some (b, v.content b)) (h : Q () (v.release i)) :
    Runs μ (blk (.brelse i)) Q v := by
  refine runs_brelse_dirty hv ?_
  rwa [View.setContent, Function.update_eq_self]

theorem runs_read {f : BufRef → Data → Code α} {Q : α → View → Prop} (hc : v.Clear b)
    (h : ∀ i, v.held i = none → Runs μ (f i (v.content b)) Q (v.hold i b (v.content b))) :
    Runs μ (do
      let bp : BufRef ← blk (.bread b)
      let d : Data ← blk (.load bp)
      f bp d) Q v :=
  runs_bind (runs_bread hc fun i hi => runs_bind (runs_load (View.hold_held ..) (h i hi)))

theorem runs_drop {Q : α → View → Prop} (hi : v.held i = none) (h : Runs μ (f ()) Q v) :
    Runs μ (blk (.brelse i) >>= f) Q (v.hold i b (v.content b)) := by
  refine runs_bind (runs_brelse (View.hold_held ..) ?_)
  rwa [View.hold_release hi]

/-- Changes a block that was read, logs it and gives it back. -/
theorem runs_write {Q : α → View → Prop} (hi : v.held i = none) (hop : v.op ≠ none)
    (h : Runs μ (f ()) Q (v.log b d')) :
    Runs μ (do
      blk (.store i d')
      blk (.log_write i)
      let x ← blk (.brelse i)
      f x) Q (v.hold i b d) := by
  refine runs_bind (runs_store (View.hold_held ..) ?_)
  rw [View.hold_hold]
  refine runs_bind (runs_log_write hop (View.hold_held ..) ?_)
  rw [View.hold_log]
  refine runs_bind (runs_brelse (b := b) ?_ ?_)
  · rw [View.hold_held, View.hold_content, View.log_content, Function.update_self]
  · rwa [View.hold_release (v := v.log b d') hi]

/-- The same, at the end of a function. -/
theorem runs_write_last (hi : v.held i = none) (hop : v.op ≠ none) (h : Q () (v.log b d')) :
    Runs μ (do
      blk (.store i d')
      blk (.log_write i)
      blk (.brelse i)) Q (v.hold i b d) := by
  refine runs_bind (runs_store (View.hold_held ..) ?_)
  rw [View.hold_hold]
  refine runs_bind (runs_log_write hop (View.hold_held ..) ?_)
  rw [View.hold_log]
  refine runs_brelse (b := b) ?_ ?_
  · rw [View.hold_held, View.hold_content, View.log_content, Function.update_self]
  · rwa [View.hold_release (v := v.log b d') hi]

theorem runs_begin_op (h : Q () (v.setOp (some ∅))) : Ends μ E (blk .begin_op) Q v := by
  refine runs_blk (o := .begin_op) (fun msg hf => hf.elim) ⟨(), v.setOp (some ∅), rfl, trivial, rfl⟩ ?_
  rintro _ w rfl -
  exact h

theorem runs_end_op (hE : ∀ msg, v.Full msg → E msg v) (h : Q () (v.setOp none)) :
    Ends μ E (blk .end_op) Q v := by
  refine runs_blk (o := .end_op) (fun msg hf => hE msg (.inr hf.2))
    ⟨(), v.setOp none, rfl, trivial, rfl⟩ ?_
  rintro _ w rfl -
  exact h

/-! ### Tables -/

theorem runs_tab {Q : Ops.Ret o → View → Prop}
    (hlive : μ.live → ∃ r k', ksem μ.slot o v.kern r k' ∧ μ.Gives o r)
    (h : ∀ r k', ksem μ.slot o v.kern r k' → μ.Gives o r → Q r (v.setKern k')) :
    Ends μ E (tab o) Q v := by
  refine ⟨fun hl => ?_, fun msg hf => hf.elim, ?_⟩
  · obtain ⟨r, k', hk, hg⟩ := hlive hl
    exact .inr ⟨r, v.setKern k', hk, hg, rfl⟩
  · rintro r ⟨w, k⟩ ⟨hk, hg, hv'⟩
    obtain rfl : w = v.toView := hv'
    exact h r k hk hg

theorem runs_tab_of {Q : Ops.Ret o → View → Prop} (r : Ops.Ret o) (k : Kern) (hg : μ.Gives o r)
    (hk : ksem μ.slot o v.kern r k) (honly : ∀ r' k', ksem μ.slot o v.kern r' k' → r' = r ∧ k' = k)
    (h : Q r (v.setKern k)) : Ends μ E (tab o) Q v := by
  refine runs_tab (fun _ => ⟨r, k, hk, hg⟩) fun r' k' hk' _ => ?_
  obtain ⟨rfl, rfl⟩ := honly r' k' hk'
  exact h

theorem runs_inode {Q : Inode → View → Prop} (h : Q (v.kern.inode ip) v) :
    Ends μ E (tab (.inode ip)) Q v :=
  runs_tab_of (o := .inode ip) (v.kern.inode ip) v.kern trivial ⟨rfl, rfl⟩ (fun _ _ h' => h') h

theorem runs_ref {Q : ℤ → View → Prop} (h : Q (v.kern.inode ip).ref v) :
    Ends μ E (tab (.ref ip)) Q v :=
  runs_tab_of (o := .ref ip) _ v.kern trivial ⟨rfl, rfl⟩ (fun _ _ h' => h') h

theorem runs_holdingsleep {Q : Bool → View → Prop}
    (h : Q (decide ((v.kern.inode ip).lock = some μ.slot)) v) :
    Ends μ E (tab (.holdingsleep ip)) Q v :=
  runs_tab_of (o := .holdingsleep ip) _ v.kern trivial ⟨rfl, rfl⟩ (fun _ _ h' => h') h

theorem runs_acquiresleep (hfree : μ.live → (v.kern.inode ip).lock = none)
    (h : (v.kern.inode ip).lock = none → Q () (v.setKern (v.kern.setInode ip
      { v.kern.inode ip with lock := some μ.slot }))) : Ends μ E (tab (.acquiresleep ip)) Q v := by
  refine runs_tab (o := .acquiresleep ip) (fun hl => ⟨(), _, ⟨hfree hl, rfl⟩, trivial⟩) ?_
  rintro - _ ⟨hnone, rfl⟩ -
  exact h hnone

theorem runs_releasesleep
    (h : Q () (v.setKern (v.kern.setInode ip { v.kern.inode ip with lock := none }))) :
    Ends μ E (tab (.releasesleep ip)) Q v :=
  runs_tab_of (o := .releasesleep ip) () _ trivial rfl (fun _ _ h' => ⟨rfl, h'⟩) h

theorem runs_setDinode {d : Dinode}
    (h : Q () (v.setKern (v.kern.setInode ip { v.kern.inode ip with din := d }))) :
    Ends μ E (tab (.setDinode ip d)) Q v :=
  runs_tab_of (o := .setDinode ip d) () _ trivial rfl (fun _ _ h' => ⟨rfl, h'⟩) h

theorem runs_setValid {x : Bool}
    (h : Q () (v.setKern (v.kern.setInode ip { v.kern.inode ip with valid := x }))) :
    Ends μ E (tab (.setValid ip x)) Q v :=
  runs_tab_of (o := .setValid ip x) () _ trivial rfl (fun _ _ h' => ⟨rfl, h'⟩) h

theorem runs_iget {dev inum : ℕ} {Q : Option InodeRef → View → Prop}
    (h : Q (v.kern.iget dev inum).1 (v.setKern (v.kern.iget dev inum).2)) :
    Ends μ E (tab (.iget dev inum)) Q v :=
  runs_tab_of (o := .iget dev inum) _ _ trivial rfl (fun _ _ h' => (Prod.ext_iff.mp h').imp
    Eq.symm Eq.symm) h

theorem runs_idup (h : Q () (v.setKern (v.kern.addRef ip 1))) : Ends μ E (tab (.idup ip)) Q v :=
  runs_tab_of (o := .idup ip) () _ trivial rfl (fun _ _ h' => ⟨rfl, h'⟩) h

theorem runs_iputFirst {Q : IputCase → View → Prop}
    (h : Q (v.kern.iputFirst μ.slot ip).1 (v.setKern (v.kern.iputFirst μ.slot ip).2)) :
    Ends μ E (tab (.iputFirst ip)) Q v :=
  runs_tab_of (o := .iputFirst ip) _ _ trivial rfl (fun _ _ h' => (Prod.ext_iff.mp h').imp
    Eq.symm Eq.symm) h

theorem runs_file {f : FileRef} {Q : File → View → Prop} (h : Q (v.kern.file f) v) :
    Ends μ E (tab (.file f)) Q v :=
  runs_tab_of (o := .file f) _ v.kern trivial ⟨rfl, rfl⟩ (fun _ _ h' => h') h

theorem runs_setOff {f : FileRef} {off : ℕ}
    (h : Q () (v.setKern (v.kern.setFile f { v.kern.file f with off := off }))) :
    Ends μ E (tab (.setOff f off)) Q v :=
  runs_tab_of (o := .setOff f off) () _ trivial rfl (fun _ _ h' => ⟨rfl, h'⟩) h

theorem runs_cwd {Q : Option InodeRef → View → Prop} (h : Q (v.kern.proc μ.slot).cwd v) :
    Ends μ E (tab .cwd) Q v :=
  runs_tab_of (o := .cwd) _ v.kern trivial ⟨rfl, rfl⟩ (fun _ _ h' => h') h

theorem runs_copyin {n : ℕ} {Q : List UInt8 × Bool → View → Prop}
    (h : Q (validBytes μ.user a n, decide ((validBytes μ.user a n).length = n)) v) :
    Ends μ E (tab (.copyin a n)) Q v := by
  refine runs_tab (o := .copyin a n) (fun _ => ⟨(_, _), v.kern,
    ⟨length_validBytes_le _ _ _, of_decide_eq_true, rfl⟩, rfl, rfl⟩) ?_
  · rintro ⟨l, ok⟩ k' ⟨-, -, rfl⟩ ⟨hl, hok⟩
    obtain rfl : l = _ := hl
    obtain rfl : ok = _ := hok
    exact h

theorem runs_copyout {l : List UInt8} {Q : List UInt8 × Bool → View → Prop}
    (h : Q (delivered μ.user a l, decide (delivered μ.user a l = l)) v) :
    Ends μ E (tab (.copyout a l)) Q v := by
  refine runs_tab (o := .copyout a l) (fun _ => ⟨(_, _), v.kern,
    ⟨List.take_prefix _ _, of_decide_eq_true, rfl⟩, rfl, rfl⟩) ?_
  rintro ⟨l', ok⟩ k' ⟨-, -, rfl⟩ ⟨hl, hok⟩
  obtain rfl : l' = _ := hl
  obtain rfl : ok = _ := hok
  exact h

end rules

end Xv6.Fs
