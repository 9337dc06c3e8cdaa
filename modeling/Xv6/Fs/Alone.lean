import Xv6.Fs.Clean

/-!
# One process, down to the disk

While no other process runs, the kernel is a program that can be executed: the file system calls the
block layer, and the block layer works on the cache, the log and the disk. `alone` executes it, and `vexec`
executes it on the view, where it is one of the runs that the logic is about. What the file system does not
decide is chosen: nothing goes through pipes and devices.
-/

namespace Xv6.Fs

open Lib Block

/-- One operation on the tables, executed; none where the process would wait. -/
def kexec (c : Caller) : (o : KernOp) → Kern → Option (Ops.Ret o × Kern)
  | .iget dev inum, k => some (k.iget dev inum)
  | .idup ip, k => some ((), k.addRef ip 1)
  | .ref ip, k => some ((k.inode ip).ref, k)
  | .acquiresleep ip, k =>
    if (k.inode ip).lock = none then
      some ((), k.setInode ip { k.inode ip with lock := some c.slot })
    else none
  | .holdingsleep ip, k => some (decide ((k.inode ip).lock = some c.slot), k)
  | .releasesleep ip, k => some ((), k.setInode ip { k.inode ip with lock := none })
  | .inode ip, k => some (k.inode ip, k)
  | .setDinode ip d, k => some ((), k.setInode ip { k.inode ip with din := d })
  | .setValid ip v, k => some ((), k.setInode ip { k.inode ip with valid := v })
  | .iputFirst ip, k => some (k.iputFirst c.slot ip)
  | .iputLast ip, k => some ((), k.addRef ip (-1))
  | .file f, k => some (k.file f, k)
  | .setOff f off, k => some ((), k.setFile f { k.file f with off := off })
  | .cwd, k => some ((k.proc c.slot).cwd, k)
  | .copyin a n, k =>
    some ((validBytes c.user a n, decide ((validBytes c.user a n).length = n)), k)
  | .copyout a l, k => some ((delivered c.user a l, decide (delivered c.user a l = l)), k)
  | .transfer _ _, k => some ((-1 : ℤ), k)

/-- What is executed is one of the things that the operation may do. -/
theorem kexec_sound {c : Caller} {o : KernOp} {k k' : Kern} {r : Ops.Ret o}
    (h : kexec c o k = some (r, k')) : ksem c.slot o k r k' ∧ c.Gives o r := by
  cases o with
  | acquiresleep _ =>
    simp only [kexec] at h
    split at h
    · cases h
      exact ⟨⟨‹_›, rfl⟩, trivial⟩
    · cases h
  | copyin a n =>
    cases h
    exact ⟨⟨length_validBytes_le _ _ _, of_decide_eq_true, rfl⟩, rfl, rfl⟩
  | copyout a l =>
    cases h
    exact ⟨⟨List.take_prefix _ _, of_decide_eq_true, rfl⟩, rfl, rfl⟩
  | transfer f n =>
    cases h
    exact ⟨⟨.inl rfl, rfl⟩, trivial⟩
  | iget _ _ | iputFirst _ =>
    exact ⟨Option.some.inj h, trivial⟩
  | ref _ | holdingsleep _ | inode _ | file _ | cwd =>
    cases h
    exact ⟨⟨rfl, rfl⟩, trivial⟩
  | idup _ | releasesleep _ | setDinode _ _ | setValid _ _ | iputLast _ | setOff _ _ =>
    cases h
    exact ⟨rfl, trivial⟩

/-- One block operation on the view, executed; none where it panics or the process would wait. -/
def bexec : (o : BlockOp) → View → Option (Iface.Ret o × View)
  | .bread b, v =>
    if b ∈ v.heldBlocks ∨ b ∉ v.inUse ∧ NBUF ≤ v.inUse.card then none
    else ((List.finRange NBUF).find? fun i => (v.held i).isNone).map fun i => (i, v.hold i b (v.content b))
  | .load i, v => (v.held i).map fun x => (x.2, v)
  | .store i d, v => (v.held i).map fun x => ((), v.hold i x.1 d)
  | .log_write i, v =>
    if v.LogFull ∨ v.op = none then none else (v.held i).map fun x => ((), v.log x.1 x.2)
  | .brelse i, v => (v.held i).map fun x => ((), (v.setContent x.1 x.2).release i)
  | .begin_op, v => some ((), v.setOp (some ∅))
  | .end_op, v =>
    if v.logged.Nonempty ∧ NBUF ≤ v.inUse.card then none else some ((), v.setOp none)
  | .initlog, v => some ((), v)

/-- One operation on the view, executed. -/
def vexec (c : Caller) : (o : (Iface.sum Ops).Op) → View → Option ((Iface.sum Ops).Ret o × View)
  | .inl o, v => bexec o v
  | .inr o, v => (kexec c o v.kern).map fun x => (x.1, v.setKern x.2)

theorem bexec_sound {c : Caller} {o : BlockOp} {v v' : View} {r : Iface.Ret o}
    (h : bexec o v = some (r, v')) : vsem c (.inl o) v r v' := by
  cases o with
  | bread b =>
    simp only [bexec] at h
    split_ifs at h with hno
    rw [not_or] at hno
    obtain ⟨i, hi, h⟩ := Option.map_eq_some_iff.mp h
    cases h
    refine ⟨fun msg hf => hno.2 ⟨hf.1, hf.2.1⟩, ⟨by simpa using List.find?_some hi, fun j d hj => ?_, rfl⟩,
      trivial, rfl⟩
    exact hno.1 (by simpa [Block.View.heldBlocks] using ⟨j, d, hj⟩)
  | load i =>
    obtain ⟨x, hx, h⟩ := Option.map_eq_some_iff.mp h
    cases h
    refine ⟨fun msg => id, ⟨fun b d hb => ?_, rfl⟩, trivial, rfl⟩
    rw [hx] at hb
    exact congrArg Prod.snd (Option.some.inj hb)
  | store i d =>
    obtain ⟨x, hx, h⟩ := Option.map_eq_some_iff.mp h
    cases h
    refine ⟨fun msg => id, ?_, trivial, rfl⟩
    change (v.hold i x.1 d).toView = v.setHeld i ((v.held i).map fun x => (x.1, d))
    rw [hx]
    rfl
  | log_write i =>
    simp only [bexec] at h
    split_ifs at h with hno
    rw [not_or] at hno
    obtain ⟨x, hx, h⟩ := Option.map_eq_some_iff.mp h
    cases h
    refine ⟨fun msg hf => hf.elim (fun hf => hno.1 hf.1) fun hf => hno.2 hf.2.1,
      ⟨x.1, x.2, fun y hy => ?_, rfl⟩, trivial, rfl⟩
    rw [hx] at hy
    exact (Option.some.inj hy).symm
  | brelse i =>
    obtain ⟨x, hx, h⟩ := Option.map_eq_some_iff.mp h
    cases h
    refine ⟨fun msg hf => ?_, ⟨Function.update v.content x.1 x.2, fun b => ?_, rfl⟩, fun b d hb => ?_, rfl⟩
    · rw [viewFails, hx] at hf
      cases hf.1
    · by_cases hb : b = x.1
      · exact .inr ⟨x.2, by rw [hx, hb], by rw [hb, Function.update_self]⟩
      · exact .inl (Function.update_of_ne hb _ _)
    · rw [hx] at hb
      cases hb
      exact Function.update_self ..
  | begin_op | initlog =>
    cases h
    exact ⟨fun msg => id, rfl, trivial, rfl⟩
  | end_op =>
    simp only [bexec] at h
    split_ifs at h with hno
    cases h
    exact ⟨fun msg hf => hno ⟨hf.1, hf.2.1⟩, rfl, trivial, rfl⟩

/-- What is executed is one of the runs that the logic is about. -/
theorem vexec_sound {c : Caller} (o : (Iface.sum Ops).Op) (v : View) (r : (Iface.sum Ops).Ret o)
    (v' : View) (h : vexec c o v = some (r, v')) : vsem c o v r v' := by
  cases o with
  | inl o => exact bexec_sound h
  | inr o =>
    obtain ⟨x, hx, h⟩ := Option.map_eq_some_iff.mp h
    cases h
    exact ⟨(kexec_sound hx).1, (kexec_sound hx).2, rfl⟩

/-- One call of the block layer, or one operation on the tables. -/
def alone (sb : Superblock) (c : Caller) :
    (o : (Iface.sum Ops).Op) → State × Kern → Option ((Iface.sum Ops).Ret o × (State × Kern))
  | .inl o, s =>
    match (impl sb o).run (Block.exec sb c.slot) s.1 with
    | .returned r m => some (r, (m, s.2))
    | _ => none
  | .inr o, s => (kexec c o s.2).map fun x => (x.1, (s.1, x.2))

/-- The block layer after the log has been recovered: nothing is cached. -/
def freshState (disk : ℕ → Data) : State where
  buf _ := ⟨false, 0, 0, none, 0, fun _ => 0⟩
  lru := (List.finRange NBUF).reverse
  log := ⟨0, false, []⟩
  asleep _ := false
  disk := disk
  hist := ⟨disk, [], [], 0⟩
  prev := ⟨disk, [], [], 0⟩
  book := ⟨fun _ _ => 0, fun _ => 0, fun _ => none, none⟩
  up := true

/-- The run returns, with `P`. -/
def Returns {α σ : Type} (P : α → σ → Prop) : Prog.Outcome α σ → Prop
  | .returned a s => P a s
  | _ => False

instance {α σ : Type} {P : α → σ → Prop} [∀ a s, Decidable (P a s)] (o : Prog.Outcome α σ) :
    Decidable (Returns P o) :=
  match o with
  | .returned a s => inferInstanceAs (Decidable (P a s))
  | .panicked _ _ => inferInstanceAs (Decidable False)
  | .blocked _ => inferInstanceAs (Decidable False)

theorem Returns.exists {α σ : Type} {P : α → σ → Prop} {o : Prog.Outcome α σ} (h : Returns P o) :
    ∃ a s, o = .returned a s ∧ P a s := by
  cases o with
  | returned a s => exact ⟨a, s, rfl, h⟩
  | panicked msg s => cases h
  | blocked s => cases h

theorem Returns.eq {α σ : Type} {a : α} {o : Prog.Outcome α σ} (h : Returns (fun b _ => b = a) o) :
    ∃ s, o = .returned a s := by
  obtain ⟨b, s, ho, rfl⟩ := h.exists
  exact ⟨s, ho⟩

end Xv6.Fs
