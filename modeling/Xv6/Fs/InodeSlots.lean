import Xv6.Fs.Clean

/-!
# The slots of the inodes on disk

Sixteen inodes share a block. `ialloc`, `iupdate` and `ilock` of any number of processes run
interleaved, one operation at a time: a call of the block layer as `Block.viewSem` describes it,
where `bread` waits for the process that holds the block, or an operation on the tables. Everything
else the kernel does to the tables may happen between any two operations.

`Safe` follows a process through the rest of its call with what it knows: the buffer it holds, the
content of its block, and how far `ialloc` has come. What each operation does to the disk is
`Effect`. A process keeps the buffer of the block from `bread` to `brelse`, so the block it writes
back differs from the one on disk in one slot only.

`inum` is an `int` in `ialloc`, so `sb.ninodes` is at most 2^31.
-/

namespace Xv6.Fs.InodeSlots

open Lib Block

/-! ### The processes -/

/-- A call. -/
inductive Call
  | ialloc (type : Fin (2 ^ 16))
  | iupdate (ip : InodeRef)
  | ilock (ip : InodeRef)

/-- The result of `ialloc` as that of a call. -/
def gives (p : Code InodeRef) : Code (Option InodeRef) := p >>= fun ip => .ret (some ip)

def Call.code (sb : Superblock) : Call → Code (Option InodeRef)
  | ialloc type => gives (Fs.ialloc sb type)
  | iupdate ip => Fs.iupdate sb ip >>= fun _ => .ret none
  | ilock ip => Fs.ilock sb ip >>= fun _ => .ret none

/-- What the processes share. -/
structure Core where
  /-- The content of every block, as most recently logged. -/
  content : ℕ → Data
  /-- The buffers each process holds. -/
  held : Slot → BufRef → Option (ℕ × Data)
  kern : Kern
  /-- The inodes that have become free since the process began its call. -/
  freed : Slot → ℕ → Prop

/-- Inode `n` on disk. -/
def Core.disk (sb : Superblock) (s : Core) : ℕ → Dinode := dinodeAt sb s.content

/-- The inodes freed after a change of the disk. -/
def Core.freedBy (sb : Superblock) (s : Core) (c : ℕ → Data) : Slot → ℕ → Prop := fun u m =>
  s.freed u m ∨ (s.disk sb m).type ≠ 0 ∧ (dinodeAt sb c m).type = 0

/-- What process `t` does by an operation. -/
def sem (sb : Superblock) : Sem Slot (Iface.sum Ops) Core
  | t, .inl o, s, r, s' => ∃ v' : Block.View, viewSem o ⟨s.content, s.held t, none, sb.logSize⟩ r v' ∧
      (∀ b, o = .bread b → ∀ u j d, s.held u j ≠ some (b, d)) ∧
      s' = ⟨v'.content, Function.update s.held t v'.held, s.kern, s.freedBy sb v'.content⟩
  | t, .inr o, s, r, s' => ∃ k', ksem t o s.kern r k' ∧ s' = { s with kern := k' }

/-- What a call has done so far: the inode it has read from the table, and whether it has written
the inode to disk or from disk. -/
structure Progress where
  seen : Option Inode
  acted : Bool

/-- The progress after an operation. -/
def Progress.after (l : Progress) : (o : (Iface.sum Ops).Op) → (Iface.sum Ops).Ret o → Progress
  | .inr (.inode _), i => { l with seen := some i }
  | .inl (.log_write _), _ | .inr (.setDinode _ _), _ => { l with acted := true }
  | _, _ => l

structure Thread where
  call : Call
  done : Progress
  rest : Code (Option InodeRef)

structure State where
  core : Core
  thread : Slot → Option Thread

/-- The fields of the inodes in memory are `short`s and `uint`s. -/
def Typed (k : Kern) : Prop := ∀ ip, (k.inode ip).din.Fits

inductive Step (sb : Superblock) (s : State) : Option Slot → State → Prop
  /-- A process that is in no call begins one. -/
  | call (t : Slot) (c : Call) :
      (s.thread t = none ∨ ∃ th r, s.thread t = some th ∧ th.rest = .ret r) →
      Step sb s none
        ⟨{ s.core with freed := Function.update s.core.freed t fun _ => False },
          Function.update s.thread t (some ⟨c, ⟨none, false⟩, c.code sb⟩)⟩
  /-- A process performs its next operation. -/
  | run {t : Slot} {c : Call} {l : Progress} {o : (Iface.sum Ops).Op}
      {k : (Iface.sum Ops).Ret o → Code (Option InodeRef)} {r : (Iface.sum Ops).Ret o} {m : Core} :
      s.thread t = some ⟨c, l, .op o k⟩ → sem sb t o s.core r m →
      Step sb s (some t) ⟨m, Function.update s.thread t (some ⟨c, l.after o r, k r⟩)⟩
  /-- Other code changes the tables. -/
  | tables (k : Kern) : Typed k → Step sb s none ⟨{ s.core with kern := k }, s.thread⟩

/-- At the start no process is in a call. -/
def system (sb : Superblock) : Lts State (Option Slot) where
  init s := (∀ t, s.thread t = none) ∧ (∀ t i, s.core.held t i = none) ∧ Typed s.core.kern
  step := Step sb

/-! ### What the operations of a call do -/

/-- What an operation of a call does to the disk and with what it finds there. -/
def Effect (sb : Superblock) (t : Slot) (c : Call) (l : Progress) (s m : Core)
    (next : Code (Option InodeRef)) : (Iface.sum Ops).Op → Prop
  | .inl (.log_write bp) =>
    match c with
    | .ialloc type => ∃ n, 1 ≤ n ∧ n < sb.ninodes ∧ (s.disk sb n).type = 0 ∧
        (∀ j, 1 ≤ j → j < n → (s.disk sb j).type ≠ 0 ∨ s.freed t j) ∧
        m.content = saveAt sb s.content n { Dinode.zero with type := type } ∧
        next = gives do { blk (.brelse bp); iget ROOTDEV n }
    | .iupdate _ => ∃ i, l.seen = some i ∧ i.din.Fits ∧
        m.content = saveAt sb s.content i.inum i.din
    | .ilock _ => False
  | .inr (.setDinode ip d) => c = .ilock ip ∧ (∃ i, l.seen = some i ∧ d = s.disk sb i.inum) ∧
      m.content = s.content
  | _ => m.content = s.content

/-- What a call has done when it returns. -/
def Done (c : Call) (l : Progress) : Prop :=
  match c with
  | .ilock _ => l.acted = true ∨ ∃ i, l.seen = some i ∧ i.valid = true
  | _ => l.acted = true

/-- What a process knows. -/
structure Know where
  /-- The buffer it holds, the block, the content of the buffer and that of the block. -/
  buf : Option (BufRef × ℕ × Data × Data)
  /-- `ialloc` has passed the inodes below. -/
  scanned : ℕ

/-- The buffers of a process that knows `g`. -/
def Know.held (g : Know) (j : BufRef) : Option (ℕ × Data) :=
  match g.buf with
  | some (i, b, d, _) => if j = i then some (b, d) else none
  | none => none

structure Inv (sb : Superblock) (s : Core) (γ : Slot → Know) : Prop where
  held : ∀ t, s.held t = (γ t).held
  /-- No block is held twice. -/
  alone : ∀ t u x y, t ≠ u → (γ t).buf = some x → (γ u).buf = some y → x.2.1 ≠ y.2.1
  base : ∀ t i b d c, (γ t).buf = some (i, b, d, c) → s.content b = c
  scan : ∀ t n, 1 ≤ n → n < (γ t).scanned → (s.disk sb n).type ≠ 0 ∨ s.freed t n
  typed : Typed s.kern

/-- From here on every operation of the call has its effect, whatever the others do in between. -/
def Safe (sb : Superblock) (t : Slot) (c : Call) :
    Code (Option InodeRef) → Progress → Know → Prop
  | .ret _, l, g => Done c l ∧ g.buf = none
  | .panic _, _, _ => True
  | .op o k, l, g => ∀ s γ, Inv sb s γ → γ t = g → ∀ r m, sem sb t o s r m →
      Effect sb t c l s m (k r) o ∧
        ∃ g', Inv sb m (Function.update γ t g') ∧ Safe sb t c (k r) (l.after o r) g'

variable {sb : Superblock} {t : Slot} {c : Call} {l : Progress} {g : Know} {s : Core}
  {γ : Slot → Know}

/-! ### One operation -/

variable {C : ℕ → Data} {n b dev : ℕ} {i : BufRef} {d x : Data} {k : Unit → Code (Option InodeRef)}
  {s' : State}

theorem Core.freedBy_of {u : Slot} (h : (s.disk sb n).type ≠ 0 ∨ s.freed u n) :
    (dinodeAt sb C n).type ≠ 0 ∨ s.freedBy sb C u n := by
  by_cases h0 : (dinodeAt sb C n).type = 0
  · exact .inr (h.elim (fun hn => .inr ⟨hn, h0⟩) .inl)
  · exact .inl h0

/-- The invariant after a step of `t` on the block it holds. -/
theorem Inv.next (h : Inv sb s γ) {H : BufRef → Option (ℕ × Data)} {g' : Know}
    (hC : ∀ u y, u ≠ t → (γ u).buf = some y → C y.2.1 = s.content y.2.1) (hH : H = g'.held)
    (hbuf : ∀ x, g'.buf = some x → C x.2.1 = x.2.2.2 ∧
      ∀ u y, u ≠ t → (γ u).buf = some y → y.2.1 ≠ x.2.1)
    (hscan : ∀ n, 1 ≤ n → n < g'.scanned → (s.disk sb n).type ≠ 0 ∨ s.freed t n) :
    Inv sb ⟨C, Function.update s.held t H, s.kern, s.freedBy sb C⟩ (Function.update γ t g') := by
  constructor
  · intro u
    by_cases hu : u = t
    · subst hu
      simpa using hH
    · simpa [hu] using h.held u
  · intro u w x y huw hx hy
    by_cases hu : u = t
    · subst hu
      rw [Function.update_of_ne huw.symm] at hy
      rw [Function.update_self] at hx
      exact ((hbuf x hx).2 w y huw.symm hy).symm
    · rw [Function.update_of_ne hu] at hx
      by_cases hw : w = t
      · subst hw
        rw [Function.update_self] at hy
        exact (hbuf y hy).2 u x hu hx
      · rw [Function.update_of_ne hw] at hy
        exact h.alone u w x y huw hx hy
  · intro u i b d x hx
    by_cases hu : u = t
    · subst hu
      rw [Function.update_self] at hx
      exact (hbuf _ hx).1
    · rw [Function.update_of_ne hu] at hx
      exact (hC u _ hu hx).trans (h.base u i b d x hx)
  · intro u n h1 hn
    by_cases hu : u = t
    · subst hu
      rw [Function.update_self] at hn
      exact Core.freedBy_of (hscan n h1 hn)
    · rw [Function.update_of_ne hu] at hn
      exact Core.freedBy_of (h.scan u n h1 hn)
  · exact h.typed

/-- The block of a process is held by no other. -/
theorem Inv.others (h : Inv sb s γ) (hx : (γ t).buf = some (i, b, d, x)) :
    ∀ u y, u ≠ t → (γ u).buf = some y → y.2.1 ≠ b :=
  fun u y hu hy => h.alone u t y _ hu hy hx

theorem Inv.held_eq (h : Inv sb s γ) (hx : (γ t).buf = some (i, b, d, x)) :
    s.held t i = some (b, d) := by
  rw [h.held t]
  simp [Know.held, hx]

/-- The buffers after one has changed. -/
theorem Know.update_held {y : Option (ℕ × Data)} {g' : Know}
    (hother : ∀ j, j ≠ i → g.held j = g'.held j) (hi : y = g'.held i) :
    Function.update g.held i y = g'.held := by
  funext j
  by_cases hj : j = i
  · subst hj
    rw [Function.update_self, hi]
  · rw [Function.update_of_ne hj, hother j hj]

theorem safe_bread {k : BufRef → Code (Option InodeRef)} (hg : g.buf = none)
    (h : ∀ i x, Safe sb t c (k i) l { g with buf := some (i, b, x, x) }) :
    Safe sb t c (.op (.inl (.bread b)) k) l g := by
  rintro s γ hI rfl (i : BufRef) m ⟨v', ⟨-, -, rfl⟩, hfree, rfl⟩
  refine ⟨rfl, { γ t with buf := some (i, b, s.content b, s.content b) },
    hI.next (fun _ _ _ _ => rfl) ?_ (fun x hx => ?_) (hI.scan t), h i (s.content b)⟩
  · show Function.update (s.held t) i _ = _
    rw [hI.held t]
    refine Know.update_held (fun j hj => ?_) ?_
    · simp [Know.held, hg, hj]
    · simp [Know.held]
  · obtain rfl := Option.some.inj hx
    refine ⟨rfl, fun u y hu hy (hyb : y.2.1 = b) => hfree b rfl u y.1 y.2.2.1 ?_⟩
    rw [← hyb]
    exact hI.held_eq hy

theorem safe_load {k : Data → Code (Option InodeRef)} (hg : g.buf = some (i, b, d, x))
    (h : Safe sb t c (k d) l g) : Safe sb t c (.op (.inl (.load i)) k) l g := by
  rintro s γ hI rfl r m ⟨v', ⟨hr, rfl⟩, -, rfl⟩
  obtain rfl : r = d := hr b d (hI.held_eq hg)
  refine ⟨rfl, _, hI.next (fun _ _ _ _ => rfl) (hI.held t) (fun y hy => ?_) (hI.scan t), h⟩
  exact ⟨hI.base t y.1 y.2.1 y.2.2.1 y.2.2.2 hy, hI.others hy⟩

theorem safe_store {d' : Data} (hg : g.buf = some (i, b, d, x))
    (h : Safe sb t c (k ()) l { g with buf := some (i, b, d', x) }) :
    Safe sb t c (.op (.inl (.store i d')) k) l g := by
  rintro s γ hI rfl r m ⟨v', rfl, -, rfl⟩
  refine ⟨rfl, { γ t with buf := some (i, b, d', x) },
    hI.next (fun _ _ _ _ => rfl) ?_ (fun y hy => ?_) (hI.scan t), h⟩
  · show Function.update (s.held t) i ((s.held t i).map _) = _
    rw [hI.held_eq hg, hI.held t]
    refine Know.update_held (fun j hj => ?_) ?_
    · simp [Know.held, hg, hj]
    · simp [Know.held]
  · obtain rfl := Option.some.inj hy
    exact ⟨hI.base t i b d x hg, hI.others hg⟩

theorem safe_log_write (hg : g.buf = some (i, b, d, x))
    (heff : ∀ s m : Core, s.content b = x → m.content = Function.update s.content b d →
      (∀ n, 1 ≤ n → n < g.scanned → (s.disk sb n).type ≠ 0 ∨ s.freed t n) →
      Effect sb t c l s m (k ()) (.inl (.log_write i)))
    (h : Safe sb t c (k ()) { l with acted := true } { g with buf := some (i, b, d, d) }) :
    Safe sb t c (.op (.inl (.log_write i)) k) l g := by
  rintro s γ hI rfl r m ⟨v', ⟨b', d', hbd, rfl⟩, -, rfl⟩
  obtain ⟨rfl, rfl⟩ := Prod.mk.inj (hbd (b, d) (hI.held_eq hg))
  refine ⟨heff s _ (hI.base t i b d x hg) rfl (hI.scan t), { γ t with buf := some (i, b, d, d) },
    hI.next (fun u y hu hy => ?_) ?_ (fun y hy => ?_) (hI.scan t), h⟩
  · exact Function.update_of_ne (hI.others hg u y hu hy) ..
  · show s.held t = _
    rw [hI.held t]
    funext j
    simp [Know.held, hg]
  · obtain rfl := Option.some.inj hy
    exact ⟨Function.update_self .., hI.others hg⟩

/-- A buffer is released with the content of its block. An inode that was found in use in it has
been passed. -/
theorem safe_brelse (hg : g.buf = some (i, b, x, x))
    (hn : ∀ j, j < n → j < g.scanned ∨ IBLOCK j sb = b ∧ (getDinode x (j % IPB)).type ≠ 0)
    (h : Safe sb t c (k ()) l ⟨none, n⟩) : Safe sb t c (.op (.inl (.brelse i)) k) l g := by
  rintro s γ hI rfl r m ⟨v', ⟨C, hC, rfl⟩, -, rfl⟩
  have hbase := hI.base t i b x x hg
  obtain rfl : C = s.content := by
    funext b'
    rcases hC b' with hb | ⟨d, hd, hb⟩
    · exact hb
    · obtain ⟨rfl, rfl⟩ := Prod.mk.inj (Option.some.inj ((hI.held_eq hg).symm.trans hd))
      exact hb.trans hbase.symm
  refine ⟨rfl, _, hI.next (fun _ _ _ _ => rfl) ?_ (fun y hy => by cases hy) (fun j h1 hj => ?_), h⟩
  · show Function.update (s.held t) i none = _
    rw [hI.held t]
    refine Know.update_held (fun j hj => ?_) ?_
    · simp [Know.held, hg, hj]
    · simp [Know.held]
  · rcases hn j hj with hold | ⟨hb, htype⟩
    · exact hI.scan t j h1 hold
    · left
      show (getDinode (s.content (IBLOCK j sb)) (j % IPB)).type ≠ 0
      rwa [hb, hbase]

theorem safe_tab {o : KernOp} {k : Ops.Ret o → Code (Option InodeRef)}
    (h : ∀ (s : Core) r k', Typed s.kern → (∀ i b d x, g.buf = some (i, b, d, x) → s.content b = x) →
      ksem t o s.kern r k' → Typed k' ∧ Effect sb t c l s { s with kern := k' } (k r) (.inr o) ∧
        Safe sb t c (k r) (l.after (.inr o) r) g) :
    Safe sb t c (.op (.inr o) k) l g := by
  rintro s γ hI rfl r m ⟨k', hk, rfl⟩
  obtain ⟨htyped, heff, hsafe⟩ := h s r k' hI.typed (hI.base t) hk
  refine ⟨heff, γ t, ?_, hsafe⟩
  rw [Function.update_eq_self]
  exact ⟨hI.held, hI.alone, hI.base, hI.scan, htyped⟩

/-! ### The calls -/

theorem Typed.setInode {k : Kern} (h : Typed k) {ip : InodeRef} {x : Inode} (hx : x.din.Fits) :
    Typed (k.setInode ip x) := by
  intro j
  by_cases hj : j = ip
  · subst hj
    simpa [Kern.setInode] using hx
  · simpa [Kern.setInode, hj] using h j

theorem Typed.iget {k k' : Kern} {r : Option InodeRef} (h : Typed k) (hk : k.iget dev n = (r, k')) :
    Typed k' := by
  unfold Kern.iget at hk
  split at hk
  · obtain ⟨-, rfl⟩ := Prod.mk.inj hk
    exact h.setInode (h _)
  · split at hk
    · obtain ⟨-, rfl⟩ := Prod.mk.inj hk
      exact h.setInode (h _)
    · obtain ⟨-, rfl⟩ := Prod.mk.inj hk
      exact h

theorem safe_iget {type : Fin (2 ^ 16)} (hl : l.acted = true) (hbuf : g.buf = none) :
    Safe sb t (.ialloc type) (gives (iget dev n)) l g := by
  refine safe_tab fun s r k' htyped _ hk => ⟨htyped.iget hk, rfl, ?_⟩
  cases r with
  | none => trivial
  | some ip => exact ⟨hl, hbuf⟩

theorem safe_iallocFrom {type : Fin (2 ^ 16)} (n inum : ℕ) (h1 : 1 ≤ inum) (hn : inum + n ≤ sb.ninodes)
    (hbuf : g.buf = none) (hscan : inum ≤ g.scanned) :
    Safe sb t (.ialloc type) (gives (iallocFrom sb type n inum)) l g := by
  induction n generalizing inum g with
  | zero => trivial
  | succ n ih =>
    refine safe_bread hbuf fun i x => safe_load rfl ?_
    show Safe sb t _ (gives (if (getDinode x (inum % IPB)).type = 0 then _ else _)) _ _
    by_cases hfree : (getDinode x (inum % IPB)).type = 0
    · rw [if_pos hfree]
      refine safe_store rfl (safe_log_write rfl (fun s m hx hm hpassed => ?_)
        (safe_brelse rfl (fun j hj => .inl hj) (safe_iget rfl rfl)))
      refine ⟨inum, h1, by omega, ?_, fun j hj hlt => hpassed j hj (lt_of_lt_of_le hlt hscan), ?_, rfl⟩
      · rwa [Core.disk, dinodeAt, hx]
      · rw [hm, saveAt, hx]
    · rw [if_neg hfree]
      refine safe_brelse (n := inum + 1) rfl (fun j hj => ?_)
        (ih (inum + 1) (by omega) (by omega) rfl le_rfl)
      rcases Nat.lt_succ_iff_lt_or_eq.mp hj with hlt | rfl
      · exact .inl (lt_of_lt_of_le hlt hscan)
      · exact .inr ⟨rfl, hfree⟩

theorem safe_iupdate (ip : InodeRef) (hbuf : g.buf = none) :
    Safe sb t (.iupdate ip) (Call.code sb (.iupdate ip)) l g := by
  refine safe_tab fun s i k' htyped _ hk => ?_
  obtain ⟨rfl, rfl⟩ := hk
  refine ⟨htyped, rfl, safe_bread hbuf fun bp x => safe_load rfl (safe_store rfl (safe_log_write rfl
    (fun s' m hx hm _ => ⟨_, rfl, htyped ip, ?_⟩) (safe_brelse rfl (fun j hj => .inl hj) ⟨rfl, rfl⟩)))⟩
  rw [hm, saveAt, hx]

theorem safe_ilock (ip : InodeRef) (hbuf : g.buf = none) :
    Safe sb t (.ilock ip) (Call.code sb (.ilock ip)) l g := by
  refine safe_tab fun s (ref : ℤ) k' htyped _ hk => ?_
  obtain ⟨-, rfl⟩ := hk
  refine ⟨htyped, rfl, ?_⟩
  show Safe sb t _ ((if ref < 1 then _ else _) >>= _) _ _
  by_cases href : ref < 1
  · rw [if_pos href]
    trivial
  rw [if_neg href]
  refine safe_tab fun s _ k' htyped _ hk => ?_
  obtain ⟨-, rfl⟩ := hk
  refine ⟨htyped.setInode (htyped ip), rfl, safe_tab fun s i k' htyped _ hk => ?_⟩
  obtain ⟨rfl, rfl⟩ := hk
  refine ⟨htyped, rfl, ?_⟩
  show Safe sb t _ (Prog.when (!(s.kern.inode ip).valid) _ >>= _) _ _
  cases hvalid : (s.kern.inode ip).valid with
  | true => exact ⟨.inr ⟨_, rfl, hvalid⟩, hbuf⟩
  | false =>
    refine safe_bread hbuf fun bp x => safe_load rfl (safe_tab fun s' _ k' htyped' hbase hk => ?_)
    obtain rfl := hk
    refine ⟨htyped'.setInode (getDinode_fits _ _), ⟨rfl, ⟨_, rfl, ?_⟩, rfl⟩, ?_⟩
    · rw [Core.disk, dinodeAt, hbase _ _ _ _ rfl]
    · refine safe_brelse rfl (fun j hj => .inl hj) (safe_tab fun s _ k' htyped _ hk => ?_)
      obtain rfl := hk
      refine ⟨htyped.setInode (htyped ip), rfl, ?_⟩
      split_ifs
      · trivial
      · exact ⟨.inl rfl, rfl⟩

/-- Every call is safe from its start. -/
theorem safe_code (c : Call) : Safe sb t c (c.code sb) ⟨none, false⟩ ⟨none, 1⟩ := by
  cases c with
  | ialloc type =>
    rcases Nat.eq_zero_or_pos sb.ninodes with h0 | hpos
    · rw [Call.code, ialloc, h0]
      trivial
    · exact safe_iallocFrom _ _ le_rfl (by omega) rfl le_rfl
  | iupdate ip => exact safe_iupdate ip rfl
  | ilock ip => exact safe_ilock ip rfl

/-! ### All processes -/

/-- A process is on a safe way, with what it knows. -/
def Fine (sb : Superblock) (t : Slot) (g : Know) : Option Thread → Prop
  | some th => Safe sb t th.call th.rest th.done g
  | none => g.buf = none

def Ok (sb : Superblock) (s : State) : Prop :=
  ∃ γ, Inv sb s.core γ ∧ ∀ t, Fine sb t (γ t) (s.thread t)

/-- A process that is in no call holds no buffer. -/
theorem Fine.idle {o : Option Thread} (h : Fine sb t g o)
    (hidle : o = none ∨ ∃ th r, o = some th ∧ th.rest = .ret r) : g.buf = none := by
  rcases hidle with rfl | ⟨⟨c, l, p⟩, r, rfl, rfl⟩
  · exact h
  · exact h.2

theorem Core.freedBy_self : s.freedBy sb s.content = s.freed := by
  funext u m
  refine propext ⟨fun h => ?_, .inl⟩
  rcases h with h | ⟨hne, h0⟩
  · exact h
  · exact absurd h0 hne

theorem Inv.begin (h : Inv sb s γ) (hbuf : (γ t).buf = none) :
    Inv sb { s with freed := Function.update s.freed t fun _ => False }
      (Function.update γ t ⟨none, 1⟩) := by
  have hheld : s.held t = Know.held ⟨none, 1⟩ := by
    rw [h.held t]
    funext j
    simp [Know.held, hbuf]
  have hnext := h.next (t := t) (C := s.content) (fun _ _ _ _ => rfl) hheld
    (fun x hx => by cases hx) (fun n h1 hn => absurd hn (Nat.not_lt.mpr h1))
  rw [Core.freedBy_self, Function.update_eq_self] at hnext
  refine ⟨hnext.held, hnext.alone, hnext.base, fun u n h1 hn => ?_, hnext.typed⟩
  by_cases hu : u = t
  · subst hu
    rw [Function.update_self] at hn
    exact absurd hn (Nat.not_lt.mpr h1)
  · show _ ∨ Function.update s.freed t _ u n
    rw [Function.update_of_ne hu]
    exact hnext.scan u n h1 hn

theorem ok_step {s : State} {t : Option Slot} (h : Ok sb s) (hs : Step sb s t s') : Ok sb s' := by
  obtain ⟨γ, hI, hth⟩ := h
  cases hs with
  | call t c hidle =>
    refine ⟨_, hI.begin ((hth t).idle hidle), fun u => ?_⟩
    by_cases hu : u = t
    · subst hu
      simpa [Fine] using safe_code c
    · simpa [hu] using hth u
  | @run t c l o k r m hthread hsem =>
    have ht := hth t
    rw [hthread] at ht
    obtain ⟨-, g', hI', hsafe⟩ := ht s.core γ hI rfl r m hsem
    refine ⟨_, hI', fun u => ?_⟩
    by_cases hu : u = t
    · subst hu
      simpa [Fine] using hsafe
    · simpa [hu] using hth u
  | tables k hk => exact ⟨γ, ⟨hI.held, hI.alone, hI.base, hI.scan, hk⟩, hth⟩

theorem ok_of_reach {s : State} (h : (system sb).Reach s) : Ok sb s := by
  refine Lts.Reach.induct (M := system sb) (I := Ok sb) (fun s h0 => ?_)
    (fun s t s' _ ih hs => ok_step ih hs) h
  obtain ⟨hnone, hheld, htyped⟩ := h0
  refine ⟨fun _ => ⟨none, 1⟩, ⟨fun t => funext (hheld t), fun t u x y _ hx => ?_,
    fun t i b d x hx => ?_, fun t n h1 hn => absurd hn (Nat.not_lt.mpr h1), htyped⟩, fun t => ?_⟩
  · cases hx
  · cases hx
  · rw [hnone t]
    rfl

/-- The bytes outside the slot of the inode that is written. -/
theorem saveAt_of_not_mem {x : Dinode} {a : Fin BSIZE}
    (h : ¬ (b = IBLOCK n sb ∧ 64 * (n % IPB) ≤ (a : ℕ) ∧ (a : ℕ) < 64 * (n % IPB) + 64)) :
    saveAt sb C n x b a = C b a := by
  unfold saveAt
  by_cases hb : b = IBLOCK n sb
  · subst hb
    rw [Function.update_self]
    show (C _).bytes.copy (64 * (n % IPB)) 64 x.bytes 0 a = _
    rw [Bytes.copy_of_not_mem fun ha => h ⟨rfl, ha⟩, bytes_of_lt a.isLt]
  · rw [Function.update_of_ne hb]

/-- A run in which every step writes no inode or another one than `n`. -/
inductive Kept (sb : Superblock) (n : ℕ) (s : State) : State → Prop
  | refl : Kept sb n s s
  | step {s₁ s₂ : State} {t : Option Slot} : Kept sb n s s₁ → Step sb s₁ t s₂ →
      (s₂.core.content = s₁.core.content ∨
        ∃ m x, m ≠ n ∧ s₂.core.content = saveAt sb s₁.core.content m x) → Kept sb n s s₂

theorem Kept.disk {s : State} (h : Kept sb n s s') : s'.core.disk sb n = s.core.disk sb n := by
  induction h with
  | refl => rfl
  | step _ _ hw ih =>
    rw [← ih]
    unfold Core.disk
    rcases hw with hw | ⟨m, x, hm, hw⟩
    · rw [hw]
    · rw [hw, dinodeAt_saveAt_of_ne (Ne.symm hm)]

theorem Kept.reach {s : State} (h : Kept sb n s s') (hs : (system sb).Reach s) :
    (system sb).Reach s' := by
  induction h with
  | refl => exact hs
  | step _ hstep _ ih => exact ih.step hstep

/-- What the next operation of a process does. -/
theorem effect_of_reach {s : State} (h : (system sb).Reach s) {t : Slot} {c : Call} {l : Progress}
    {o : (Iface.sum Ops).Op} {k : (Iface.sum Ops).Ret o → Code (Option InodeRef)}
    (ht : s.thread t = some ⟨c, l, .op o k⟩) {r : (Iface.sum Ops).Ret o} {m : Core}
    (hm : sem sb t o s.core r m) : Effect sb t c l s.core m (k r) o := by
  obtain ⟨γ, hI, hth⟩ := ok_of_reach h
  have hsafe := hth t
  rw [ht] at hsafe
  exact (hsafe s.core γ hI rfl r m hm).1

theorem Kern.iget_inum {k k' : Kern} {ip : InodeRef} (h : k.iget dev n = (some ip, k')) :
    (k'.inode ip).dev = dev ∧ (k'.inode ip).inum = n := by
  unfold Kern.iget at h
  split at h
  · rename_i i hi
    obtain ⟨hip, rfl⟩ := Prod.mk.inj h
    obtain rfl := Option.some.inj hip
    have := List.find?_some hi
    simp only [decide_eq_true_eq] at this
    simpa [Kern.setInode] using this.2
  · split at h
    · obtain ⟨hip, rfl⟩ := Prod.mk.inj h
      obtain rfl := Option.some.inj hip
      simp [Kern.setInode]
    · cases h

/-- **Inode slots are independent and keep what is written**, for any interleaving of `ialloc`,
`iupdate` and `ilock`. Every operation has its effect: `iupdate` writes the inode into its own slot;
`ialloc` takes an inode that is free, such that each smaller one is in use or has been freed since
the call began, clears and types its slot and returns it; `ilock` reads the slot. A write changes no
byte of another slot, and an inode that is not written by others is read back as it was written. -/
theorem inode_slots {s : State} (h : (system sb).Reach s) :
    (∀ t c l o k r m, s.thread t = some ⟨c, l, .op o k⟩ → sem sb t o s.core r m →
      Effect sb t c l s.core m (k r) o) ∧
    (∀ t c l r, s.thread t = some ⟨c, l, .ret r⟩ → Done c l) ∧
    (∀ k k' dev n ip, Kern.iget k dev n = (some ip, k') →
      (k'.inode ip).dev = dev ∧ (k'.inode ip).inum = n) ∧
    (∀ n x, x.Fits → dinodeAt sb (saveAt sb s.core.content n x) n = x) ∧
    (∀ n x b (a : Fin BSIZE),
      ¬ (b = IBLOCK n sb ∧ 64 * (n % IPB) ≤ (a : ℕ) ∧ (a : ℕ) < 64 * (n % IPB) + 64) →
      saveAt sb s.core.content n x b a = s.core.content b a) ∧
    ∀ n s', Kept sb n s s' → ∀ t ip l i d k,
      s'.thread t = some ⟨.ilock ip, l, .op (.inr (.setDinode ip d)) k⟩ → l.seen = some i →
      i.inum = n → d = s.core.disk sb n := by
  refine ⟨fun t c l o k r m ht hm => effect_of_reach h ht hm, fun t c l r ht => ?_,
    fun k k' dev n ip hk => Kern.iget_inum hk, fun n x hx => dinodeAt_saveAt_self hx,
    fun n x b a ha => saveAt_of_not_mem ha, fun n s' hkept t ip l i d k ht hseen hn => ?_⟩
  · obtain ⟨γ, -, hth⟩ := ok_of_reach h
    have hsafe := hth t
    rw [ht] at hsafe
    exact hsafe.1
  · obtain ⟨-, ⟨j, hj, hd⟩, -⟩ := effect_of_reach (hkept.reach h) ht
      (r := ()) (m := { s'.core with kern := _ }) ⟨_, rfl, rfl⟩
    obtain rfl : i = j := Option.some.inj (hseen.symm.trans hj)
    rw [hd, hn, hkept.disk]

/-! ### An inode that is freed behind `ialloc` -/

/-- One buffer of a process changes. -/
def Core.hold (s : Core) (t : Slot) (i : BufRef) (x : Option (ℕ × Data)) : Core :=
  { s with held := Function.update s.held t (Function.update (s.held t) i x) }

theorem sem_bread (i : BufRef) (h : ∀ u j, s.held u j = none) :
    sem sb t (.inl (.bread b)) s i (s.hold t i (some (b, s.content b))) :=
  ⟨_, ⟨h t i, fun j d hj => by simp [h t j] at hj, rfl⟩, fun _ _ u j d hj => by simp [h u j] at hj,
    congrArg _ Core.freedBy_self.symm⟩

theorem sem_load (h : s.held t i = some (b, d)) : sem sb t (.inl (.load i)) s d s := by
  refine ⟨_, ⟨fun b' d' h' => ?_, rfl⟩, nofun, ?_⟩
  · exact (Prod.mk.inj (Option.some.inj (h.symm.trans h'))).2
  · show s = ⟨s.content, Function.update s.held t (s.held t), s.kern, s.freedBy sb s.content⟩
    rw [Function.update_eq_self, Core.freedBy_self]

theorem sem_store {d' : Data} (h : s.held t i = some (b, d)) :
    sem sb t (.inl (.store i d')) s () (s.hold t i (some (b, d'))) := by
  refine ⟨_, rfl, nofun, ?_⟩
  show s.hold t i _ = ⟨_, Function.update s.held t (Function.update (s.held t) i
    ((s.held t i).map _)), _, s.freedBy sb s.content⟩
  rw [h, Core.freedBy_self]
  rfl

theorem sem_log_write (h : s.held t i = some (b, d)) :
    sem sb t (.inl (.log_write i)) s () { s with
      content := Function.update s.content b d
      freed := s.freedBy sb (Function.update s.content b d) } := by
  refine ⟨_, ⟨b, d, fun x hx => Option.some.inj (hx.symm.trans h), rfl⟩, nofun, ?_⟩
  show _ = Core.mk _ (Function.update s.held t (s.held t)) _ _
  rw [Function.update_eq_self]

theorem sem_brelse : sem sb t (.inl (.brelse i)) s () (s.hold t i none) :=
  ⟨_, ⟨s.content, fun _ => .inl rfl, rfl⟩, nofun, congrArg _ Core.freedBy_self.symm⟩

/-- Operations of one process, one after the other. -/
inductive Solo (sb : Superblock) (t : Slot) (q : Code (Option InodeRef)) (l' : Progress) (s' : Core) :
    Code (Option InodeRef) → Progress → Core → Prop
  | refl : Solo sb t q l' s' q l' s'
  | step {o : (Iface.sum Ops).Op} {k : (Iface.sum Ops).Ret o → Code (Option InodeRef)}
      {r : (Iface.sum Ops).Ret o} {l : Progress} {s m : Core} : sem sb t o s r m →
      Solo sb t q l' s' (k r) (l.after o r) m → Solo sb t q l' s' (.op o k) l s

theorem Solo.reach {p q : Code (Option InodeRef)} {l' : Progress} {s' : Core}
    {T : Slot → Option Thread} (h : Solo sb t q l' s' p l s) (hs : (system sb).Reach ⟨s, T⟩)
    (ht : T t = some ⟨c, l, p⟩) :
    ∃ T', (system sb).Reach ⟨s', T'⟩ ∧ T' t = some ⟨c, l', q⟩ ∧ ∀ u, u ≠ t → T' u = T u := by
  induction h generalizing T with
  | refl => exact ⟨T, hs, ht, fun _ _ => rfl⟩
  | step hm _ ih =>
    obtain ⟨T', hT', htT', hother⟩ := ih (hs.step (Step.run ht hm)) (Function.update_self ..)
    exact ⟨T', hT', htT', fun u hu => (hother u hu).trans (Function.update_of_ne hu ..)⟩

theorem Core.hold_none (h : ∀ u j, s.held u j = none) {x : Option (ℕ × Data)} :
    ∀ u j, ((s.hold t i x).hold t i none).held u j = none := by
  intro u j
  by_cases hu : u = t
  · subst hu
    by_cases hj : j = i
    · subst hj
      simp [Core.hold]
    · simp [Core.hold, hj, h]
  · simp [Core.hold, hu, h]

theorem Core.hold_self {x : Option (ℕ × Data)} : (s.hold t i x).held t i = x := by
  simp [Core.hold]

/-- The first buffer of the cache. -/
abbrev buf : BufRef := ⟨0, NBUF_pos⟩

theorem solo_pass (type : Fin (2 ^ 16)) {inum : ℕ} (h : ∀ u j, s.held u j = none)
    (hused : (s.disk sb inum).type ≠ 0) :
    ∃ s', Solo sb t (gives (iallocFrom sb type n (inum + 1))) l s'
        (gives (iallocFrom sb type (n + 1) inum)) l s ∧
      s'.content = s.content ∧ s'.kern = s.kern ∧ ∀ u j, s'.held u j = none := by
  refine ⟨(s.hold t buf (some (IBLOCK inum sb, s.content (IBLOCK inum sb)))).hold t buf none,
    .step (sem_bread buf h) (.step (sem_load Core.hold_self) ?_), rfl, rfl, Core.hold_none h⟩
  show Solo _ _ _ _ _ (gives (if (s.disk sb inum).type = 0 then _ else _)) _ _
  rw [if_neg hused]
  exact .step sem_brelse .refl

theorem solo_take (type : Fin (2 ^ 16)) {inum : ℕ} (h : ∀ u j, s.held u j = none)
    (hfree : (s.disk sb inum).type = 0) :
    ∃ s' m k, Solo sb t (.op (.inl (.log_write buf)) k) l s'
        (gives (iallocFrom sb type (n + 1) inum)) l s ∧ s'.content = s.content ∧
      sem sb t (.inl (.log_write buf)) s' () m ∧
      m.content = saveAt sb s.content inum { Dinode.zero with type := type } := by
  refine ⟨(s.hold t buf (some (IBLOCK inum sb, s.content (IBLOCK inum sb)))).hold t buf
    (some (IBLOCK inum sb, putDinode (s.content (IBLOCK inum sb)) (inum % IPB) _)), _,
    fun _ => gives do { blk (.brelse buf); iget ROOTDEV inum },
    .step (sem_bread buf h) (.step (sem_load Core.hold_self) ?_), rfl,
    sem_log_write Core.hold_self, rfl⟩
  show Solo _ _ _ _ _ (gives (if (s.disk sb inum).type = 0 then _ else _)) _ _
  rw [if_pos hfree]
  exact .step (sem_store Core.hold_self) .refl

theorem solo_iupdate (sb : Superblock) (ip : InodeRef) (h : ∀ u j, s.held u j = none) :
    ∃ l' s', Solo sb t (.ret none) l' s' (Call.code sb (.iupdate ip)) l s ∧
      s'.content = saveAt sb s.content (s.kern.inode ip).inum (s.kern.inode ip).din ∧
      ∀ u j, s'.held u j = none := by
  refine ⟨_, _, .step (o := .inr (.inode ip)) (r := s.kern.inode ip) ⟨s.kern, ⟨rfl, rfl⟩, rfl⟩
    (.step (sem_bread buf h) (.step (sem_load Core.hold_self) (.step (sem_store Core.hold_self)
    (.step (sem_log_write Core.hold_self) (.step sem_brelse .refl))))), rfl, fun u j => ?_⟩
  by_cases hu : u = t
  · subst hu
    by_cases hj : j = buf
    · subst hj
      simp [Core.hold]
    · simp [Core.hold, hj, h]
  · simp [Core.hold, hu, h]

/-- A disk on which inode 1 is in use, and tables in which its copy has the type 0. -/
def busyCore : Core where
  content := saveAt smallSb (fun _ _ => 0) 1 (blankDinode T_FILE)
  held _ _ := none
  kern := { smallKern with inode := fun _ => ⟨ROOTDEV, 1, 1, none, true, Dinode.zero⟩ }
  freed _ _ := False

theorem zero_fits : Dinode.zero.Fits :=
  ⟨Nat.two_pow_pos 16, Nat.two_pow_pos 16, Nat.two_pow_pos 16, Nat.two_pow_pos 16, Nat.two_pow_pos 32,
    fun _ => Nat.two_pow_pos 32⟩

/-- One process is in `ialloc` and has passed inode 1, another frees that inode, and the first takes
inode 2. -/
theorem exists_freed_behind : ∃ s m l k, ∃ t : Slot, (system smallSb).Reach s ∧
    s.thread t = some ⟨.ialloc 1, l, .op (.inl (.log_write buf)) k⟩ ∧
    sem smallSb t (.inl (.log_write buf)) s.core () m ∧
    m.content = saveAt smallSb s.core.content 2 { Dinode.zero with type := 1 } ∧
    (s.core.disk smallSb 1).type = 0 := by
  let t : Slot := ⟨0, by decide⟩
  let u : Slot := ⟨1, by decide⟩
  have hut : u ≠ t := by decide
  have h0 : (system smallSb).Reach ⟨busyCore, fun _ => none⟩ :=
    .init ⟨fun _ => rfl, fun _ _ => rfl, fun _ => zero_fits⟩
  have h1 := h0.step (Step.call t (.ialloc 1) (.inl rfl))
  have hused : (dinodeAt smallSb busyCore.content 1).type ≠ 0 := by
    rw [busyCore, dinodeAt_saveAt_self (blankDinode_fits (by decide))]
    decide
  obtain ⟨s₂, hpass, hc2, hk2, hheld2⟩ := solo_pass (t := t) (n := 62) (l := ⟨none, false⟩)
    (s := { busyCore with freed := Function.update busyCore.freed t fun _ => False }) 1
    (fun _ _ => rfl) hused
  obtain ⟨T₂, h2, ht2, hother2⟩ := hpass.reach h1 (Function.update_self ..)
  have hu2 : T₂ u = none := (hother2 u hut).trans (Function.update_of_ne hut ..)
  have h3 := h2.step (Step.call u (.iupdate ⟨0, by decide⟩) (.inl hu2))
  obtain ⟨l₄, s₄, hsolo, hcontent, hheld⟩ := solo_iupdate (t := u) (l := ⟨none, false⟩)
    (s := { s₂ with freed := Function.update s₂.freed u fun _ => False }) smallSb ⟨0, by decide⟩ hheld2
  obtain ⟨T₄, h4, -, hother4⟩ := hsolo.reach h3 (Function.update_self ..)
  have ht4 := (hother4 t hut.symm).trans ((Function.update_of_ne hut.symm ..).trans ht2)
  replace hcontent : s₄.content = saveAt smallSb busyCore.content 1 Dinode.zero := by
    rw [hcontent, hc2, hk2]
    rfl
  have hfree : (s₄.disk smallSb 2).type = 0 := by
    rw [Core.disk, hcontent, dinodeAt_saveAt_of_ne (by decide), busyCore,
      dinodeAt_saveAt_of_ne (by decide)]
    exact Bytes.load_zero fun x _ _ => by simp [Data.bytes]
  obtain ⟨s₅, m, k, htake, hsame, hm, hmc⟩ := solo_take (t := t) (n := 61)
    (l := ⟨none, false⟩) 1 hheld hfree
  obtain ⟨T₅, h5, ht5, -⟩ := htake.reach h4 ht4
  refine ⟨_, m, _, k, t, h5, ht5, hm, by rw [hmc, ← hsame]; rfl, ?_⟩
  rw [Core.disk, hsame, hcontent, dinodeAt_saveAt_self zero_fits]
  rfl

/-- The inode that `ialloc` takes need not be the smallest free one. -/
theorem ialloc_not_smallest : ¬ ∀ s m l k t n, (system smallSb).Reach s →
    s.thread t = some ⟨.ialloc 1, l, .op (.inl (.log_write buf)) k⟩ →
    sem smallSb t (.inl (.log_write buf)) s.core () m →
    m.content = saveAt smallSb s.core.content n { Dinode.zero with type := 1 } →
    ∀ j, 1 ≤ j → j < n → (s.core.disk smallSb j).type ≠ 0 := by
  intro hall
  obtain ⟨s, m, l, k, t, hs, ht, hm, hmc, h0⟩ := exists_freed_behind
  exact hall s m l k t 2 hs ht hm hmc 1 le_rfl (by decide) h0

/-- The same run: what `ialloc` does when it takes inode 2. -/
theorem inode_slots_freed_behind : ∃ s m l k, ∃ t : Slot, (system smallSb).Reach s ∧
    Effect smallSb t (.ialloc 1) l s.core m k (.inl (.log_write buf)) := by
  obtain ⟨s, m, l, k, t, hs, ht, hm, -⟩ := exists_freed_behind
  exact ⟨s, m, l, k (), t, hs, (inode_slots hs).1 t _ l _ k () m ht hm⟩

end Xv6.Fs.InodeSlots
