import Xv6.Block.Code

/-!
# The clients of the block layer

What the block layer asks of the code that calls it, as a typestate over `Local`: buffers are used
between `bread` and `brelse`, changed only inside an operation and logged before they are released,
and an operation does not nest. Under this protocol the invariant of the cache and the log holds in
every reachable state of the system of any clients, with crashes at any point.
-/

namespace Xv6.Block

open Lib Lib.Prog

variable {sb : Superblock} {full lim : Prop} {t : Slot} {g g' : Local}

/-! ### The protocol -/

/-- The process may call the block layer. -/
structure Local.Ready (g : Local) : Prop where
  calm : g.Calm
  idle : g.phase = .idle
  on : g.on

/-- All changes are logged. -/
def Local.AllLogged (g : Local) : Prop := ∀ i x, (g.link i).held = some x → x.dirty = false

/-- What a client has to know to make a call. With `full` it logs only blocks outside the log, with
`lim` no operation logs more than `MAXOPBLOCKS` blocks. -/
def allows (sb : Superblock) (full lim : Prop) (g : Local) : BlockOp → Prop
  | .bread _ => g.Ready
  | .load i => g.Ready ∧ ∃ x, (g.link i).held = some x
  | .store i _ => g.Ready ∧ g.op ≠ none ∧ ∃ x, (g.link i).held = some x
  | .log_write i => g.Ready ∧ ∃ x O, (g.link i).held = some x ∧ x.valid ∧ g.op = some O ∧
      (full → ¬ sb.InLog x.blockno ∧ x.blockno < 2 ^ 32) ∧
      (lim → (insert x.blockno O).card ≤ MAXOPBLOCKS)
  | .brelse i => g.Ready ∧ ∃ x, (g.link i).held = some x ∧ x.dirty = false
  | .begin_op => g.Ready ∧ g.op = none
  | .end_op => g.Ready ∧ g.op ≠ none ∧ g.AllLogged
  | .initlog => g.Calm ∧ g.phase = .booting ∧ g.AllLogged

/-- What a client knows when a call returns. -/
def returns (g : Local) : (o : BlockOp) → Iface.Ret o → Local → Prop
  | .bread b, i, g' => Read g b i g'
  | .load i, d, g' => g' = g ∧ ∃ x, (g.link i).held = some x ∧ d = x.data
  | .store i d, _, g' => ∃ x, (g.link i).held = some x ∧
      g' = g.setLink i ⟨some { x with data := d, dirty := true, sync := false }, none⟩
  | .log_write i, _, g' => ∃ x O, (g.link i).held = some x ∧ g.op = some O ∧
      g' = (g.setLink i ⟨some { x with dirty := false, sync := false }, none⟩).setOp
        (some (insert x.blockno O))
  | .brelse i, _, g' => g' = g.setLink i .empty
  | .begin_op, _, g' => g' = g.setOp (some ∅)
  | .end_op, _, g' => g' = g.setOp none
  | .initlog, _, g' => g' = { g.setPhase .idle with on := true }

/-- What holds while a call is executed: in `log_write` the process is in an operation that may log
the block. -/
def meanwhile (lim : Prop) (g : Local) : BlockOp → Prop
  | .log_write i => ∃ x O, (g.link i).held = some x ∧ g.op = some O ∧
      (lim → (insert x.blockno O).card ≤ MAXOPBLOCKS)
  | _ => True

/-- The protocol. -/
def protocol (sb : Superblock) (full lim : Prop) : Protocol Iface Local where
  ok o g := allows sb full lim g o
  next o g := returns g o
  during o g := meanwhile lim g o

/-- The code of the block layer meets the protocol. -/
theorem wp_impl (hnlog : full → 0 < sb.nlog) (o : BlockOp) (h : allows sb full lim g o) :
    wpWhile (sem sb) (Inv sb full lim) t (fun g => meanwhile lim g o) (impl sb o) (returns g o)
      g := by
  rw [← solo_false (t := t)]
  cases o with
  | bread b =>
    exact wpWhile_true (wp_mono (wp_bread h.calm (fun h => h.elim)) fun _ _ hread => hread.2)
  | load i =>
    obtain ⟨hready, x, hx⟩ := h
    refine wpWhile_true (wp_mono (wp_prim (does_load hx)) ?_)
    rintro d g' ⟨rfl, hd⟩
    exact ⟨rfl, x, hx, hd⟩
  | store i d =>
    obtain ⟨hready, hop, x, hx⟩ := h
    refine wpWhile_true (wp_mono (wp_prim (does_store hx (hready.calm i) (.inl hop))) ?_)
    rintro - g' rfl
    exact ⟨x, hx, rfl⟩
  | log_write i =>
    obtain ⟨hready, x, O, hx, hv, hop, hhome, hlim⟩ := h
    refine ⟨⟨x, O, hx, hop, hlim⟩, Does.mono
      (Does.solo (does_logWrite hx (hready.calm i) hv hop hhome hlim)) fun r g' hr => ?_⟩
    cases r with
    | none =>
      obtain rfl := hr
      refine ⟨⟨{ x with dirty := false, sync := false }, insert x.blockno O, ?_, rfl, ?_⟩,
        x, O, hx, hop, rfl⟩
      · simp [Local.setOp]
      · simpa using hlim
    | some msg =>
      obtain rfl := hr
      exact ⟨x, O, hx, hop, hlim⟩
  | brelse i =>
    obtain ⟨hready, x, hx, hd⟩ := h
    exact wpWhile_true (wp_brelse hx (hready.calm i) hd)
  | begin_op => exact wpWhile_true (wp_prim (does_beginOp h.2 h.1.on) (fun h => h.elim))
  | end_op => exact wpWhile_true (wp_end_op hnlog h.1.calm h.2.1 h.1.idle h.2.2)
  | initlog => exact wpWhile_true (wp_initlog hnlog h.1 h.2.1 h.2.2)

/-! ### The system -/

/-- A process between two system calls holds no buffer and is in no operation. -/
def Local.AtRest (g : Local) : Prop :=
  g.link = Local.init.link ∧ g.op = none ∧ g.phase = .idle

/-- The state in which the system is switched on: the disk is `disk`, and with its log applied it
has the content `base`. -/
def powerOn (boot : Slot) (disk base : ℕ → Data) : State :=
  State.reboot boot
    { buf := fun _ => ⟨false, 0, 0, none, 0, fun _ => 0⟩
      lru := []
      log := ⟨0, false, []⟩
      asleep := fun _ => false
      disk := disk
      hist := ⟨base, [], [], 0⟩
      prev := ⟨base, [], [], 0⟩
      book := ⟨fun _ _ => 0, fun _ => 0, fun _ => none, none⟩
      up := false }

/-- The block layer with clients. Process `boot` recovers the log; after that any process may run any
of the programs `calls`, over the block layer and over operations `xsem` of their own. The images
`image` are those the system may be switched on with. -/
def layer (sb : Superblock) (boot : Slot) (image : (ℕ → Data) → (ℕ → Data) → Prop) {X : Sig}
    {U : Type} (xsem : Sem Slot X U) (uinit : U → Prop)
    (calls : Slot → Prog (Iface.sum X) Unit → Prop) : Layer Slot State U Iface X Prim where
  impl := impl sb
  sem := sem sb
  wait := Wait
  xsem := xsem
  calls := calls
  up s := s.up
  reboot := State.reboot boot
  first t := if t = boot then .op (.inl .initlog) .ret else .ret ()
  minit m := ∃ disk base, image disk base ∧ m = powerOn boot disk base
  uinit := uinit

section sound

variable {X : Sig} {U : Type} {xsem : Sem Slot X U} {uinit : U → Prop} {boot : Slot}
  {image : (ℕ → Data) → (ℕ → Data) → Prop} {calls : Slot → Prog (Iface.sum X) Unit → Prop}

/-- The first process recovers the log, the others do nothing. -/
theorem first_follows (u : Slot) :
    (protocol sb full lim).Follows ((layer sb boot image xsem uinit calls).first u)
      (fun _ g => g.AtRest) (bootGhost boot u) := by
  by_cases hu : u = boot
  · subst hu
    have hghost : bootGhost u u = Local.off.setPhase .booting := by simp [bootGhost]
    simp only [layer, if_true, hghost]
    refine ⟨⟨fun _ => rfl, rfl, ?_⟩, ?_⟩
    · intro i x hx
      simp [Local.off] at hx
    · rintro r g' rfl
      exact ⟨rfl, rfl, rfl⟩
  · have hghost : bootGhost boot u = .off := by simp [bootGhost, hu]
    simp only [layer, if_neg hu, hghost]
    exact ⟨rfl, rfl, rfl⟩

/-- Every program that a process runs follows the protocol, and returns at rest. -/
def Disciplined (sb : Superblock) (full lim : Prop)
    (calls : Slot → Prog (Iface.sum X) Unit → Prop) : Prop :=
  ∀ t q, calls t q → (protocol sb full lim).Follows q (fun _ g => g.AtRest) .init

/-- The block layer keeps its invariant for clients that follow the protocol. -/
theorem layer_sound (hcalls : Disciplined sb full lim calls) (hnlog : full → 0 < sb.nlog)
    (himage : full → ∀ disk base, image disk base → Describes sb disk base) :
    (layer sb boot image xsem uinit calls).Sound (protocol sb full lim) (Inv sb full lim)
      Local.AtRest where
  init := by
    rintro m ⟨disk, base, himg, rfl⟩
    refine ⟨bootGhost boot, .reboot boot fun hf => ?_, first_follows⟩
    exact ⟨base, ⟨0, le_refl _, le_refl _, rfl⟩, himage hf disk base himg⟩
  crash m γ hI := ⟨bootGhost boot, .reboot boot fun hf => (hI.disk hf).describes hI.lh,
    first_follows⟩
  code t o g hok := wp_impl hnlog o hok
  wait _ _ _ _ _ hI hw := hI.wait hw
  start m γ t q hI hrest hup hq := ⟨.init, hI.start hup hrest, hcalls t q hq⟩

/-- The invariant holds in every reachable state. -/
theorem Disciplined.reach (hcalls : Disciplined sb full lim calls) (hnlog : full → 0 < sb.nlog)
    (himage : full → ∀ disk base, image disk base → Describes sb disk base)
    {s : Pool Slot State U Iface X Prim} (hr : (layer sb boot image xsem uinit calls).lts.Reach s) :
    ∃ γ, (layer sb boot image xsem uinit calls).Holds (protocol sb full lim) (Inv sb full lim)
      Local.AtRest s γ :=
  (layer_sound hcalls hnlog himage).reach hr

end sound

/-! ### Clients without operations of their own -/

/-- No operations. -/
def noOps : Sig := ⟨Empty, fun _ => Unit⟩

/-- The block layer with clients that do nothing but call it. -/
def bareLayer (sb : Superblock) (boot : Slot) (image : (ℕ → Data) → (ℕ → Data) → Prop)
    (calls : Slot → Prog (Iface.sum noOps) Unit → Prop) : Layer Slot State Unit Iface noOps Prim :=
  layer sb boot image (fun _ x _ _ _ => x.elim) (fun _ => True) calls

section bare

variable {boot : Slot} {image : (ℕ → Data) → (ℕ → Data) → Prop}
  {calls : Slot → Prog (Iface.sum noOps) Unit → Prop} {s s' : Pool Slot State Unit Iface noOps Prim}

/-- That system when it is switched on. -/
def bareOn (sb : Superblock) (boot : Slot) (image : (ℕ → Data) → (ℕ → Data) → Prop)
    (calls : Slot → Prog (Iface.sum noOps) Unit → Prop) (disk base : ℕ → Data) :
    Pool Slot State Unit Iface noOps Prim :=
  ⟨powerOn boot disk base, (), fun t => .client ((bareLayer sb boot image calls).first t)⟩

/-- The processes named by the list take one step each. -/
def bareRun (sb : Superblock) (ts : List Slot) (s : Pool Slot State Unit Iface noOps Prim) :
    Option (Pool Slot State Unit Iface noOps Prim) :=
  (bareLayer sb ⟨0, NPROC_pos⟩ (fun _ _ => True) fun _ _ => True).advances (exec sb) ts s

/-- A process at rest starts a program. -/
def bareStart (t : Slot) (q : Prog (Iface.sum noOps) Unit)
    (s : Pool Slot State Unit Iface noOps Prim) :
    Option (Pool Slot State Unit Iface noOps Prim) :=
  match s.th t with
  | .client (.ret _) =>
    if s.mem.up then some { s with th := Function.update s.th t (.client q) } else none
  | _ => none

theorem bareOn_reach {disk base : ℕ → Data} (h : image disk base) :
    (bareLayer sb boot image calls).lts.Reach (bareOn sb boot image calls disk base) :=
  .init ⟨⟨disk, base, h, rfl⟩, trivial, rfl⟩

theorem bareRun_reach {ts : List Slot} (hr : (bareLayer sb boot image calls).lts.Reach s)
    (h : bareRun sb ts s = some s') : (bareLayer sb boot image calls).lts.Reach s' :=
  Layer.Reach.advances (bareLayer sb boot image calls) (fun _ _ _ _ _ hx => hx) hr h

theorem bareStart_reach {q : Prog (Iface.sum noOps) Unit} (hq : calls t q)
    (hr : (bareLayer sb boot image calls).lts.Reach s) (h : bareStart t q s = some s') :
    (bareLayer sb boot image calls).lts.Reach s' := by
  unfold bareStart at h
  split at h <;> [skip; cases h]
  rename_i hth
  split_ifs at h with hup
  cases h
  exact hr.step (.start hth hq hup)

/-- One part of a run. -/
inductive Move
  /-- Process `t` takes `n` steps. -/
  | run (t : Slot) (n : ℕ)
  /-- Process `t` starts a program. -/
  | start (t : Slot) (q : Prog (Iface.sum noOps) Unit)
  /-- The system crashes. -/
  | crash

/-- The state after a crash. -/
def bareCrash (sb : Superblock) (boot : Slot) (s : Pool Slot State Unit Iface noOps Prim) :
    Pool Slot State Unit Iface noOps Prim :=
  ⟨s.mem.reboot boot, (), fun t =>
    .client ((bareLayer sb boot (fun _ _ => True) fun _ _ => True).first t)⟩

/-- The state after one part. -/
def bareMove (sb : Superblock) (boot : Slot) (m : Move)
    (s : Pool Slot State Unit Iface noOps Prim) : Option (Pool Slot State Unit Iface noOps Prim) :=
  match m with
  | .run t n => bareRun sb (List.replicate n t) s
  | .start t q => bareStart t q s
  | .crash => some (bareCrash sb boot s)

theorem bareMove_reach {ms : List Move} (hcalls : ∀ t q, .start t q ∈ ms → calls t q)
    (hr : (bareLayer sb boot image calls).lts.Reach s)
    (h : Lts.run (bareMove sb boot) ms s = some s') :
    (bareLayer sb boot image calls).lts.Reach s' := by
  refine Lts.run_induct hr (fun m hm s s' hr h => ?_) h
  cases m with
  | run t n => exact bareRun_reach hr h
  | start t q => exact bareStart_reach (hcalls t q hm) hr h
  | crash =>
    cases h
    exact hr.step (.crash trivial)

/-- A run from the empty disk that ends in a state with a property. -/
theorem exists_reach_of_script (sb : Superblock) (boot : Slot)
    (image : (ℕ → Data) → (ℕ → Data) → Prop)
    (calls : Slot → Prog (Iface.sum noOps) Unit → Prop) (ms : List Move)
    {P : Pool Slot State Unit Iface noOps Prim → Bool}
    (himage : image (fun _ _ => 0) fun _ _ => 0) (hcalls : ∀ t q, .start t q ∈ ms → calls t q)
    (h : (Lts.run (bareMove sb boot) ms (bareOn sb boot image calls (fun _ _ => 0) fun _ _ => 0)).any P) :
    ∃ s, (bareLayer sb boot image calls).lts.Reach s ∧ P s := by
  cases hs : Lts.run (bareMove sb boot) ms (bareOn sb boot image calls (fun _ _ => 0) fun _ _ => 0) with
  | none => simp [hs] at h
  | some s => exact ⟨s, bareMove_reach hcalls (bareOn_reach himage) hs, by simpa [hs] using h⟩

end bare

theorem readHead_zero : readHead (fun _ => 0) = [] := by decide +kernel

/-- An empty disk has an empty log. -/
theorem describes_empty (sb : Superblock) : Describes sb (fun _ _ => 0) fun _ _ => 0 :=
  ⟨[], .nil, .nil readHead_zero, fun _ _ _ => rfl⟩

/-- A small disk. Its log, from block 2 on, has one block more than `LOGSIZE`. -/
def smallSb : Superblock := ⟨200, 64, 31, 2, 33, 40⟩

/-- A client that reads one block. -/
def readBlock (b : ℕ) : Prog (Iface.sum noOps) Unit :=
  .op (.inl (.bread b)) fun i => .op (.inl (.brelse i)) .ret

theorem Local.init_ready : Local.init.Ready := ⟨fun _ => rfl, rfl, rfl⟩

theorem readBlock_follows (b : ℕ) :
    (protocol sb full lim).Follows (readBlock b) (fun _ g => g.AtRest)
      .init := by
  refine ⟨Local.init_ready, fun (i : BufRef) g hread => ?_⟩
  obtain ⟨-, x, -, -, hx, rfl⟩ := hread
  refine ⟨⟨⟨Local.init_ready.calm.setLink, rfl, rfl⟩, x, by simp, hx⟩, ?_⟩
  rintro - g rfl
  refine ⟨?_, rfl, rfl⟩
  rw [Local.setLink_setLink]
  exact congrArg Local.link (Local.setLink_eq_self rfl)

/-- Writes `d` to the blocks, and ends the operation. -/
def writeRest (d : Data) : List ℕ → Prog (Iface.sum noOps) Unit
  | [] => .op (.inl .end_op) .ret
  | b :: bs => .op (.inl (.bread b)) fun i => .op (.inl (.store i d)) fun _ =>
    .op (.inl (.log_write i)) fun _ => .op (.inl (.brelse i)) fun _ => writeRest d bs

/-- A client that writes `d` to some blocks in one operation. -/
def writeBlocks (d : Data) (bs : List ℕ) : Prog (Iface.sum noOps) Unit :=
  .op (.inl .begin_op) fun _ => writeRest d bs

theorem writeRest_follows {d : Data} {bs : List ℕ}
    (hhome : full → ∀ b ∈ bs, ¬ sb.InLog b ∧ b < 2 ^ 32) {O : Finset ℕ}
    (hcard : (O ∪ bs.toFinset).card ≤ MAXOPBLOCKS) :
    (protocol sb full lim).Follows (writeRest d bs) (fun _ g => g.AtRest)
      (Local.init.setOp (some O)) := by
  induction bs generalizing O with
  | nil =>
    refine ⟨⟨⟨fun _ => rfl, rfl, rfl⟩, by simp [Local.setOp], fun i x hx => ?_⟩, ?_⟩
    · simp [Local.setOp, Local.init] at hx
    · rintro - g rfl
      exact ⟨rfl, rfl, rfl⟩
  | cons b bs ih =>
    rw [List.toFinset_cons, Finset.union_insert, ← Finset.insert_union] at hcard
    have hins : (insert b O).card ≤ MAXOPBLOCKS :=
      (Finset.card_le_card Finset.subset_union_left).trans hcard
    refine ⟨⟨fun _ => rfl, rfl, rfl⟩, fun (i : BufRef) g hread => ?_⟩
    obtain ⟨-, x, rfl, hv, -, rfl⟩ := hread
    have hready : ∀ y : Held, ((Local.init.setOp (some O)).setLink i ⟨some y, none⟩).Ready :=
      fun y => ⟨Local.Calm.setLink fun _ => rfl, rfl, rfl⟩
    refine ⟨⟨hready x, by simp [Local.setOp], x, by simp⟩, ?_⟩
    rintro - g ⟨y, hy, rfl⟩
    obtain rfl : x = y := by simpa using hy
    rw [Local.setLink_setLink]
    refine ⟨⟨hready _, { x with data := d, dirty := true, sync := false }, O, by simp, hv, rfl,
      fun hf => hhome hf _ List.mem_cons_self, fun _ => hins⟩, ?_⟩
    rintro - g ⟨y, Q, hy, hQ, rfl⟩
    obtain rfl : { x with data := d, dirty := true, sync := false } = y := by simpa using hy
    obtain rfl : O = Q := by simpa [Local.setOp] using hQ
    refine ⟨⟨⟨Local.Calm.setLink (hready _).calm, rfl, rfl⟩,
      { x with data := d, dirty := false, sync := false }, by simp [Local.setOp], rfl⟩, ?_⟩
    rintro - g rfl
    have hlink : (Local.init.setOp (some (insert x.blockno O))).link i = .empty := rfl
    have hg := Local.setLink_eq_self hlink
    have hrest := ih (fun hf c hc => hhome hf c (List.mem_cons_of_mem _ hc))
      (O := insert x.blockno O) hcard
    rw [← hg] at hrest
    simpa [Local.setLink, Local.setOp] using hrest

theorem writeBlocks_follows {d : Data} {bs : List ℕ}
    (hhome : full → ∀ b ∈ bs, ¬ sb.InLog b ∧ b < 2 ^ 32)
    (hcard : bs.toFinset.card ≤ MAXOPBLOCKS) :
    (protocol sb full lim).Follows (writeBlocks d bs) (fun _ g => g.AtRest)
      .init := by
  refine ⟨⟨Local.init_ready, rfl⟩, ?_⟩
  rintro - g rfl
  exact writeRest_follows hhome (by simpa using hcard)

end Xv6.Block
