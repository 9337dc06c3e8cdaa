import Xv6.User.Blocks

/-!
# `malloc` and `free`

`Ready` is what holds of the heap between two calls. For each function of `umalloc.c` one lemma says that
its loops end, if they are given enough turns, and what it makes of a heap that is ready. `free` finds the
node behind which a block belongs, wherever it starts; `malloc` goes around the list once, asks for more
if no block is large enough, and then finds one on its second time around.
-/

namespace Xv6.User

open Lib

variable {lim lo base p bp x y : ℕ} {s s' : Heap} {l live : List ℕ}

/-- The heap between two calls, with the free blocks `l` and the blocks `live` in use, all of them above
`lo`, in memory that ends at `lim` at most. -/
structure Ready (lim lo base : ℕ) (s : Heap) (l live : List ℕ) : Prop where
  list : FreeList lo base s.hdr l live s.brk s.units
  brk : s.brk ≤ lim ∧ lim ≤ MAXBRK
  above : lo ≤ s.brk
  freep : ∃ p ∈ base :: l, s.freep = some p

variable {q m nunits : ℕ}

theorem Ready.freep_mem (h : Ready lim lo base s l live) (hq : s.freep = some q) : q ∈ base :: l := by
  obtain ⟨p, hp, hfreep⟩ := h.freep
  rwa [← Option.some.inj (hfreep.symm.trans hq)]

/-- The successor of a node. -/
abbrev nextOf (hdr : ℕ → Header) : ℕ → ℕ := fun a => (hdr a).ptr

/-! ### `free` -/

/-- The loop of `free` stops here. -/
def StopsAt (hdr : ℕ → Header) (bp p : ℕ) : Prop :=
  bp > p ∧ bp < (hdr p).ptr ∨ p ≥ (hdr p).ptr ∧ (bp > p ∨ bp < (hdr p).ptr)

/-- The loop goes from node to node until it stops. -/
theorem findPlace_eq {hdr : ℕ → Header} {k : ℕ} (hstop : StopsAt hdr bp ((nextOf hdr)^[k] p))
    (hgo : ∀ j < k, ¬ StopsAt hdr bp ((nextOf hdr)^[j] p)) {fuel : ℕ} (hfuel : k < fuel) :
    findPlace hdr bp fuel p = some ((nextOf hdr)^[k] p) := by
  induction k generalizing p fuel with
  | zero =>
    obtain ⟨m, rfl⟩ : ∃ m, fuel = m + 1 := ⟨fuel - 1, by omega⟩
    have hstop' : StopsAt hdr bp p := hstop
    unfold StopsAt at hstop'
    rw [findPlace]
    split_ifs with h₁ h₂
    · rfl
    · rfl
    · exact absurd hstop' (not_or.mpr ⟨h₁, h₂⟩)
  | succ k ih =>
    obtain ⟨m, rfl⟩ : ∃ m, fuel = m + 1 := ⟨fuel - 1, by omega⟩
    have hgo' : ¬ StopsAt hdr bp p := hgo 0 (by omega)
    unfold StopsAt at hgo'
    rw [not_or] at hgo'
    rw [findPlace, if_neg hgo'.1, if_neg hgo'.2]
    exact ih hstop (fun j hj => hgo (j + 1) (by omega)) (by omega)

/-- In an ascending circle the loop stops only at the node behind which the block belongs. -/
theorem FreeList.stopsAt_iff {hdr : ℕ → Header} {l₁ l₂ : List ℕ} {hi n : ℕ}
    (h : FreeList lo base hdr l live hi n) (hl : base :: l = l₁ ++ p :: l₂) (hp : p < bp)
    (hbp : base < bp) (hup : ∀ y ∈ l₂, bp < y) (hq : q ∈ base :: l) : StopsAt hdr bp q ↔ q = p := by
  have hasc := h.ascending.imp Below.lt
  have hlink := h.linked
  rw [hl] at hq hasc hlink
  obtain ⟨hasc₁, hascp, hcross⟩ := List.pairwise_append.mp hasc
  unfold StopsAt
  constructor
  · intro hstop
    simp only [List.mem_append, List.mem_cons] at hq
    rcases hq with hq | hq | hq
    · -- below `p` the next node is still below the block
      obtain ⟨a, r, rfl⟩ := List.append_of_mem hq
      have hnext : (hdr q).ptr = (r ++ p :: l₂).headD base := by
        rw [List.append_assoc] at hlink
        exact hlink.next_eq
      have hqr := (List.pairwise_cons.mp (List.pairwise_append.mp hasc₁).2.1).1
      cases r with
      | nil =>
        have hqp := hcross q (by simp) p (by simp)
        have hnext' : (hdr q).ptr = p := hnext
        omega
      | cons z r =>
        have hqz := hqr z (by simp)
        have hzp := hcross z (by simp) p (by simp)
        have hnext' : (hdr q).ptr = z := hnext
        omega
    · exact hq
    · -- above it the block is below the node, and the last node leads to `base`
      obtain ⟨a, r, rfl⟩ := List.append_of_mem hq
      have hnext : (hdr q).ptr = r.headD base := (linked_append.mp hlink).2.2.next_eq
      have hqbp := hup q (by simp)
      have hqr := (List.pairwise_cons.mp (List.pairwise_append.mp
        (List.pairwise_cons.mp hascp).2).2.1).1
      cases r with
      | nil =>
        have hnext' : (hdr q).ptr = base := hnext
        omega
      | cons z r =>
        have hqz := hqr z (by simp)
        have hnext' : (hdr q).ptr = z := hnext
        omega
  · rintro rfl
    have hnext : (hdr q).ptr = l₂.headD base := hlink.next_eq
    cases l₂ with
    | nil =>
      have hnext' : (hdr q).ptr = base := hnext
      have := h.blocks.le (x := q) (by rw [hl]; simp)
      omega
    | cons z r =>
      have hnext' : (hdr q).ptr = z := hnext
      have := hup z (by simp)
      omega

/-- What `free` does: its loop ends, and the block is on the free list, alone or joined to others. -/
theorem Ready.after_free (h : Ready lim lo base s l (x :: live)) :
    ∃ F s' l', (∀ fuel ≥ F, free fuel (x + HDR) s = some s') ∧ Ready lim lo base s' l' live ∧
      s'.brk = s.brk ∧ (∃ y ∈ l', (s.hdr x).size ≤ (s'.hdr y).size) ∧
      ∀ y ∈ live, s'.hdr y = s.hdr y := by
  have hx := h.list.live_block (x := x) (by simp)
  have hnot : x ∉ base :: l := h.list.live_not_mem (by simp)
  have hlo := h.list.blocks.low
  have hbx : base < x := by
    unfold HDR at hlo
    omega
  obtain ⟨l₁, p, l₂, hl, hp, -, hup⟩ := exists_place (h.list.ascending.imp Below.lt) hbx
    fun hm => hnot (by simp [hm])
  obtain ⟨q, hq, hfreep⟩ := h.freep
  have hpm : p ∈ base :: l := by rw [hl]; simp
  -- the search from `freep` comes to `p`
  obtain ⟨k, hk, hgo⟩ := h.list.linked.exists_first (P := (· = p)) hq ⟨p, hpm, rfl⟩
  have hiff : ∀ j, StopsAt s.hdr x ((nextOf s.hdr)^[j] q) ↔ (nextOf s.hdr)^[j] q = p := fun j =>
    h.list.stopsAt_iff hl hp hbx hup (h.list.linked.iterate_mem hq j)
  have hfind : ∀ fuel ≥ k + 1, findPlace s.hdr x fuel q = some p := fun fuel hfuel => by
    rw [findPlace_eq ((hiff k).mpr hk) (fun j hj hs => hgo j hj ((hiff j).mp hs)) (by omega)]
    exact congrArg some hk
  obtain ⟨l₂', hsub, hj, hgrow, hsame⟩ := h.list.join_upper (h.brk.1.trans h.brk.2) hl hp hup
  have hdisj : ∀ y ∈ live, y ∉ l₁ ++ p :: l₂' := fun y hy hm => by
    refine h.list.live_not_mem (List.mem_cons_of_mem x hy) ?_
    rw [hl]
    simp only [List.mem_append, List.mem_cons] at hm ⊢
    exact hm.imp id (Or.imp id (@hsub y))
  have hreal : base ∉ live := fun hm => h.list.real (List.mem_cons_of_mem x hm)
  obtain ⟨l', hlist, hpl', ⟨y, hy, hgrow'⟩, hsame'⟩ := hj.join_lower (h.brk.1.trans h.brk.2)
    (exists_cons_append hl l₂') hbx hreal hdisj
  refine ⟨k + 1, { s with hdr := joinLower (joinUpper s.hdr p x) p x, freep := some p }, l', ?_,
    ⟨hlist, h.brk, h.above, p, hpl', rfl⟩, rfl, ⟨y, hy, hgrow.trans hgrow'⟩, ?_⟩
  · intro fuel hfuel
    simp only [free, Nat.add_sub_cancel, hfreep, hfind fuel hfuel]
  · intro z hz
    have hzx : z ≠ x := fun he => h.list.head_not_mem (he ▸ hz)
    exact (hsame' z hz).trans (hsame z hzx)

/-! ### `malloc` -/

theorem Ready.lt_brk (h : Ready lim lo base s l live) (hx : x ∈ (base :: l) ++ live) : x < s.brk := by
  have hlo := h.list.blocks.low
  have hab := h.above
  unfold HDR at hlo
  rcases h.list.blocks.block x hx with rfl | hb
  · omega
  · unfold HDR at hb
    omega

theorem Ready.grow_hdr {a brk : ℕ} (h : Ready lim lo base s l live) (ha : s.brk ≤ a)
    (hx : x ∈ (base :: l) ++ live) : (s.grow a m brk).hdr x = s.hdr x := by
  have := h.lt_brk hx
  exact Function.update_of_ne (by omega) _ _

theorem Ready.grow {a : ℕ} (h : Ready lim lo base s l live) (ha : s.brk ≤ a) (hm : 1 ≤ m)
    (hmax : a + m * HDR ≤ lim) :
    Ready lim lo base (s.grow a m (a + m * HDR)) l (a :: live) := by
  generalize hs' : s.grow a m (a + m * HDR) = s'
  have hsame : ∀ y ∈ (base :: l) ++ live, s'.hdr y = s.hdr y := fun y hy => by
    rw [← hs', h.grow_hdr ha hy]
  have hsame' : ∀ y ∈ base :: l, s'.hdr y = s.hdr y :=
    fun y hy => hsame y (List.mem_append_left _ hy)
  refine ⟨⟨?_, ?_, ?_, ?_⟩, hs' ▸ ⟨hmax, h.brk.2⟩, ?_, hs' ▸ h.freep⟩
  · exact h.list.linked.congr fun y hy => by rw [hsame' y hy]
  · exact h.list.ascending.imp_of_mem fun hy _ hyz => by
      unfold Below at hyz ⊢
      rwa [hsame' _ hy]
  · have hext : Blocks lo base s'.hdr (a :: ((base :: l) ++ live)) (a + HDR * m) (s.units + m) := by
      refine h.list.blocks.extend h.above ha hm (by simp [← hs', Heap.grow]) (fun z hz => ?_) ?_
      · rw [hsame z hz]
      · rw [hsame' base (by simp), h.list.blocks.empty]
    rw [Nat.mul_comm] at hext
    rw [← hs'] at hext ⊢
    exact hext.perm List.perm_middle.symm
  · intro hm'
    rcases List.mem_cons.mp hm' with he | hm'
    · have := h.lt_brk (x := base) (by simp)
      omega
    · exact h.list.real hm'
  · have := h.above
    rw [← hs']
    show lo ≤ a + m * HDR
    omega

/-- Asked for a number of bytes that an `int` can hold, `sbrk` fails, or returns a region above the memory,
which then ends with it. -/
def Honest (lim : ℕ) (sbrk : Sbrk) : Prop :=
  ∀ n brk, n < 2 ^ 31 → brk ≤ lim →
    sbrk n brk = (FAILED, brk) ∨ ∃ p, sbrk n brk = (p, p + n) ∧ brk ≤ p ∧ p + n ≤ lim

/-- What `morecore` does: either `sbrk` fails and nothing has changed, or there is a free block of the
size asked for. -/
theorem Ready.after_morecore (h : Ready lim lo base s l live) {sbrk : Sbrk} (hsb : Honest lim sbrk)
    {nu : ℕ} (hnu : nu * HDR < 2 ^ 31) :
    (∀ fuel, morecore fuel sbrk nu s = some (none, s)) ∨
      ∃ F s' l' p, (∀ fuel ≥ F, morecore fuel sbrk nu s = some (some p, s')) ∧ s.brk ≤ s'.brk ∧
        Ready lim lo base s' l' live ∧ s'.freep = some p ∧ (∃ y ∈ l', nu ≤ (s'.hdr y).size) ∧
        ∀ y ∈ live, s'.hdr y = s.hdr y := by
  unfold morecore
  generalize hm : (if nu < 4096 then 4096 else nu) = m
  have hm : nu ≤ m ∧ 1 ≤ m ∧ m * HDR < 2 ^ 31 := by
    unfold HDR at *
    split_ifs at hm <;> omega
  have hmax := h.brk.2
  unfold MAXBRK at hmax
  rcases hsb (m * HDR) s.brk hm.2.2 h.brk.1 with hfail | ⟨a, hcall, ha⟩
  · exact .inl fun fuel => by simp only [hfail, if_true]
  · obtain ⟨F, s', l', hfree, hready, hbrk, ⟨y, hy, hbig⟩, hsame⟩ :=
      (h.grow ha.1 hm.2.1 ha.2).after_free
    obtain ⟨p, hp, hfreep⟩ := hready.freep
    have hsize : ((s.grow a m (a + m * HDR)).hdr a).size = m := by simp [Heap.grow]
    have hok : a ≠ FAILED := by
      unfold FAILED
      omega
    have hmapped : ¬ pageEnd (a + m * HDR) < a + 12 := by
      unfold pageEnd HDR
      omega
    have hle : s.brk ≤ s'.brk := by
      rw [hbrk]
      exact ha.1.trans (Nat.le_add_right _ _)
    refine .inr ⟨F, s', l', p, fun fuel hfuel => ?_, hle, hready, hfreep, ⟨y, hy, by omega⟩, ?_⟩
    · simp only [hcall, if_neg hok, if_neg hmapped, hfree fuel hfuel, hfreep]
    · intro z hz
      rw [hsame z hz, h.grow_hdr ha.1 (by simp [hz])]

/-- The loop of `malloc` stops here. -/
def Suits (s : Heap) (nunits p : ℕ) : Prop := nunits ≤ (s.hdr p).size ∨ s.freep = some p

/-- The loop goes from node to node until it stops. -/
theorem search_eq {fuel k i : ℕ} {sbrks : ℕ → Sbrk}
    (hgo : ∀ j < k, ¬ Suits s nunits ((nextOf s.hdr)^[j] (nextOf s.hdr q))) :
    search fuel sbrks nunits (k + m) i q (nextOf s.hdr q) s =
      search fuel sbrks nunits m i ((nextOf s.hdr)^[k] q) ((nextOf s.hdr)^[k] (nextOf s.hdr q)) s := by
  induction k generalizing q with
  | zero => rw [Nat.zero_add]; rfl
  | succ k ih =>
    have hq : ¬ Suits s nunits (nextOf s.hdr q) := hgo 0 (by omega)
    unfold Suits at hq
    rw [not_or] at hq
    rw [show k + 1 + m = (k + m) + 1 by omega, search, if_neg hq.1, if_neg hq.2]
    exact ih fun j hj => hgo (j + 1) (by omega)

/-- What taking from a block does: the block in use is new and of the size asked for. -/
theorem Ready.after_takeFrom {prevp : ℕ} (h : Ready lim lo base s l live) (hprev : prevp ∈ base :: l)
    (hsize : nunits ≤ (s.hdr (nextOf s.hdr prevp)).size) (hpos : 1 ≤ nunits) :
    ∃ s' l' x, takeFrom nunits prevp (nextOf s.hdr prevp) s = (x + HDR, s') ∧
      Ready lim lo base s' l' (x :: live) ∧ (s'.hdr x).size = nunits ∧
      s'.brk = s.brk ∧ ∀ y ∈ live, s'.hdr y = s.hdr y := by
  have hpb : nextOf s.hdr prevp ≠ base := fun he => by
    rw [he, h.list.blocks.empty] at hsize
    omega
  obtain ⟨l₁, l₂, hl⟩ := h.list.linked.split hprev hpb
  change base :: l = l₁ ++ prevp :: nextOf s.hdr prevp :: l₂ at hl
  generalize nextOf s.hdr prevp = p at hl hpb hsize ⊢
  have hpl : p ∈ l := by
    have hm : p ∈ base :: l := by rw [hl]; simp
    exact (List.mem_cons.mp hm).resolve_left hpb
  have hlive : ∀ y ∈ live, y ∉ base :: l := fun y hy => h.list.live_not_mem hy
  unfold takeFrom
  by_cases heq : (s.hdr p).size = nunits
  · rw [if_pos heq]
    have hsame : ∀ y, y ≠ prevp →
        Function.update s.hdr prevp ⟨(s.hdr p).ptr, (s.hdr prevp).size⟩ y = s.hdr y :=
      fun y hy => Function.update_of_ne hy _ _
    obtain ⟨l', hl', hlist⟩ := h.list.remove hl hpb (Function.update_self _ _ _) hsame
    have hpp : p ≠ prevp := fun he => by
      have hasc := h.list.ascending
      rw [hl, he] at hasc
      exact absurd ((List.pairwise_cons.mp (List.pairwise_append.mp hasc).2.1).1 prevp (by simp)).lt
        (by omega)
    refine ⟨_, l', p, rfl, ⟨hlist, h.brk, h.above, prevp, by rw [hl']; simp, rfl⟩, ?_, rfl, ?_⟩
    · exact (congrArg Header.size (hsame p hpp)).trans heq
    · exact fun y hy => hsame y fun he => hlive y hy (he ▸ hprev)
  · rw [if_neg heq]
    have hlt : nunits < (s.hdr p).size := by omega
    generalize hq : p + HDR * ((s.hdr p).size - nunits) = q
    have hqp : q ≠ p := by
      unfold HDR at hq
      omega
    have hupd : Function.update s.hdr p ⟨(s.hdr p).ptr, (s.hdr p).size - nunits⟩ q = s.hdr q :=
      Function.update_of_ne hqp _ _
    simp only [hq, hupd]
    generalize hhdr : Function.update
      (Function.update s.hdr p ⟨(s.hdr p).ptr, (s.hdr p).size - nunits⟩) q
      ⟨(s.hdr q).ptr, nunits⟩ = hdr
    have hp' : hdr p = ⟨(s.hdr p).ptr, (s.hdr p).size - nunits⟩ := by
      rw [← hhdr, Function.update_of_ne hqp.symm, Function.update_self]
    have hq' : (hdr q).size = nunits := by rw [← hhdr, Function.update_self]
    have hsame : ∀ y, y ≠ p → y ≠ q → hdr y = s.hdr y := fun y hyp hyq => by
      rw [← hhdr, Function.update_of_ne hyq, Function.update_of_ne hyp]
    obtain ⟨hlist, hne⟩ := h.list.cut hpl hlt hpos hq.symm hp' hq' hsame
    exact ⟨⟨hdr, some prevp, s.brk, s.units⟩, l, q, rfl,
      ⟨hlist, h.brk, h.above, prevp, hprev, rfl⟩, hq', rfl,
      fun y hy => hsame y (hne y hy).2 (hne y hy).1⟩

/-- What `malloc` makes of a heap: it returns 0, or a block in use that is new, of the size asked for;
the blocks in use before keep their headers, and the memory does not shrink. -/
def Allocates (lim lo base : ℕ) (s : Heap) (live : List ℕ) (nunits : ℕ) (r : ℕ × Heap) : Prop :=
  (∀ y ∈ live, r.2.hdr y = s.hdr y) ∧ s.brk ≤ r.2.brk ∧
    ((r.1 = 0 ∧ ∃ l', Ready lim lo base r.2 l' live) ∨
      ∃ x l', r.1 = x + HDR ∧ Ready lim lo base r.2 l' (x :: live) ∧ (r.2.hdr x).size = nunits)

/-- If some free block is large enough, the loop finds one. -/
theorem Ready.search_found (h : Ready lim lo base s l live) (hfreep : s.freep = some q)
    (hpos : 1 ≤ nunits) (hbig : ∃ y ∈ l, nunits ≤ (s.hdr y).size) :
    ∃ K r, Allocates lim lo base s live nunits r ∧ ∀ fuel sbrks i, ∀ k ≥ K,
      search fuel sbrks nunits k i q (nextOf s.hdr q) s = some r := by
  have hq : q ∈ base :: l := h.freep_mem hfreep
  obtain ⟨y, hy, hsize⟩ := hbig
  obtain ⟨k, hk, hgo⟩ := h.list.linked.exists_first (P := fun z => nunits ≤ (s.hdr z).size)
    (h.list.linked.next_mem hq) ⟨y, List.mem_cons_of_mem base hy, hsize⟩
  have hgo' : ∀ j < k, ¬ Suits s nunits ((nextOf s.hdr)^[j] (nextOf s.hdr q)) := by
    intro j hj hsuits
    rcases hsuits with hbig | hend
    · exact hgo j hj hbig
    · exact ne_of_first (P := fun z => nunits ≤ (s.hdr z).size) hk hgo hj
        (Option.some.inj (hend.symm.trans hfreep))
  have hprev : (nextOf s.hdr)^[k] q ∈ base :: l := h.list.linked.iterate_mem hq k
  have hiter : (nextOf s.hdr)^[k] (nextOf s.hdr q) = nextOf s.hdr ((nextOf s.hdr)^[k] q) := by
    rw [← Function.iterate_succ_apply, Function.iterate_succ_apply']
  have hk' : nunits ≤ (s.hdr (nextOf s.hdr ((nextOf s.hdr)^[k] q))).size := hiter ▸ hk
  obtain ⟨s', l', x, htake, hready, hsz, hbrk, hsame⟩ := h.after_takeFrom hprev hk' hpos
  refine ⟨k + 1, (x + HDR, s'), ⟨hsame, hbrk.ge, .inr ⟨x, l', rfl, hready, hsz⟩⟩,
    fun fuel sbrks i m hm => ?_⟩
  obtain ⟨d, rfl⟩ : ∃ d, m = k + (d + 1) := ⟨m - k - 1, by omega⟩
  rw [search_eq hgo', hiter, search, if_pos hk', htake]

/-- The loop of `malloc` ends. It calls `sbrk` at most once. -/
theorem Ready.search_ends (h : Ready lim lo base s l live) {sbrks : ℕ → Sbrk}
    (hsb : Honest lim (sbrks 0)) (hfreep : s.freep = some q) (hpos : 1 ≤ nunits)
    (hnu : nunits * HDR < 2 ^ 31) :
    ∃ F r, Allocates lim lo base s live nunits r ∧
      ∀ fuel ≥ F, search fuel sbrks nunits fuel 0 q (nextOf s.hdr q) s = some r := by
  have hq : q ∈ base :: l := h.freep_mem hfreep
  by_cases hbig : ∃ y ∈ l, nunits ≤ (s.hdr y).size
  · obtain ⟨K, r, hr, hK⟩ := h.search_found hfreep hpos hbig
    exact ⟨K, r, hr, fun fuel hfuel => hK fuel sbrks 0 fuel hfuel⟩
  · -- once around the list nothing is large enough
    have hsmall : ∀ y ∈ base :: l, ¬ nunits ≤ (s.hdr y).size := by
      intro y hy hsize
      rcases List.mem_cons.mp hy with rfl | hy
      · rw [h.list.blocks.empty] at hsize
        omega
      · exact hbig ⟨y, hy, hsize⟩
    obtain ⟨k, hk, hgo⟩ := h.list.linked.exists_first (P := fun z => z = q)
      (h.list.linked.next_mem hq) ⟨q, hq, rfl⟩
    have hgo' : ∀ j < k, ¬ Suits s nunits ((nextOf s.hdr)^[j] (nextOf s.hdr q)) := by
      intro j hj hsuits
      rcases hsuits with hbig | hend
      · exact hsmall _ (h.list.linked.iterate_mem (h.list.linked.next_mem hq) j) hbig
      · exact hgo j hj (Option.some.inj (hend.symm.trans hfreep))
    have hk' : (nextOf s.hdr)^[k] (nextOf s.hdr q) = q := hk
    have hlast : ∀ fuel d, search fuel sbrks nunits (k + d) 0 q (nextOf s.hdr q) s =
        search fuel sbrks nunits d 0 ((nextOf s.hdr)^[k] q) q s := fun fuel d => by
      rw [search_eq hgo', hk']
    rcases h.after_morecore hsb hnu with
      hfail | ⟨F, s', l', p, hmore, hle, hready, hp, hbig', hsame⟩
    · refine ⟨k + 1, (0, s), ⟨fun _ _ => rfl, le_rfl, .inl ⟨rfl, l, h⟩⟩, fun fuel hfuel => ?_⟩
      obtain ⟨d, rfl⟩ : ∃ d, fuel = k + (d + 1) := ⟨fuel - k - 1, by omega⟩
      rw [hlast, search, if_neg (hsmall q hq), if_pos hfreep, hfail]
    · obtain ⟨K, r, ⟨hkeep, hle', hr⟩, hK⟩ := hready.search_found hp hpos hbig'
      refine ⟨F + k + 1 + K, r, ⟨fun y hy => (hkeep y hy).trans (hsame y hy), hle.trans hle', hr⟩,
        fun fuel hfuel => ?_⟩
      obtain ⟨d, hd⟩ : ∃ d, fuel = k + (d + 1) := ⟨fuel - k - 1, by omega⟩
      have hF : search fuel sbrks nunits (k + (d + 1)) 0 q (nextOf s.hdr q) s = some r := by
        rw [hlast, search, if_neg (hsmall q hq), if_pos hfreep, hmore fuel (by omega)]
        exact hK fuel sbrks 1 d (by omega)
      rwa [← hd] at hF

/-- Before the first call there is only `base`. -/
theorem ready_start (hlo : base + HDR ≤ lo) (hab : lo ≤ s.brk) (hmax : s.brk ≤ lim ∧ lim ≤ MAXBRK)
    (hunits : s.units = 0) :
    Ready lim lo base (s.start base) [] [] := by
  have hbase : (s.start base).hdr base = ⟨base, 0⟩ := by simp [Heap.start]
  refine ⟨⟨⟨?_, trivial⟩, by simp, ⟨hlo, ?_, by simp, by simp, ?_⟩, by simp⟩, hmax, hab, base,
    by simp, rfl⟩
  · show ((s.start base).hdr base).ptr = base
    rw [hbase]
  · rw [hbase]
  · simp [hbase]
    exact hunits.symm

end Xv6.User
