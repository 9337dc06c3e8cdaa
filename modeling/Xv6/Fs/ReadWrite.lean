import Xv6.Fs.Alloc
import Xv6.Fs.Content

/-!
# Reading and writing files

`readi` delivers bytes of the file and changes nothing: every block below the size is in its place, so
that `bmap` never allocates. `writei` goes through the blocks one after the other; it writes the pieces
that it could copy, and its result says how many bytes these have. A copy that fails in the middle of a
piece has changed the buffer already, and the buffer is given back without being logged: the bytes that
were copied are seen by the next reader.
-/

namespace Xv6.Fs

open Lib Block

variable {sb : Superblock} {μ : Mode} {v v' : View} {I J : Image} {n : ℕ} {ip : InodeRef}

/-! ### `readi` -/

theorem runs_bmap_read (hI : v.content = I.content) (hn : I.Allocated sb n)
    (hin : (v.kern.inode ip).din = I.din n) (hidle : v.Idle) {bn : ℕ}
    (h0 : I.place sb n (.data bn) ≠ 0) {Q : ℕ → View → Prop} (h : Q (I.place sb n (.data bn)) v) :
    Runs μ (bmap sb ip bn) Q v := by
  have haddr : ∀ k : Fin (NDIRECT + 1), (I.din n).addrs k ≠ 0 → ∀ {Q : ℕ → View → Prop},
      Q ((I.din n).addrs k) v → Runs μ (bmapAddr sb ip k) Q v := by
    intro k hk Q hQ
    refine runs_bind (runs_inode ?_)
    rw [hin, if_neg hk]
    exact runs_pure hQ
  have hmax : bn < MAXFILE := by
    by_contra hge
    exact h0 (Image.place_of_ge (Nat.le_of_not_lt hge))
  unfold bmap
  split
  · rename_i hlt
    rw [Image.place_direct hn hlt] at h0 h
    exact haddr _ h0 h
  · rename_i hge
    have hind : I.place sb n .indirect ≠ 0 := fun hind => h0 (Image.place_entry_none hge hind)
    rw [Image.place_indirect hn] at hind
    rw [Image.place_entry hn hge hmax hind, ← hI] at h0 h
    rw [if_pos (by simp only [MAXFILE] at hmax; omega)]
    refine runs_bind (haddr _ hind (runs_read (hidle.clear _) fun i hi => ?_))
    rw [if_neg h0]
    exact runs_drop hi (runs_pure h)

/-- Byte `j` of the destination can be written. -/
def Dest.valid (user : ℕ → Option UInt8) (j : ℕ) : Dest → Bool
  | .user addr => (user ((addr + j) % 2 ^ 64)).isSome
  | .kernel => true

/-- How many of `len` bytes reach the destination, after the first `tot`: those before the first byte that
cannot be written. -/
def Dest.reach (dst : Dest) (user : ℕ → Option UInt8) (tot : ℕ) : ℕ → ℕ
  | 0 => 0
  | len + 1 => if dst.valid user tot then dst.reach user (tot + 1) len + 1 else 0

namespace Dest

variable {dst : Dest} {user : ℕ → Option UInt8} {tot : ℕ} {len : ℕ}

theorem reach_le : dst.reach user tot len ≤ len := by
  induction len generalizing tot with
  | zero => exact le_refl 0
  | succ len ih =>
    unfold reach
    split
    · exact Nat.succ_le_succ ih
    · exact Nat.zero_le _

@[simp] theorem reach_kernel : Dest.kernel.reach user tot len = len := by
  induction len generalizing tot with
  | zero => rfl
  | succ len ih => rw [reach, if_pos (by rfl), ih]

/-- All bytes reach it exactly if all can be written. -/
theorem reach_eq_iff : dst.reach user tot len = len ↔ ∀ j, j < len → dst.valid user (tot + j) := by
  induction len generalizing tot with
  | zero => simp [reach]
  | succ len ih =>
    unfold reach
    rw [Nat.forall_lt_succ_left']
    split
    · rename_i hv
      simp only [Nat.add_right_cancel_iff, ih, Nat.add_zero, hv, true_and, Nat.add_assoc,
        Nat.add_comm 1]
    · rename_i hv
      simp [hv]

/-- Two pieces one after the other. -/
theorem reach_add {m k : ℕ} : dst.reach user tot (m + k) =
    if dst.reach user tot m = m then m + dst.reach user (tot + m) k else dst.reach user tot m := by
  induction m generalizing tot with
  | zero => simp [reach]
  | succ m ih =>
    have hk : m + 1 + k = m + k + 1 := by omega
    have ht : tot + 1 + m = tot + (m + 1) := by omega
    rw [hk, reach, reach, ih, ht]
    by_cases hv : dst.valid user tot = true
    · simp only [if_pos hv]
      split_ifs <;> omega
    · simp [if_neg hv]

end Dest

variable {user : ℕ → Option UInt8} {dst : Dest} {tot off : ℕ}

/-- What a copy gets from the addresses after `addr`. A valid address is below `MAXVA`, so that the next
one does not wrap. -/
theorem validBytes_wrapped (hlow : ∀ a, MAXVA ≤ a → user a = none) (addr tot len : ℕ) :
    validBytes user ((addr + tot) % 2 ^ 64) len =
      (List.range ((Dest.user addr).reach user tot len)).map fun j =>
        (user ((addr + (tot + j)) % 2 ^ 64)).getD 0 := by
  induction len generalizing tot with
  | zero => rfl
  | succ len ih =>
    rw [validBytes, Dest.reach, Dest.valid]
    cases hx : user ((addr + tot) % 2 ^ 64) with
    | none => rfl
    | some x =>
      have hlt : (addr + tot) % 2 ^ 64 < MAXVA := by
        by_contra hge
        rw [hlow _ (Nat.le_of_not_lt hge)] at hx
        cases hx
      have hnext : (addr + tot) % 2 ^ 64 + 1 = (addr + (tot + 1)) % 2 ^ 64 := by
        have hva : MAXVA < 2 ^ 64 := by decide
        omega
      have h0 : user ((addr + (tot + 0)) % 2 ^ 64) = some x := hx
      rw [hnext, ih, if_pos (by rfl), List.range_succ_eq_map, List.map_cons, List.map_map, h0]
      refine congrArg (List.cons x) (List.map_congr_left fun j _ => ?_)
      have hj : tot + 1 + j = tot + (j + 1) := by omega
      rw [Function.comp_apply, Nat.succ_eq_add_one, hj]

theorem length_validBytes_wrapped (hlow : ∀ a, MAXVA ≤ a → user a = none) (addr tot len : ℕ) :
    (validBytes user ((addr + tot) % 2 ^ 64) len).length =
      (Dest.user addr).reach user tot len := by
  rw [validBytes_wrapped hlow, List.length_map, List.length_range]

variable {Q : List UInt8 × Bool → View → Prop} {len m : ℕ} {src : Source}

theorem runs_either_copyout {l : List UInt8}
    (h : Q (l.take (dst.reach μ.user tot l.length),
      decide (dst.reach μ.user tot l.length = l.length)) v) :
    Runs μ (either_copyout dst tot l) Q v := by
  cases dst with
  | user addr =>
    refine runs_copyout ?_
    have hiff : l.take ((Dest.user addr).reach μ.user tot l.length) = l ↔
        (Dest.user addr).reach μ.user tot l.length = l.length := by
      rw [List.take_eq_self_iff]
      exact ⟨le_antisymm Dest.reach_le, ge_of_eq⟩
    rw [delivered, length_validBytes_wrapped μ.low, decide_eq_decide.mpr hiff]
    exact h
  | kernel =>
    rw [Dest.reach_kernel, List.take_length, decide_eq_true rfl] at h
    exact runs_pure h

theorem runs_readiFrom (hI : v.content = I.content) (hn : I.Allocated sb n)
    (hin : (v.kern.inode ip).din = I.din n) (hidle : v.Idle) (fuel off len : ℕ) (l : List UInt8)
    (hfuel : len ≤ fuel) (hplaced : ∀ bn, bn * BSIZE < off + len → I.place sb n (.data bn) ≠ 0)
    (h : Q (l ++ (I.bytes sb n off len).take (dst.reach μ.user l.length len),
      decide (dst.reach μ.user l.length len = len)) v) :
    Runs μ (readiFrom sb ip dst fuel off len l) Q v := by
  have hpos : 0 < BSIZE := by decide
  induction fuel generalizing off len l with
  | zero =>
    obtain rfl : len = 0 := by omega
    exact runs_pure (by simpa [Image.bytes, Dest.reach] using h)
  | succ fuel ih =>
    refine Prog.ensures_ite (fun h0 => ?_) fun h0 => ?_
    · subst h0
      exact runs_pure (by simpa [Image.bytes, Dest.reach] using h)
    · have hmod := Nat.mod_lt off hpos
      set m := min len (BSIZE - off % BSIZE) with hm
      have hblock : I.place sb n (.data (off / BSIZE)) ≠ 0 :=
        hplaced _ (by have := Nat.div_mul_le_self off BSIZE; omega)
      have hslice : slice (v.content (I.place sb n (.data (off / BSIZE)))) (off % BSIZE) m =
          I.bytes sb n off m := by
        rw [hI]
        exact Image.slice_eq_bytes (by omega)
      refine runs_bind (runs_bmap_read hI hn hin hidle hblock ?_)
      refine runs_read (hidle.clear _) fun i hi => ?_
      rw [hslice]
      refine runs_bind (runs_either_copyout (runs_drop hi ?_))
      rw [Image.length_bytes]
      have hlen : m + (len - m) = len := by omega
      have hbytes : I.bytes sb n off m ++ I.bytes sb n (off + m) (len - m) = I.bytes sb n off len := by
        rw [Image.bytes_append, hlen]
      rw [← hbytes, ← hlen, Dest.reach_add, hlen] at h
      refine Prog.ensures_ite (fun hok => ?_) fun hok => ?_
      · have hall : dst.reach μ.user l.length m = m := of_decide_eq_true hok
        refine ih (off + m) (len - m) _ (by omega) (fun bn hbn => hplaced bn (by omega)) ?_
        rw [if_pos hall, List.take_append, Image.length_bytes, List.take_of_length_le (by simp),
          Nat.add_sub_cancel_left] at h
        rw [hall, List.take_of_length_le (by simp), List.append_assoc, List.length_append,
          Image.length_bytes]
        have hiff : m + dst.reach μ.user (l.length + m) (len - m) = len ↔
            dst.reach μ.user (l.length + m) (len - m) = len - m := by omega
        rwa [decide_eq_decide.mpr hiff] at h
      · have hfew : dst.reach μ.user l.length m ≠ m := fun he => hok (decide_eq_true he)
        have hle : dst.reach μ.user l.length m ≤ m := Dest.reach_le
        rw [if_neg hfew, List.take_append_of_le_length (by simpa using hle),
          decide_eq_false (show ¬ dst.reach μ.user l.length m = len by omega)] at h
        exact runs_pure h

/-- The number of bytes that `readi` reads. -/
def readLength (size off len : ℕ) : ℕ :=
  if off > size ∨ (off + len) % 2 ^ 32 < off then 0
  else if off + len > size then size - off else len

/-- **`readi` delivers bytes of the file and changes nothing.** A byte of the destination that cannot be
written ends it. -/
theorem runs_readi (hw : I.Wf sb) (hI : v.content = I.content) (hn : I.Allocated sb n)
    (hin : (v.kern.inode ip).din = I.din n) (hidle : v.Idle) {k : ℕ}
    (hk : k = readLength (I.din n).size off len)
    (h : Q ((I.bytes sb n off k).take (dst.reach μ.user 0 k),
      decide (dst.reach μ.user 0 k = k)) v) : Runs μ (readi sb ip dst off len) Q v := by
  refine runs_bind (runs_inode ?_)
  rw [hin]
  unfold readLength at hk
  refine Prog.ensures_ite (fun hout => ?_) fun hin' => ?_
  · rw [if_pos hout] at hk
    subst hk
    exact runs_pure (by simpa [Image.bytes, Dest.reach] using h)
  · rw [if_neg hin'] at hk
    rw [← hk]
    refine runs_readiFrom hI hn hin hidle _ off _ [] le_rfl (fun bn hbn => ?_) h
    refine hw.noHoles n bn hn ?_
    split at hk <;> omega

/-! ### `writei` -/

/-- What a copy of `m` bytes from the source gets after `tot` bytes, and whether it succeeds. -/
def Source.piece (user : ℕ → Option UInt8) (tot m : ℕ) : Source → List UInt8 × Bool
  | .user addr =>
    (validBytes user ((addr + tot) % 2 ^ 64) m,
      decide ((validBytes user ((addr + tot) % 2 ^ 64) m).length = m))
  | .kernel l => ((l.drop tot).take m, true)

theorem runs_either_copyin (h : ∀ l ok, src.piece μ.user tot m = (l, ok) → Q (l, ok) v) :
    Runs μ (either_copyin src tot m) Q v := by
  cases src with
  | user addr => exact runs_copyin (h _ _ rfl)
  | kernel l => exact runs_pure (h _ _ rfl)

/-- The bytes that the loop of `writei` writes, and what a copy that fails has put into the buffer. -/
def Source.pieces (src : Source) (user : ℕ → Option UInt8) :
    ℕ → ℕ → ℕ → ℕ → List UInt8 × List UInt8
  | 0, _, _, _ => ([], [])
  | fuel + 1, off, len, tot =>
    if len = 0 then ([], [])
    else
      let m := min len (BSIZE - off % BSIZE)
      let p := src.piece user tot m
      if p.2 then
        let rest := src.pieces user fuel (off + m) (len - m) (tot + m)
        (p.1 ++ rest.1, rest.2)
      else ([], p.1)

/-- The source has bytes to copy: a copy that succeeds gets all it asks for, and one that fails no
more. -/
def Source.Full (src : Source) (len : ℕ) : Prop :=
  match src with
  | .user _ => True
  | .kernel l => len ≤ l.length

theorem Source.Full.mono {len' : ℕ} (h : src.Full len) (hle : len' ≤ len) : src.Full len' := by
  cases src with
  | user addr => trivial
  | kernel l => exact le_trans hle h

theorem Source.length_piece_le : (src.piece user tot m).1.length ≤ m := by
  cases src with
  | user addr => exact length_validBytes_le _ _ _
  | kernel l => simp [Source.piece]

theorem Source.length_piece (hfull : src.Full (tot + m)) (hok : (src.piece user tot m).2 = true) :
    (src.piece user tot m).1.length = m := by
  cases src with
  | user addr => exact of_decide_eq_true hok
  | kernel l =>
    simp only [Source.Full] at hfull
    simp only [Source.piece, List.length_take, List.length_drop]
    omega

theorem runs_writeiFrom (hs : Sane sb) (hn : I.Allocated sb n) (fuel off len tot : ℕ)
    (hE : ∀ j, j < len → I.place sb n (.data ((off + j) / BSIZE)) = 0 → μ.Fills sb) (hw : I.Wf sb)
    (hI : v.content = I.content) (hin : (v.kern.inode ip).din = I.din n) (hidle : v.Idle)
    (hop : v.op ≠ none) (hfull : src.Full (tot + len)) (hfuel : len ≤ fuel)
    (hmax : off + len ≤ MAXFILE * BSIZE) {Q : ℕ × ℕ → View → Prop}
    (h : ∀ J v', Image.Overwrites sb n I J off ((src.pieces μ.user fuel off len tot).1 ++
        (src.pieces μ.user fuel off len tot).2) → v.Moves v' ip n J →
      Q (off + (src.pieces μ.user fuel off len tot).1.length,
        tot + (src.pieces μ.user fuel off len tot).1.length) v') :
    Runs μ (writeiFrom sb ip src fuel off len tot) Q v := by
  have hpos : 0 < BSIZE := by decide
  induction fuel generalizing off len tot I v with
  | zero =>
    exact runs_pure (h I v (.of_grow hw (.refl I n)) (.refl hI hin))
  | succ fuel ih =>
    refine Prog.ensures_ite (fun h0 => ?_) fun h0 => ?_
    · simp only [Source.pieces, h0, if_true] at h
      exact runs_pure (h I v (.of_grow hw (.refl I n)) (.refl hI hin))
    · have hmod := Nat.mod_lt off hpos
      simp only [Source.pieces, if_neg h0] at h
      set m := min len (BSIZE - off % BSIZE) with hm
      have hplen : (src.piece μ.user tot m).1.length ≤ m := Source.length_piece_le
      have hbn : off / BSIZE < MAXFILE := by
        rw [Nat.div_lt_iff_lt_mul hpos]
        omega
      refine runs_bind (runs_bmap hw hs hI hn hin hidle hop hbn (hE 0 (by omega))
        fun b J v₁ hmap hv₁ => ?_)
      obtain ⟨hw₁, hgrow, hplace, hne⟩ := hmap
      have hput := hw₁.overwrites_splice (l := (src.piece μ.user tot m).1) hs (by rwa [hplace])
        (by omega)
      rw [hplace, ← hv₁.content] at hput
      have hgrown : Image.Overwrites sb n I J off [] := .of_grow hw₁ hgrow
      have hover := hgrown.trans hput rfl
      rw [List.nil_append] at hover
      refine runs_bind (runs_bread ((hv₁.idle hidle).clear b) fun i hi => ?_)
      refine runs_bind (runs_either_copyin fun l ok hp => ?_)
      refine runs_bind (runs_load (View.hold_held ..) ?_)
      rw [hp] at h hplen hover
      cases ok with
      | true =>
        have hlen : l.length = m := by
          have := Source.length_piece (hfull.mono (by omega)) (congrArg Prod.snd hp)
          rwa [hp] at this
        simp only [if_true] at h ⊢
        have hJn := hover.allocated.mpr hn
        refine runs_write hi (hv₁.op hop) (ih hJn (off + m) (len - m) (tot + m) ?_ hover.wf ?_ ?_
          (hv₁.idle hidle).log (by simpa using hv₁.op hop) (hfull.mono (by omega)) (by omega)
          (by omega) fun K v' hK hv' => ?_)
        · intro j hj h0
          refine hE (m + j) (by omega) ?_
          by_contra hne
          rw [← Nat.add_assoc] at hne
          exact hne ((hover.keeps _ hne).symm.trans h0)
        · rw [View.log_content, hv₁.content]
          rfl
        · rw [View.log_kern, hv₁.inode]
          rfl
        · have hall := hover.trans hK (by rw [hlen])
          rw [← List.append_assoc] at hall
          have hQ := h K v' hall (hv₁.trans ⟨hv'.content, hv'.held, hv'.kern,
            fun ho => hv'.op (by simpa using ho)⟩)
          rwa [List.length_append, hlen, ← Nat.add_assoc, ← Nat.add_assoc] at hQ
      | false =>
        simp only [Bool.false_eq_true, if_false] at h ⊢
        refine runs_bind (runs_store (View.hold_held ..) ?_)
        rw [View.hold_hold]
        refine runs_bind (runs_brelse_dirty (View.hold_held ..) ?_)
        rw [View.setContent_hold, View.hold_release (v := v₁.setContent _ _) hi]
        refine runs_pure (h _ _ hover (hv₁.trans ⟨?_, rfl, ?_, id⟩))
        · rw [View.setContent_content, hv₁.content]
          rfl
        · exact (View.Moves.refl hv₁.content (by rw [hv₁.inode])).kern

theorem runs_iupdate (hI : v.content = I.content) (hin : (v.kern.inode ip).din = I.din n)
    (hnum : (v.kern.inode ip).inum = n) (hidle : v.Idle) (hop : v.op ≠ none) {Q : Unit → View → Prop}
    (h : ∀ v', v.Moves v' ip n (I.save sb n) → Q () v') : Runs μ (iupdate sb ip) Q v := by
  refine runs_bind (runs_inode ?_)
  rw [hin, hnum]
  refine runs_read (hidle.clear _) fun i hi => runs_write_last hi hop (h _ ⟨?_, rfl, ?_, ?_⟩)
  · rw [View.log_content, hI]
    rfl
  · exact (View.Moves.refl hI hin).kern
  · intro _
    simpa using hop

/-- The bytes that `writei` writes. -/
def Source.written (src : Source) (user : ℕ → Option UInt8) (off len : ℕ) : List UInt8 :=
  (src.pieces user len off len 0).1

/-- What a copy that fails has put into the buffer. -/
def Source.spilled (src : Source) (user : ℕ → Option UInt8) (off len : ℕ) : List UInt8 :=
  (src.pieces user len off len 0).2

theorem Source.length_pieces_le (fuel off len tot : ℕ) :
    (src.pieces user fuel off len tot).1.length ≤ len := by
  induction fuel generalizing off len tot with
  | zero => exact Nat.zero_le _
  | succ fuel ih =>
    unfold Source.pieces
    split
    · exact Nat.zero_le _
    · dsimp only
      split
      · have hp : (src.piece user tot (min len (BSIZE - off % BSIZE))).1.length ≤ _ :=
          Source.length_piece_le
        have hrest := ih (off + min len (BSIZE - off % BSIZE)) (len - min len (BSIZE - off % BSIZE))
          (tot + min len (BSIZE - off % BSIZE))
        simp only [List.length_append]
        omega
      · exact Nat.zero_le _

/-- **`writei` writes bytes of the source.** It fails for an offset beyond the end and for a write
beyond the maximal size, and then changes nothing. -/
theorem runs_writei (hw : I.Wf sb) (hs : Sane sb) (hI : v.content = I.content)
    (hn : I.Allocated sb n) (hin : (v.kern.inode ip).din = I.din n)
    (hnum : (v.kern.inode ip).inum = n) (hidle : v.Idle) (hop : v.op ≠ none) (hfull : src.Full len)
    (hE : ∀ j, j < len → I.place sb n (.data ((off + j) / BSIZE)) = 0 → μ.Fills sb)
    {Q : Option ℕ → View → Prop}
    (hbad : (I.din n).size < off ∨ MAXFILE * BSIZE < off + len → Q none v)
    (h : off ≤ (I.din n).size → off + len ≤ MAXFILE * BSIZE → ∀ J v',
      Image.Written sb n I J off (src.written μ.user off len) (src.spilled μ.user off len) →
      v.Moves v' ip n J →
      Q (some (src.written μ.user off len).length) v') : Runs μ (writei sb ip src off len) Q v := by
  have hsize := hw.size n hn
  have hbig : MAXFILE * BSIZE < 2 ^ 32 := by decide
  refine runs_bind (runs_inode ?_)
  rw [hin]
  refine Prog.ensures_ite (fun hout => runs_pure (hbad ?_)) fun hin' => ?_
  · rcases hout with hout | hwrap
    · exact .inl hout
    · refine .inr (Nat.lt_of_not_le fun hle => ?_)
      rw [Nat.mod_eq_of_lt (by omega)] at hwrap
      omega
  · refine Prog.ensures_ite (fun hlong => runs_pure (hbad (.inr hlong))) fun hshort => ?_
    have hoff : off ≤ (I.din n).size := by omega
    refine runs_bind (runs_writeiFrom hs hn len off len 0 hE hw hI hin hidle hop
      (by rwa [Nat.zero_add]) le_rfl (by omega) fun J v₁ hover hv₁ => ?_)
    have hlen : (src.pieces μ.user len off len 0).1.length ≤ len :=
      Source.length_pieces_le len off len 0
    have hwritten := hover.written hw hs hn hoff (by omega)
    refine runs_bind (runs_inode ?_)
    rw [hv₁.inode, Nat.zero_add]
    have hJsize : (J.din n).size = (I.din n).size := by rw [hover.din]
    -- the inode in memory after the size has been set
    have hfinish : ∀ v₂ : View, v₁.Moves v₂ ip n (J.setDin n { J.din n with
        size := max (I.din n).size (off + (src.pieces μ.user len off len 0).1.length) }) →
        Runs μ (do
          iupdate sb ip
          return some (src.pieces μ.user len off len 0).1.length) Q v₂ := by
      intro v₂ hv₂
      refine runs_bind (runs_iupdate hv₂.content (by rw [hv₂.inode]) ?_ (hv₂.idle (hv₁.idle hidle))
        (hv₂.op (hv₁.op hop)) fun v₃ hv₃ => runs_pure ?_)
      · rw [hv₂.inode, hv₁.inode]
        exact hnum
      · exact h hoff (by omega) _ v₃ hwritten ((hv₁.trans hv₂).trans hv₃)
    refine runs_bind (Prog.ensures_when (fun hgt => ?_) fun hle => ?_)
    · have hgt : (J.din n).size < off + (src.pieces μ.user len off len 0).1.length := by
        simpa using hgt
      refine runs_setDinode (hfinish _ ⟨hv₁.content, rfl, ?_, id⟩)
      rw [View.setKern_kern, Image.setDin_din, Function.update_self, max_eq_right (by omega)]
    · have hle : ¬ (J.din n).size < off + (src.pieces μ.user len off len 0).1.length := by
        simpa using hle
      refine hfinish v₁ ⟨hv₁.content, rfl, ?_, id⟩
      rw [Image.setDin_din, Function.update_self, max_eq_left (by omega), ← hJsize]
      exact (View.Moves.refl hv₁.content (by rw [hv₁.inode])).kern

end Xv6.Fs
