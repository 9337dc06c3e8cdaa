import Xv6.Mem.UserOps

/-!
# Copying between the kernel and user memory

`copyout`, `copyin` and `copyinstr` go through user memory page by page. What they do is stated here
byte by byte, for any page table: an address is readable if it lies below `MAXVA` in a page that is
mapped for the user, and the functions stop at the first one that is not. `reach` counts how far they
get, and `scanStr` reads a string one byte at a time. A range that wraps around 2^64 has an address
above `MAXVA` first, so it stops there.
-/

namespace Xv6.Mem

open Lib (Bytes Code)

/-! ### Going through addresses one by one -/

/-- How many of the `n` numbers from `a` on satisfy `p` before one that does not. -/
def reach (p : ℕ → Prop) [DecidablePred p] : ℕ → ℕ → ℕ
  | 0, _ => 0
  | n + 1, a => if p a then reach p n (a + 1) + 1 else 0

/-- The result of reading bytes up to a NUL, at most `n` from `a` on; `f` gives the bytes. -/
def scanStr (f : ℕ → Option UInt8) : ℕ → ℕ → ℤ × List UInt8
  | 0, _ => (-1, [])
  | n + 1, a =>
    match f a with
    | none => (-1, [])
    | some b => if b = 0 then (0, []) else ((scanStr f n (a + 1)).1, b :: (scanStr f n (a + 1)).2)

section reach

variable {p : ℕ → Prop} [DecidablePred p] {n a k : ℕ}

theorem reach_le : reach p n a ≤ n := by
  induction n generalizing a with
  | zero => exact le_rfl
  | succ n ih =>
    rw [reach]
    split
    · exact Nat.succ_le_succ ih
    · exact Nat.zero_le _

theorem reach_spec {i : ℕ} (hi : i < reach p n a) : p (a + i) := by
  induction n generalizing a i with
  | zero => exact absurd hi (Nat.not_lt_zero i)
  | succ n ih =>
    rw [reach] at hi
    split at hi
    · rename_i ha
      cases i with
      | zero => exact ha
      | succ i =>
        rw [Nat.add_comm i, ← Nat.add_assoc]
        exact ih (Nat.lt_of_succ_lt_succ hi)
    · exact absurd hi (Nat.not_lt_zero i)

theorem reach_stop (h : reach p n a ≠ n) : ¬ p (a + reach p n a) := by
  induction n generalizing a with
  | zero => exact absurd rfl h
  | succ n ih =>
    rw [reach] at h ⊢
    split
    · rename_i ha
      rw [if_pos ha] at h
      have hne : reach p n (a + 1) ≠ n := fun he => h (congrArg (· + 1) he)
      rw [Nat.add_comm (reach p n (a + 1)), ← Nat.add_assoc]
      exact ih hne
    · assumption

theorem reach_eq_iff : reach p n a = n ↔ ∀ i, i < n → p (a + i) := by
  constructor
  · intro h i hi
    exact reach_spec (h.symm ▸ hi)
  · intro h
    by_contra hne
    exact reach_stop hne (h _ (lt_of_le_of_ne reach_le hne))

/-- The first `k` numbers satisfy `p`. -/
theorem reach_add (h : ∀ i, i < k → p (a + i)) (hk : k ≤ n) :
    reach p n a = k + reach p (n - k) (a + k) := by
  induction k generalizing n a with
  | zero => rw [Nat.zero_add, Nat.sub_zero, Nat.add_zero]
  | succ k ih =>
    obtain ⟨n, rfl⟩ := Nat.exists_eq_add_of_lt (Nat.lt_of_succ_le hk)
    have hnext := ih (n := k + n) (a := a + 1)
      (fun i hi => by rw [Nat.add_right_comm, Nat.add_assoc]; exact h (i + 1) (by omega)) (by omega)
    have ha : p a := h 0 (Nat.succ_pos k)
    rw [reach, if_pos ha, hnext,
      show a + 1 + k = a + (k + 1) by omega, show k + n - k = k + n + 1 - (k + 1) by omega]
    omega

theorem reach_congr {q : ℕ → Prop} [DecidablePred q] (h : ∀ a, q a ↔ p a) :
    reach q n a = reach p n a := by
  induction n generalizing a with
  | zero => rfl
  | succ n ih =>
    rw [reach, reach, ih]
    exact if_congr (h a) rfl rfl

end reach

section scan

variable {f g : ℕ → Option UInt8} {n a k : ℕ}

/-- A string of length `k`: bytes that are not NUL, followed by one that is. -/
structure IsStr (f : ℕ → Option UInt8) (a k : ℕ) : Prop where
  bytes : ∀ i, i < k → ∃ b, f (a + i) = some b ∧ b ≠ 0
  nul : f (a + k) = some 0

theorem IsStr.tail (h : IsStr f a (k + 1)) : IsStr f (a + 1) k where
  bytes i hi := by
    rw [Nat.add_right_comm, Nat.add_assoc]
    exact h.bytes (i + 1) (Nat.succ_lt_succ hi)
  nul := by
    rw [Nat.add_right_comm, Nat.add_assoc]
    exact h.nul

theorem IsStr.cons {b : UInt8} (h : IsStr f (a + 1) k) (ha : f a = some b) (hb : b ≠ 0) :
    IsStr f a (k + 1) where
  bytes i hi := by
    cases i with
    | zero => exact ⟨b, ha, hb⟩
    | succ i =>
      rw [Nat.add_comm i, ← Nat.add_assoc]
      exact h.bytes i (Nat.lt_of_succ_lt_succ hi)
  nul := by
    rw [Nat.add_comm k, ← Nat.add_assoc]
    exact h.nul

/-- What the scan returns when there is a string. -/
theorem scanStr_of_isStr (h : IsStr f a k) (hk : k < n) :
    scanStr f n a = (0, (List.range k).map fun i => (f (a + i)).getD 0) := by
  induction k generalizing n a with
  | zero =>
    obtain ⟨n, rfl⟩ := Nat.exists_eq_succ_of_ne_zero hk.ne'
    have hnul : f a = some 0 := h.nul
    rw [scanStr, hnul]
    rfl
  | succ k ih =>
    obtain ⟨n, rfl⟩ := Nat.exists_eq_succ_of_ne_zero (Nat.ne_of_gt (Nat.zero_lt_of_lt hk))
    obtain ⟨b, hb, hne⟩ := h.bytes 0 (Nat.succ_pos k)
    have ha : f a = some b := hb
    rw [scanStr, ha]
    dsimp only
    rw [if_neg hne, ih h.tail (Nat.lt_of_succ_lt_succ hk), List.range_succ_eq_map, List.map_cons,
      List.map_map]
    have htail : ∀ i, a + 1 + i = a + (i + 1) := fun i => by omega
    simp only [Nat.add_zero, ha, Option.getD_some, Function.comp_def, htail, Nat.succ_eq_add_one]

/-- The scan succeeds only on a string. -/
theorem isStr_of_scanStr (h : (scanStr f n a).1 = 0) : ∃ k, k < n ∧ IsStr f a k := by
  induction n generalizing a with
  | zero => exact absurd (show (-1 : ℤ) = 0 from h) (by decide)
  | succ n ih =>
    rw [scanStr] at h
    cases hf : f a with
    | none =>
      rw [hf] at h
      exact absurd (show (-1 : ℤ) = 0 from h) (by decide)
    | some b =>
      rw [hf] at h
      dsimp only at h
      by_cases hb : b = 0
      · subst hb
        exact ⟨0, Nat.succ_pos n, fun i hi => absurd hi (Nat.not_lt_zero i), hf⟩
      · rw [if_neg hb] at h
        obtain ⟨k, hk, hstr⟩ := ih h
        exact ⟨k + 1, Nat.succ_lt_succ hk, hstr.cons hf hb⟩

theorem scanStr_fst : (scanStr f n a).1 = 0 ∨ (scanStr f n a).1 = -1 := by
  induction n generalizing a with
  | zero => exact .inr rfl
  | succ n ih =>
    rw [scanStr]
    cases f a with
    | none => exact .inr rfl
    | some b =>
      dsimp only
      split
      · exact .inl rfl
      · exact ih

theorem scanStr_length : (scanStr f n a).2.length ≤ n := by
  induction n generalizing a with
  | zero => exact le_rfl
  | succ n ih =>
    rw [scanStr]
    cases f a with
    | none => exact Nat.zero_le _
    | some b =>
      dsimp only
      split
      · exact Nat.zero_le _
      · exact Nat.succ_le_succ ih

/-- The scan looks only at the bytes up to the first NUL or gap, and at no more than `n`. -/
theorem scanStr_congr (h : ∀ i, i < n → (∀ j, j < i → ∃ b, f (a + j) = some b ∧ b ≠ 0) →
    g (a + i) = f (a + i)) : scanStr g n a = scanStr f n a := by
  induction n generalizing a with
  | zero => rfl
  | succ n ih =>
    have ha : g a = f a := h 0 (Nat.succ_pos n) fun j hj => absurd hj (Nat.not_lt_zero j)
    rw [scanStr, scanStr, ha]
    cases hf : f a with
    | none => rfl
    | some b =>
      dsimp only
      by_cases hb : b = 0
      · rw [if_pos hb, if_pos hb]
      · have hnext : scanStr g n (a + 1) = scanStr f n (a + 1) := by
          refine ih fun i hi hbefore => ?_
          rw [Nat.add_right_comm, Nat.add_assoc]
          refine h (i + 1) (Nat.succ_lt_succ hi) fun j hj => ?_
          cases j with
          | zero => exact ⟨b, hf, hb⟩
          | succ j =>
            obtain ⟨c, hc, hne⟩ := hbefore j (Nat.lt_of_succ_lt_succ hj)
            exact ⟨c, by rw [← hc, Nat.add_comm j, Nat.add_assoc], hne⟩
        rw [if_neg hb, if_neg hb, hnext]

/-- Scanning a stretch that lies together in memory, as the inner loop of `copyinstr` does. -/
theorem scanStr_take {m : Bytes} {q : ℕ} (h : ∀ i, i < k → f (a + i) = some (m (q + i)))
    (hk : k ≤ n) : scanStr f n a =
      if (takeStr m k q).2 then (0, (takeStr m k q).1)
      else ((scanStr f (n - k) (a + k)).1, (takeStr m k q).1 ++ (scanStr f (n - k) (a + k)).2) := by
  induction k generalizing n a q with
  | zero => rfl
  | succ k ih =>
    obtain ⟨n, rfl⟩ := Nat.exists_eq_succ_of_ne_zero (Nat.ne_of_gt (Nat.zero_lt_of_lt hk))
    have ha : f a = some (m q) := h 0 (Nat.succ_pos k)
    rw [scanStr, ha, takeStr]
    dsimp only
    by_cases hb : m q = 0
    · rw [if_pos hb, if_pos hb, if_pos rfl]
    · have hnext := ih (n := n) (a := a + 1) (q := q + 1) (fun i hi => by
        rw [Nat.add_right_comm, Nat.add_assoc, Nat.add_right_comm q, Nat.add_assoc q]
        exact h (i + 1) (Nat.succ_lt_succ hi)) (Nat.le_of_succ_le_succ hk)
      rw [if_neg hb, if_neg hb, hnext, show n + 1 - (k + 1) = n - k by omega,
        show a + (k + 1) = a + 1 + k by omega]
      dsimp only
      split
      · rfl
      · rfl

end scan

/-! ### Strings -/

/-- The byte that the user sees at an address, if the address is mapped for the user. -/
def userByte (m : Bytes) (root va : ℕ) : Option UInt8 :=
  if UserMapped m root va then some (m (userAddr m root va)) else none

/-- What `copyinstr` stored at its destination: the string, with the NUL if it found one. -/
def storedStr (r : ℤ × List UInt8) : List UInt8 := if r.1 < 0 then r.2 else r.2 ++ [0]

section bytes

variable {s : Phys} {m : Bytes} {root va i : ℕ}

theorem sub_PGROUNDDOWN (va : ℕ) : va - PGROUNDDOWN va = va % 4096 := by
  rw [PGROUNDDOWN_eq]
  omega

theorem PGROUNDDOWN_div (va : ℕ) : PGROUNDDOWN va / 4096 = va / 4096 := by
  rw [PGROUNDDOWN_eq]
  omega

theorem userMapped_PGROUNDDOWN : UserMapped m root (PGROUNDDOWN va) ↔ UserMapped m root va :=
  ⟨fun h => h.congr (PGROUNDDOWN_div va).symm, fun h => h.congr (PGROUNDDOWN_div va)⟩

theorem userAddr_add (hi : va % 4096 + i < 4096) :
    userAddr m root (va + i) = PTE2PA (pteOf m root va) + va % 4096 + i := by
  rw [userAddr, pteOf_congr (show (va + i) / 4096 = va / 4096 by omega)]
  omega

theorem UserMapped.add (h : UserMapped m root va) (hi : va % 4096 + i < 4096) :
    UserMapped m root (va + i) := h.congr (by omega)

/-- The rest of a page lies together in physical memory. -/
theorem userByte_add (h : UserMapped m root va) (hi : va % 4096 + i < 4096) :
    userByte m root (va + i) = some (m (PTE2PA (pteOf m root va) + va % 4096 + i)) := by
  rw [userByte, if_pos (h.add hi), userAddr_add hi]

theorem next_page (h : UserMapped m root va) :
    (PGROUNDDOWN va + PGSIZE) % 2 ^ 64 = va + (PGSIZE - va % 4096) := by
  have hlow := h.low
  rw [MAXVA_eq] at hlow
  rw [PGROUNDDOWN_eq, PGSIZE_eq]
  omega

/-- The loop of `copyinstr` scans the bytes that the user sees. -/
theorem copyinstrLoop_read (fuel : ℕ) (dst : List UInt8) (srcva max : ℕ) (hfuel : max ≤ fuel) :
    Code.wp (copyinstrLoop root fuel dst srcva max) (fun r s' => s' = s ∧
      r = ((scanStr (userByte s.mem root) max srcva).1,
        dst ++ (scanStr (userByte s.mem root) max srcva).2)) s := by
  induction fuel generalizing dst srcva max with
  | zero =>
    obtain rfl := Nat.le_zero.mp hfuel
    exact ⟨rfl, by rw [scanStr, List.append_nil]⟩
  | succ fuel ih =>
    rw [copyinstrLoop, Code.wp_ite]
    refine ⟨fun h0 => ⟨rfl, by rw [h0, scanStr, List.append_nil]⟩, fun hmax => ?_⟩
    rw [Code.wp_bind]
    apply Code.wp_mono walkaddr_read
    rintro pa s' ⟨rfl, hres⟩
    rw [userMapped_PGROUNDDOWN, pteOf_congr (PGROUNDDOWN_div srcva)] at hres
    obtain ⟨max, rfl⟩ := Nat.exists_eq_succ_of_ne_zero hmax
    rcases hres with ⟨hmap, rfl⟩ | ⟨hmap, rfl⟩
    · have hoff : srcva % 4096 < 4096 := Nat.mod_lt _ (by decide)
      rw [if_neg hmap.page, Code.wp_bind, Code.wp_get, sub_PGROUNDDOWN, next_page hmap]
      generalize hcut : min (PGSIZE - srcva % 4096) (max + 1) = cut
      rw [PGSIZE_eq] at hcut
      have hscan := scanStr_take (n := max + 1) (fun i (hi : i < cut) =>
        userByte_add hmap (show srcva % 4096 + i < 4096 by omega)) (by omega)
      generalize takeStr s'.mem cut (PTE2PA (pteOf s'.mem root srcva) + srcva % 4096) = part at hscan
      obtain ⟨part, found⟩ := part
      rw [hscan]
      cases found with
      | true => exact ⟨rfl, rfl⟩
      | false =>
        -- the rest is read from the next page, unless `max` bytes have been read
        have hrest : scanStr (userByte s'.mem root) (max + 1 - cut) (srcva + cut) =
            scanStr (userByte s'.mem root) (max + 1 - cut) (srcva + (PGSIZE - srcva % 4096)) := by
          by_cases hend : max + 1 - cut = 0
          · rw [hend, scanStr, scanStr]
          · rw [PGSIZE_eq, show 4096 - srcva % 4096 = cut by omega]
        rw [if_neg Bool.false_ne_true, hrest]
        apply Code.wp_mono (ih (dst ++ part) _ (max + 1 - cut) (by omega))
        rintro r s'' ⟨rfl, rfl⟩
        rw [List.append_assoc]
        exact ⟨rfl, rfl⟩
    · have hnone : userByte s'.mem root srcva = none := if_neg hmap
      rw [if_pos rfl, scanStr, hnone]
      exact ⟨rfl, by rw [List.append_nil]⟩

theorem copyinstr_read (srcva max : ℕ) :
    Code.wp (copyinstr root srcva max) (fun r s' => s' = s ∧
      r = scanStr (userByte s.mem root) max srcva) s :=
  copyinstrLoop_read max [] srcva max le_rfl

/-- `copyinstr` succeeds exactly when there is a NUL among the first `max` bytes with everything
before it mapped, and then stores the string with its NUL. It stores at most `max` bytes, and what it
does depends only on the bytes up to the first NUL or the first address that is not mapped, and on no
more than `max` of them. -/
theorem copyinstr_string (s : Phys) (root srcva max : ℕ) :
    Code.wp (copyinstr root srcva max) (fun r s' => s' = s ∧ (r.1 = 0 ∨ r.1 = -1) ∧
      (r.1 = 0 ↔ ∃ k, k < max ∧ IsStr (userByte s.mem root) srcva k) ∧
      (∀ k, k < max → IsStr (userByte s.mem root) srcva k → storedStr r =
        (List.range (k + 1)).map fun i => (userByte s.mem root (srcva + i)).getD 0) ∧
      (storedStr r).length ≤ max ∧
      ∀ t : Phys, (∀ i, i < max →
          (∀ j, j < i → ∃ b, userByte s.mem root (srcva + j) = some b ∧ b ≠ 0) →
          userByte t.mem root (srcva + i) = userByte s.mem root (srcva + i)) →
        Code.wp (copyinstr root srcva max) (fun r' t' => t' = t ∧ r' = r) t) s := by
  apply Code.wp_mono (copyinstr_read srcva max)
  rintro r s' ⟨rfl, rfl⟩
  have hstr : ∀ k, k < max → IsStr (userByte s'.mem root) srcva k →
      storedStr (scanStr (userByte s'.mem root) max srcva) =
        (List.range (k + 1)).map fun i => (userByte s'.mem root (srcva + i)).getD 0 := by
    intro k hk h
    rw [scanStr_of_isStr h hk, storedStr, if_neg (lt_irrefl (0 : ℤ)), List.range_succ, List.map_append,
      List.map_singleton, h.nul, Option.getD_some]
  refine ⟨rfl, scanStr_fst, ⟨isStr_of_scanStr, ?_⟩, hstr, ?_, ?_⟩
  · rintro ⟨k, hk, h⟩
    rw [scanStr_of_isStr h hk]
  · rcases scanStr_fst (f := userByte s'.mem root) (n := max) (a := srcva) with hok | hfail
    · obtain ⟨k, hk, h⟩ := isStr_of_scanStr hok
      rw [hstr k hk h, List.length_map, List.length_range]
      exact hk
    · rw [storedStr, if_pos (by rw [hfail]; decide)]
      exact scanStr_length
  · intro t hsame
    apply Code.wp_mono (copyinstr_read srcva max)
    rintro r t' ⟨rfl, rfl⟩
    exact ⟨rfl, scanStr_congr hsame⟩

end bytes

/-! ### `copyin` -/

/-- The bytes `dst` after `k` bytes that the user sees from `srcva` on were copied to `pos`. -/
def gather (m : Bytes) (root srcva : ℕ) (dst : Bytes) (pos k : ℕ) : Bytes := fun x =>
  if pos ≤ x ∧ x < pos + k then m (userAddr m root (srcva + (x - pos))) else dst x

section copyin

variable {s : Phys} {m : Bytes} {root srcva pos k n : ℕ} {dst : Bytes}

theorem gather_zero : gather m root srcva dst pos 0 = dst := by
  funext x
  exact if_neg (by omega)

theorem gather_page (hn : srcva % 4096 + n ≤ 4096) :
    dst.copy pos n m (PTE2PA (pteOf m root srcva) + srcva % 4096) = gather m root srcva dst pos n := by
  funext x
  unfold gather Bytes.copy
  by_cases hx : pos ≤ x ∧ x < pos + n
  · rw [if_pos hx, if_pos hx, userAddr_add (by omega)]
  · rw [if_neg hx, if_neg hx]

theorem gather_add : gather m root (srcva + n) (gather m root srcva dst pos n) (pos + n) k =
    gather m root srcva dst pos (n + k) := by
  funext x
  unfold gather
  by_cases h1 : pos + n ≤ x ∧ x < pos + n + k
  · rw [if_pos h1, if_pos (by omega), show srcva + n + (x - (pos + n)) = srcva + (x - pos) by omega]
  · rw [if_neg h1]
    by_cases h2 : pos ≤ x ∧ x < pos + n
    · rw [if_pos h2, if_pos (by omega)]
    · rw [if_neg h2, if_neg (by omega)]

/-- The loop of `copyin` delivers the bytes up to the first address that is not mapped. -/
theorem copyinLoop_read (fuel : ℕ) (dst : Bytes) (pos srcva len : ℕ) (hfuel : len ≤ fuel) :
    Code.wp (copyinLoop root fuel dst pos srcva len) (fun r s' => s' = s ∧
      r.1 = (if reach (UserMapped s.mem root) len srcva = len then 0 else -1) ∧
      r.2 = gather s.mem root srcva dst pos (reach (UserMapped s.mem root) len srcva)) s := by
  induction fuel generalizing dst pos srcva len with
  | zero =>
    obtain rfl := Nat.le_zero.mp hfuel
    exact ⟨rfl, rfl, gather_zero.symm⟩
  | succ fuel ih =>
    rw [copyinLoop, Code.wp_ite]
    refine ⟨fun h0 => by subst h0; exact ⟨rfl, rfl, gather_zero.symm⟩, fun hlen => ?_⟩
    rw [Code.wp_bind]
    apply Code.wp_mono walkaddr_read
    rintro pa s' ⟨rfl, hres⟩
    rw [userMapped_PGROUNDDOWN, pteOf_congr (PGROUNDDOWN_div srcva)] at hres
    rcases hres with ⟨hmap, rfl⟩ | ⟨hmap, rfl⟩
    · have hoff : srcva % 4096 < 4096 := Nat.mod_lt _ (by decide)
      rw [if_neg hmap.page, Code.wp_bind, Code.wp_get, sub_PGROUNDDOWN, next_page hmap]
      generalize hcut : min (PGSIZE - srcva % 4096) len = cut
      rw [PGSIZE_eq] at hcut
      rw [gather_page (by omega), reach_add (k := cut) (fun i hi => hmap.add (by omega)) (by omega)]
      -- the rest comes from the next page, unless all bytes have been copied
      have hrest : reach (UserMapped s'.mem root) (len - cut) (srcva + (PGSIZE - srcva % 4096)) =
            reach (UserMapped s'.mem root) (len - cut) (srcva + cut) ∧
          gather s'.mem root (srcva + (PGSIZE - srcva % 4096)) (gather s'.mem root srcva dst pos cut)
              (pos + cut) (reach (UserMapped s'.mem root) (len - cut) (srcva + cut)) =
            gather s'.mem root (srcva + cut) (gather s'.mem root srcva dst pos cut)
              (pos + cut) (reach (UserMapped s'.mem root) (len - cut) (srcva + cut)) := by
        by_cases hend : len - cut = 0
        · rw [hend]
          exact ⟨rfl, by rw [reach, gather_zero, gather_zero]⟩
        · rw [PGSIZE_eq, show 4096 - srcva % 4096 = cut by omega]
          exact ⟨rfl, rfl⟩
      apply Code.wp_mono (ih _ _ _ (len - cut) (by omega))
      rintro r s'' ⟨rfl, hr, hd⟩
      rw [hrest.1] at hr hd
      rw [hrest.2, gather_add] at hd
      refine ⟨rfl, ?_, hd⟩
      rw [hr]
      exact if_congr (by omega) rfl rfl
    · have hzero : reach (UserMapped s'.mem root) len srcva = 0 := by
        obtain ⟨len, rfl⟩ := Nat.exists_eq_succ_of_ne_zero hlen
        exact if_neg hmap
      rw [if_pos rfl, hzero, if_neg (Ne.symm hlen), gather_zero]
      exact ⟨rfl, rfl, rfl⟩

end copyin

/-! ### `copyout` -/

/-- The pages that the user can access are different pages, and none of them is a page-table page. -/
structure UserApart (m : Bytes) (root : ℕ) : Prop where
  root_page : root % 4096 = 0
  inj : ∀ va va', UserMapped m root va → UserMapped m root va' →
    PTE2PA (pteOf m root va) = PTE2PA (pteOf m root va') → va / 4096 = va' / 4096
  tables : ∀ va, UserMapped m root va → TablesOff m root {PTE2PA (pteOf m root va)}

/-- In `m'` the `k` bytes that the user sees from `dstva` on come from `src`; the rest is as in `m`. -/
structure Scattered (m : Bytes) (root dstva : ℕ) (source : Bytes) (src k : ℕ) (m' : Bytes) : Prop where
  written : ∀ i, i < k → m' (userAddr m root (dstva + i)) = source (src + i)
  rest : ∀ x, (∀ i, i < k → userAddr m root (dstva + i) ≠ x) → m' x = m x

/-- The two memories hold the same page table. -/
structure SameTable (m : Bytes) (root : ℕ) (m' : Bytes) : Prop where
  follow_eq : ∀ path, path.length ≤ 2 → follow m' root path = follow m root path
  pteAddr_eq : ∀ va, pteAddr m' root va = pteAddr m root va
  pteOf_eq : ∀ va, pteOf m' root va = pteOf m root va

section copyout

variable {s : Phys} {m m' m'' : Bytes} {root va va' dstva src k n : ℕ} {source : Bytes}

theorem TablesOff.sameTable {T : Set ℕ} (hoff : TablesOff m root T) (hroot : root % 4096 = 0)
    (hm : SameOff T m m') : SameTable m root m' where
  follow_eq _ hlen := hoff.follow_eq hroot hm hlen
  pteAddr_eq _ := hoff.pteAddr_eq hroot hm
  pteOf_eq _ := hoff.pteOf_eq hroot hm

theorem SameTable.userMapped (h : SameTable m root m') :
    UserMapped m' root va ↔ UserMapped m root va := by
  constructor
  · rintro ⟨h1, h2, h3, h4, h5⟩
    rw [h.pteAddr_eq] at h2
    rw [h.pteOf_eq] at h3 h4 h5
    exact ⟨h1, h2, h3, h4, h5⟩
  · rintro ⟨h1, h2, h3, h4, h5⟩
    rw [← h.pteAddr_eq] at h2
    rw [← h.pteOf_eq] at h3 h4 h5
    exact ⟨h1, h2, h3, h4, h5⟩

theorem SameTable.userAddr (h : SameTable m root m') : userAddr m' root va = userAddr m root va := by
  rw [Mem.userAddr, h.pteOf_eq, Mem.userAddr]

theorem SameTable.trans (h : SameTable m root m') (h' : SameTable m' root m'') :
    SameTable m root m'' where
  follow_eq path hlen := (h'.follow_eq path hlen).trans (h.follow_eq path hlen)
  pteAddr_eq va := (h'.pteAddr_eq va).trans (h.pteAddr_eq va)
  pteOf_eq va := (h'.pteOf_eq va).trans (h.pteOf_eq va)

theorem UserApart.same (h : UserApart m root) (ht : SameTable m root m') : UserApart m' root where
  root_page := h.root_page
  inj va va' h1 h2 he := by
    rw [ht.pteOf_eq, ht.pteOf_eq] at he
    exact h.inj va va' (ht.userMapped.mp h1) (ht.userMapped.mp h2) he
  tables va h1 path page hlen hpath := by
    rw [ht.follow_eq path hlen] at hpath
    rw [ht.pteOf_eq]
    exact h.tables va (ht.userMapped.mp h1) path page hlen hpath

theorem UserApart.addr_inj (h : UserApart m root) (h1 : UserMapped m root va)
    (h2 : UserMapped m root va') (he : userAddr m root va = userAddr m root va') : va = va' := by
  have hal := PTE2PA_aligned (pteOf m root va)
  have hal' := PTE2PA_aligned (pteOf m root va')
  unfold userAddr at he
  have hpage := h.inj va va' h1 h2 (by omega)
  omega

theorem UserApart.put (source : Bytes) (src : ℕ) (h : UserApart m root)
    (hmap : UserMapped m root dstva) (hn : dstva % 4096 + n ≤ 4096) :
    SameTable m root (m.copy (PTE2PA (pteOf m root dstva) + dstva % 4096) n source src) ∧
      Scattered m root dstva source src n
        (m.copy (PTE2PA (pteOf m root dstva) + dstva % 4096) n source src) := by
  have hsame := sameOff_copy (m := m) source src (PTE2PA_aligned (pteOf m root dstva)) hn
  refine ⟨(h.tables dstva hmap).sameTable h.root_page hsame, fun i hi => ?_, fun x hx => ?_⟩
  · rw [userAddr_add (by omega), Bytes.copy_of_mem (by omega), Nat.add_sub_cancel_left]
  · refine Bytes.copy_of_not_mem fun hin => ?_
    refine hx (x - (PTE2PA (pteOf m root dstva) + dstva % 4096)) (by omega) ?_
    rw [userAddr_add (by omega)]
    omega

theorem Scattered.zero : Scattered m root dstva source src 0 m :=
  ⟨fun i hi => absurd hi (Nat.not_lt_zero i), fun _ _ => rfl⟩

theorem Scattered.append (h : UserApart m root) (hmap : ∀ i, i < n + k → UserMapped m root (dstva + i))
    (ht : SameTable m root m') (h1 : Scattered m root dstva source src n m')
    (h2 : Scattered m' root (dstva + n) source (src + n) k m'') :
    Scattered m root dstva source src (n + k) m'' where
  written i hi := by
    by_cases hin : i < n
    · rw [h2.rest _ fun j hj he => ?_]
      · exact h1.written i hin
      · rw [ht.userAddr, Nat.add_assoc] at he
        have := h.addr_inj (hmap (n + j) (by omega)) (hmap i hi) he
        omega
    · have hw := h2.written (i - n) (by omega)
      rw [ht.userAddr, show dstva + n + (i - n) = dstva + i by omega,
        show src + n + (i - n) = src + i by omega] at hw
      exact hw
  rest x hx := by
    rw [h2.rest x fun j hj he => ?_]
    · exact h1.rest x fun i hi => hx i (by omega)
    · rw [ht.userAddr, Nat.add_assoc] at he
      exact hx (n + j) (by omega) he

/-- The loop of `copyout` stores the bytes up to the first address that is not mapped. -/
theorem copyoutLoop_write (fuel : ℕ) (dstva src len : ℕ) (hfuel : len ≤ fuel)
    (h : UserApart s.mem root) :
    Code.wp (copyoutLoop root source fuel dstva src len) (fun r s' => ∃ m',
      s' = { s with mem := m' } ∧ SameTable s.mem root m' ∧
      r = (if reach (UserMapped s.mem root) len dstva = len then 0 else -1) ∧
      Scattered s.mem root dstva source src (reach (UserMapped s.mem root) len dstva) m') s := by
  have hself : SameTable s.mem root s.mem := ⟨fun _ _ => rfl, fun _ => rfl, fun _ => rfl⟩
  induction fuel generalizing s dstva src len with
  | zero =>
    obtain rfl := Nat.le_zero.mp hfuel
    exact ⟨s.mem, rfl, hself, rfl, .zero⟩
  | succ fuel ih =>
    rw [copyoutLoop, Code.wp_ite]
    refine ⟨fun h0 => by subst h0; exact ⟨s.mem, rfl, hself, rfl, .zero⟩, fun hlen => ?_⟩
    rw [Code.wp_bind]
    apply Code.wp_mono walkaddr_read
    rintro pa s' ⟨rfl, hres⟩
    rw [userMapped_PGROUNDDOWN, pteOf_congr (PGROUNDDOWN_div dstva)] at hres
    rcases hres with ⟨hmap, rfl⟩ | ⟨hmap, rfl⟩
    · have hoff : dstva % 4096 < 4096 := Nat.mod_lt _ (by decide)
      rw [if_neg hmap.page]
      simp only [memput, Code.wp_bind, Code.wp_modify, sub_PGROUNDDOWN, next_page hmap]
      generalize hcut : min (PGSIZE - dstva % 4096) len = cut
      rw [PGSIZE_eq] at hcut
      obtain ⟨ht, hput⟩ := h.put source src hmap (show dstva % 4096 + cut ≤ 4096 by omega)
      have hreach : reach (UserMapped s'.mem root) len dstva =
          cut + reach (UserMapped s'.mem root) (len - cut) (dstva + cut) :=
        reach_add (fun i hi => hmap.add (by omega)) (by omega)
      generalize s'.mem.copy (PTE2PA (pteOf s'.mem root dstva) + dstva % 4096) cut source src = m1
        at ht hput
      have hnext := ih (s := { s' with mem := m1 }) (dstva + (PGSIZE - dstva % 4096)) (src + cut)
        (len - cut) (by omega) (h.same ht) ⟨fun _ _ => rfl, fun _ => rfl, fun _ => rfl⟩
      apply Code.wp_mono hnext
      rintro r s'' ⟨m2, rfl, ht2, hr, hsc⟩
      have hsame : reach (UserMapped m1 root) (len - cut) (dstva + (PGSIZE - dstva % 4096)) =
          reach (UserMapped s'.mem root) (len - cut) (dstva + cut) := by
        rw [reach_congr fun a => ht.userMapped]
        by_cases hend : len - cut = 0
        · rw [hend, reach, reach]
        · rw [PGSIZE_eq, show 4096 - dstva % 4096 = cut by omega]
      dsimp only at hr hsc
      rw [hsame] at hr hsc
      refine ⟨m2, rfl, ht.trans ht2, ?_, ?_⟩
      · rw [hr, hreach]
        exact if_congr (by omega) rfl rfl
      · rw [hreach]
        refine Scattered.append h (fun i hi => reach_spec (hreach ▸ hi)) ht hput ?_
        by_cases hend : len - cut = 0
        · rw [hend] at hsc ⊢
          exact ⟨fun i hi => absurd hi (Nat.not_lt_zero i), fun x _ => hsc.rest x fun i hi =>
            absurd hi (Nat.not_lt_zero i)⟩
        · rwa [PGSIZE_eq, show 4096 - dstva % 4096 = cut by omega] at hsc
    · have hzero : reach (UserMapped s'.mem root) len dstva = 0 := by
        obtain ⟨len, rfl⟩ := Nat.exists_eq_succ_of_ne_zero hlen
        exact if_neg hmap
      rw [if_pos rfl, hzero, if_neg (Ne.symm hlen)]
      exact ⟨s'.mem, rfl, hself, rfl, .zero⟩

end copyout

/-! ### Any address and any length -/

/-- A virtual address below `MAXVA` whose entry is valid and can be used by the user. -/
structure UserLeaf (m : Bytes) (root va : ℕ) : Prop where
  low : va < MAXVA
  valid : pteOf m root va &&& PTE_V ≠ 0
  user : pteOf m root va &&& PTE_U ≠ 0

/-- The leaves that the user can use map different pages, none of them page 0. -/
structure UserPages (m : Bytes) (root : ℕ) : Prop where
  nonzero : ∀ va, UserLeaf m root va → PTE2PA (pteOf m root va) ≠ 0
  inj : ∀ va va', UserLeaf m root va → UserLeaf m root va' →
    PTE2PA (pteOf m root va) = PTE2PA (pteOf m root va') → va / 4096 = va' / 4096

/-- The page-table pages are pages, and the user cannot use any of them. -/
structure TablePages (m : Bytes) (root : ℕ) : Prop where
  root_page : root % 4096 = 0
  nonzero : ∀ path page, path.length ≤ 2 → follow m root path = some page → page ≠ 0
  apart : ∀ va, UserLeaf m root va → TablesOff m root {PTE2PA (pteOf m root va)}

/-- The result `r` of copying `len` bytes from or to the user address `va`, of which `k` were copied:
it is 0 exactly if all pages of the range can be used by the user, and otherwise the bytes before the
first page that cannot were copied. The range wraps around 2^64. -/
structure Outcome (m : Bytes) (root va len : ℕ) (r : ℤ) (k : ℕ) : Prop where
  result : r = 0 ∨ r = -1
  ok : r = 0 ↔ len = 0 ∨ ∀ i, i < len → UserLeaf m root ((va + i) % 2 ^ 64)
  all : r = 0 → k = len
  stop : r = -1 → k < len ∧ (∀ i, i < k → UserLeaf m root ((va + i) % 2 ^ 64)) ∧
    ¬ UserLeaf m root ((va + k) % 2 ^ 64)

section any

variable {s : Phys} {m : Bytes} {root va len : ℕ}

theorem userMapped_iff (hu : UserPages m root) (ht : TablePages m root) :
    UserMapped m root va ↔ UserLeaf m root va := by
  refine ⟨fun h => ⟨h.low, h.valid, h.user⟩, fun h => ⟨h.low, ?_, h.valid, h.user, hu.nonzero va h⟩⟩
  have hvalid := h.valid
  unfold pteOf leafEntry at hvalid
  unfold pteAddr
  rw [leafPath]
  cases hf : follow m root [idx 2 va, idx 1 va] with
  | none =>
    rw [hf] at hvalid
    exact absurd (Nat.zero_and _) hvalid
  | some page =>
    have := ht.nonzero _ page (by simp) hf
    dsimp only
    omega

theorem UserPages.userApart (hu : UserPages m root) (ht : TablePages m root) : UserApart m root where
  root_page := ht.root_page
  inj va va' h1 h2 := hu.inj va va' ((userMapped_iff hu ht).mp h1) ((userMapped_iff hu ht).mp h2)
  tables va h := ht.apart va ((userMapped_iff hu ht).mp h)

/-- Addresses below `MAXVA` are not cut. -/
theorem UserLeaf.mod_eq (h : UserLeaf m root va) : va % 2 ^ 64 = va :=
  Nat.mod_eq_of_lt (lt_trans h.low (by decide))

/-- Before a range wraps around there is an address that the user cannot use. -/
theorem no_wrap (hva : va < 2 ^ 64) {k : ℕ} (h : ∀ i, i < k → UserLeaf m root ((va + i) % 2 ^ 64)) :
    va + k < 2 ^ 64 := by
  by_contra hge
  have hlast := (h (2 ^ 64 - 1 - va) (by omega)).low
  rw [MAXVA_eq] at hlast
  omega

theorem outcome_of_reach (hu : UserPages m root) (ht : TablePages m root) (hva : va < 2 ^ 64) :
    Outcome m root va len (if reach (UserMapped m root) len va = len then 0 else -1)
      (reach (UserMapped m root) len va) := by
  have hreached : ∀ i, i < reach (UserMapped m root) len va → UserLeaf m root ((va + i) % 2 ^ 64) := by
    intro i hi
    have hleaf := (userMapped_iff hu ht).mp (reach_spec hi)
    rwa [hleaf.mod_eq]
  have hstop : reach (UserMapped m root) len va ≠ len →
      ¬ UserLeaf m root ((va + reach (UserMapped m root) len va) % 2 ^ 64) := by
    intro hne hleaf
    rw [Nat.mod_eq_of_lt (no_wrap hva hreached)] at hleaf
    exact reach_stop hne ((userMapped_iff hu ht).mpr hleaf)
  by_cases hall : reach (UserMapped m root) len va = len
  · rw [if_pos hall]
    refine ⟨.inl rfl, ⟨fun _ => .inr fun i hi => hreached i (hall.symm ▸ hi), fun _ => rfl⟩,
      fun _ => hall, fun hc => absurd hc (by decide)⟩
  · rw [if_neg hall]
    have hlt : reach (UserMapped m root) len va < len := lt_of_le_of_ne reach_le hall
    refine ⟨.inr rfl, ⟨fun hc => absurd hc (by decide), ?_⟩, fun hc => absurd hc (by decide),
      fun _ => ⟨hlt, hreached, hstop hall⟩⟩
    rintro (h0 | hgood)
    · omega
    · exact absurd (hgood _ hlt) (hstop hall)

/-- `copyout` and `copyin` on any address and length. -/
theorem copyout_copyin (source : Bytes) (src : ℕ) (hu : UserPages s.mem root)
    (ht : TablePages s.mem root) (hva : va < 2 ^ 64) :
    Code.wp (copyout root va source src len) (fun r s' => ∃ m' k, s' = { s with mem := m' } ∧
      Outcome s.mem root va len r k ∧
      (∀ i, i < k → m' (userAddr m' root (va + i)) = source (src + i)) ∧
      (∀ x, (∀ i, i < k → userAddr s.mem root (va + i) ≠ x) → m' x = s.mem x) ∧
      (r = 0 → ∀ dst, Code.wp (copyin root dst va len) (fun q s'' => s'' = s' ∧ q.1 = 0 ∧
        ∀ i, i < len → q.2 i = source (src + i)) s')) s ∧
    ∀ dst, Code.wp (copyin root dst va len) (fun q s' => s' = s ∧ ∃ k,
      Outcome s.mem root va len q.1 k ∧ (∀ i, i < k → q.2 i = s.mem (userAddr s.mem root (va + i))) ∧
      ∀ i, k ≤ i → q.2 i = dst i) s := by
  constructor
  · apply Code.wp_mono (copyoutLoop_write len va src len le_rfl (hu.userApart ht))
    rintro r s' ⟨m', rfl, hsame, rfl, hsc⟩
    refine ⟨m', _, rfl, outcome_of_reach hu ht hva, fun i hi => ?_, hsc.rest, fun hr dst => ?_⟩
    · rw [hsame.userAddr]
      exact hsc.written i hi
    · -- the table is as before, so `copyin` finds the same pages
      have hall : reach (UserMapped s.mem root) len va = len := by
        by_contra hne
        rw [if_neg hne] at hr
        exact absurd hr (by decide)
      have hreach : reach (UserMapped m' root) len va = len := by
        rw [reach_congr fun a => hsame.userMapped]
        exact hall
      apply Code.wp_mono (copyinLoop_read len dst 0 va len le_rfl)
      rintro q s'' ⟨rfl, hq, hd⟩
      rw [hreach, if_pos rfl] at hq
      refine ⟨rfl, hq, fun i hi => ?_⟩
      rw [hd, gather, if_pos (by rw [hreach]; omega), hsame.userAddr, Nat.sub_zero]
      exact hsc.written i (hall.symm ▸ hi)
  · intro dst
    apply Code.wp_mono (copyinLoop_read len dst 0 va len le_rfl)
    rintro q s' ⟨rfl, hq, hd⟩
    refine ⟨rfl, _, by rw [hq]; exact outcome_of_reach hu ht hva, fun i hi => ?_, fun i hi => ?_⟩
    · rw [hd, gather, if_pos (by omega), Nat.sub_zero]
    · rw [hd, gather, if_neg (by omega)]

end any

/-! ### A small table -/

section small

/-- A page table in three pages from `b` on that lets the user use the first two virtual pages, which
are mapped to `p` and `q`. -/
def pairTable (b p q : ℕ) : PTab :=
  ((((PTab.single b).addNode [0] (b + 4096)).addNode [0, 0] (b + 8192)).setLeaf 0
    (PA2PTE p ||| 23)).setLeaf 1 (PA2PTE q ||| 23)

/-- A memory with this table and nothing else. -/
def pairMem (b p q : ℕ) : Bytes :=
  let root : Bytes := Bytes.fill (fun _ => 0) b 4096 0
  let mid := (root.fill (b + 4096) 4096 0).store b 8 (PA2PTE (b + 4096) ||| PTE_V)
  let last := (mid.fill (b + 8192) 4096 0).store (b + 4096) 8 (PA2PTE (b + 8192) ||| PTE_V)
  (last.store (b + 8192) 8 (PA2PTE p ||| 23)).store (b + 8192 + 8) 8 (PA2PTE q ||| 23)

/-- The machine with this memory and no free page. -/
def pairPhys (b p q : ℕ) : Phys where
  mem := pairMem b p q
  freelist := 0
  fail _ := true
  calls := 0
  kend := KERNBASE

variable {b p q : ℕ}

theorem pairTable_root : (pairTable b p q).root = b := rfl

theorem pairTable_tables (hb : b ≠ 0) : (pairTable b p q).tables = {b + 8192, b + 4096, b} := by
  have hmid : ((PTab.single b).addNode [0] (b + 4096)).node [0, 0] = 0 := by
    rw [PTab.addNode_of_ne (by simp)]
    exact PTab.single_node_of_ne (by simp)
  rw [pairTable, PTab.setLeaf_tables, PTab.setLeaf_tables, PTab.tables_addNode hmid (by omega),
    PTab.tables_addNode (PTab.single_node_of_ne (by simp)) (by omega), PTab.tables_single hb]

theorem rep_pair (hb : b ≠ 0) (hal : b % 4096 = 0) (hlt : b + 8192 < 2 ^ 64) (hp : p < 2 ^ 64)
    (hq : q < 2 ^ 64) : Rep (pairMem b p q) (pairTable b p q) := by
  have h0 : Rep (Bytes.fill (fun _ => 0) b 4096 0) (PTab.single b) := rep_single hb hal
  have h1 := h0.addNode (i := 0) (show ([] : List Idx).length < 2 by decide) hb
    (PTab.single_node_of_ne (by simp)) (show b + 4096 ≠ 0 by omega) (by omega) (by omega) (by
      rw [PTab.tables_single hb, Set.mem_singleton_iff]
      omega)
  have hmid : ((PTab.single b).addNode [0] (b + 4096)).node [0] = b + 4096 := PTab.addNode_self
  have hnone : ((PTab.single b).addNode [0] (b + 4096)).node [0, 0] = 0 := by
    rw [PTab.addNode_of_ne (by simp)]
    exact PTab.single_node_of_ne (by simp)
  have hfresh : b + 8192 ∉ ((PTab.single b).addNode [0] (b + 4096)).tables := by
    rw [PTab.tables_addNode (PTab.single_node_of_ne (by simp)) (by omega), PTab.tables_single hb,
      Set.mem_insert_iff, Set.mem_singleton_iff]
    omega
  have h2 := h1.addNode (i := 0) (show ([0] : List Idx).length < 2 by decide)
    (show ((PTab.single b).addNode [0] (b + 4096)).node [0] ≠ 0 by rw [hmid]; omega) hnone
    (show b + 8192 ≠ 0 by omega) (by omega) (by omega) hfresh
  have hlast : (((PTab.single b).addNode [0] (b + 4096)).addNode [0, 0] (b + 8192)).node [0, 0] =
      b + 8192 := PTab.addNode_self
  have hne : (((PTab.single b).addNode [0] (b + 4096)).addNode [0, 0] (b + 8192)).node [0, 0] ≠ 0 := by
    rw [hlast]
    omega
  have h3 := h2.setLeaf (i := 0) (j := 0) (k := 0) hne (PA2PTE_or_lt hp (by decide : 23 < 1024))
  exact h3.setLeaf (i := 0) (j := 0) (k := 1) hne (PA2PTE_or_lt hq (by decide : 23 < 1024))

/-- The entries of the small table. -/
theorem pairTable_leaf (v : ℕ) : (pairTable b p q).leaf v =
    if v = 1 then PA2PTE q ||| 23 else if v = 0 then PA2PTE p ||| 23 else 0 := by
  rw [pairTable]
  by_cases h1 : v = 1
  · rw [h1, PTab.setLeaf_leaf_self, if_pos rfl]
  rw [PTab.setLeaf_leaf_of_ne h1, if_neg h1]
  by_cases h0 : v = 0
  · rw [h0, PTab.setLeaf_leaf_self, if_pos rfl]
  · rw [PTab.setLeaf_leaf_of_ne h0, if_neg h0]
    rfl

theorem pteOf_pair {va : ℕ} (hp : p < 2 ^ 64) (hq : q < 2 ^ 64) (hva : va < MAXVA) :
    pteOf (pairMem 4096 p q) 4096 va =
      if va / 4096 = 1 then PA2PTE q ||| 23 else if va / 4096 = 0 then PA2PTE p ||| 23 else 0 := by
  have hentry := pteOf_rep (rep_pair (b := 4096) (by decide) (by decide) (by decide) hp hq)
    (lt_of_lt_MAXVA hva)
  rw [pairTable_root, pairTable_leaf] at hentry
  exact hentry

/-- The user can use the first two pages and no others. -/
theorem userLeaf_pair {va : ℕ} (hp : p < 2 ^ 64) (hq : q < 2 ^ 64) :
    UserLeaf (pairMem 4096 p q) 4096 va ↔ va / 4096 = 0 ∨ va / 4096 = 1 := by
  constructor
  · intro h
    have hvalid := h.valid
    rw [pteOf_pair hp hq h.low] at hvalid
    by_contra hno
    rw [not_or] at hno
    rw [if_neg hno.2, if_neg hno.1] at hvalid
    exact hvalid rfl
  · intro h
    have hlow : va < MAXVA := by
      rw [MAXVA_eq]
      omega
    have hflags : ∀ f m, m < 1024 → (PA2PTE f ||| 23) &&& m = 23 &&& m := fun f m hm => or_and_flags hm
    have hentry := pteOf_pair hp hq hlow
    rcases h with h | h
    · rw [if_neg (by omega), if_pos h] at hentry
      refine ⟨hlow, ?_, ?_⟩ <;> rw [hentry, hflags _ _ (by decide)] <;> decide
    · rw [if_pos h] at hentry
      refine ⟨hlow, ?_, ?_⟩ <;> rw [hentry, hflags _ _ (by decide)] <;> decide

/-- The pages of the small table. -/
theorem page_pair {va : ℕ} (hp : p % 4096 = 0) (hp' : p < 2 ^ 64) (hq : q % 4096 = 0) (hq' : q < 2 ^ 64)
    (h : UserLeaf (pairMem 4096 p q) 4096 va) : PTE2PA (pteOf (pairMem 4096 p q) 4096 va) =
      if va / 4096 = 1 then q else p := by
  rw [pteOf_pair hp' hq' h.low]
  rcases (userLeaf_pair hp' hq').mp h with h0 | h1
  · rw [if_neg (by omega), if_pos h0, if_neg (by omega)]
    exact PTE2PA_or hp hp' (by decide)
  · rw [if_pos h1, if_pos h1]
    exact PTE2PA_or hq hq' (by decide)

theorem userPages_pair (hp : p % 4096 = 0) (hp' : p < 2 ^ 64) (hq : q % 4096 = 0) (hq' : q < 2 ^ 64)
    (hp0 : p ≠ 0) (hq0 : q ≠ 0) (hne : p ≠ q) : UserPages (pairMem 4096 p q) 4096 where
  nonzero va h := by
    rw [page_pair hp hp' hq hq' h]
    split
    · exact hq0
    · exact hp0
  inj va va' h h' he := by
    rw [page_pair hp hp' hq hq' h, page_pair hp hp' hq hq' h'] at he
    have h1 := (userLeaf_pair hp' hq').mp h
    have h2 := (userLeaf_pair hp' hq').mp h'
    split at he <;> split at he
    · omega
    · exact absurd he.symm hne
    · exact absurd he hne
    · omega

theorem tablePages_pair (hp : p % 4096 = 0) (hp' : p < 2 ^ 64) (hq : q % 4096 = 0) (hq' : q < 2 ^ 64)
    (hlow : 12288 < p) (hlow' : 12288 < q) : TablePages (pairMem 4096 p q) 4096 := by
  have hpage : ∀ path page, path.length ≤ 2 → follow (pairMem 4096 p q) 4096 path = some page →
      page ≠ 0 ∧ page ≤ 12288 := by
    intro path page hlen hf
    have hrep := rep_pair (b := 4096) (by decide) (by decide) (by decide) hp' hq'
    have hf := (follow_some hrep hlen).mp hf
    have hmem := PTab.mem_tables (hf.1.symm ▸ hf.2 : (pairTable 4096 p q).node path ≠ 0)
    rw [pairTable_tables (by decide), hf.1] at hmem
    refine ⟨hf.2, ?_⟩
    rcases hmem with rfl | rfl | rfl <;> decide
  refine ⟨by decide, fun path page hlen hf => (hpage path page hlen hf).1,
    fun va h path page hlen hf hin => ?_⟩
  have hle := (hpage path page hlen hf).2
  rw [Set.mem_singleton_iff, page_pair hp hp' hq hq' h] at hin
  split at hin <;> omega

theorem copyout_copyin_pair :
    (UserPages (pairMem 4096 16384 20480) 4096 ∧ TablePages (pairMem 4096 16384 20480) 4096) ∧
    Code.wp (copyout 4096 4090 (fun _ => 7) 0 10) (fun r s' => r = 0 ∧
      Code.wp (copyin 4096 (fun _ => 0) 4090 10) (fun q _ => q.1 = 0 ∧ ∀ i, i < 10 → q.2 i = 7) s')
      (pairPhys 4096 16384 20480) := by
  have hu : UserPages (pairMem 4096 16384 20480) 4096 :=
    userPages_pair (by decide) (by decide) (by decide) (by decide) (by decide) (by decide) (by decide)
  have ht : TablePages (pairMem 4096 16384 20480) 4096 :=
    tablePages_pair (by decide) (by decide) (by decide) (by decide) (by decide) (by decide)
  refine ⟨⟨hu, ht⟩, ?_⟩
  have h : Code.wp (copyout 4096 4090 (fun _ => 7) 0 10) _ (pairPhys 4096 16384 20480) :=
    (copyout_copyin (fun _ => 7) 0 hu ht (by decide : 4090 < 2 ^ 64)).1
  apply Code.wp_mono h
  rintro r s' ⟨m', k, -, hout, -, -, hback⟩
  have hr : r = 0 := hout.ok.mpr (.inr fun i hi => (userLeaf_pair (by decide) (by decide)).mpr (by omega))
  refine ⟨hr, ?_⟩
  apply Code.wp_mono (hback hr fun _ => 0)
  rintro q - ⟨-, hq, hd⟩
  exact ⟨hq, hd⟩

/-- If the first virtual page is the last-level page-table page itself, copying zeros to it unmaps the
second one halfway: all pages of the range can be used by the user, and `copyout` fails. -/
theorem copyout_own_table :
    UserPages (pairMem 4096 12288 16384) 4096 ∧
    (∀ i, i < 4097 → UserLeaf (pairMem 4096 12288 16384) 4096 ((0 + i) % 2 ^ 64)) ∧
    ∃ s', copyout 4096 0 (fun _ => 0) 0 4097 (pairPhys 4096 12288 16384) = .ok (-1) s' := by
  refine ⟨userPages_pair (by decide) (by decide) (by decide) (by decide) (by decide) (by decide)
    (by decide), fun i hi => ?_, ?_⟩
  · rw [userLeaf_pair (by decide) (by decide)]
    omega
  · have hrun : (match copyout 4096 0 (fun _ => 0) 0 4097 (pairPhys 4096 12288 16384) with
        | .ok r _ => decide (r = -1)
        | .panic _ => false) = true := by decide +kernel
    cases hres : copyout 4096 0 (fun _ => 0) 0 4097 (pairPhys 4096 12288 16384) with
    | ok r s' =>
      rw [hres] at hrun
      exact ⟨s', by rw [of_decide_eq_true hrun]⟩
    | panic msg =>
      rw [hres] at hrun
      exact absurd hrun Bool.false_ne_true

end small

end Xv6.Mem
