import Xv6.Mem.Copy

/-!
# The contents of an address space

To its process, an address space is a function from addresses to bytes. `Holds` says that the pages
of an address space contain a given function up to some end, wherever in RAM they are. Growing memory
does not change the function, as long as it is zero beyond the end; `copyout`, and the kernel when it
loads a program, change it as `memmove` changes flat memory.
-/

namespace Xv6.Mem

open Lib (Bytes Code)

/-- Below `e` an address space contains the bytes `U`. -/
def Holds (m : Bytes) (A : PTab) (e : ℕ) (U : Bytes) : Prop :=
  ∀ va, va < e → A.byte m (va / 4096) (va % 4096) = U va

section holds

variable {L : Layout} {s s' : Phys} {l l' : List ℕ} {A A' : PTab} {m m' U source : Bytes}
  {n n' w off cnt src va e e' : ℕ}

theorem Holds.kept (h : Holds m A e U) (hk : Kept m A m' A' n) (he : e ≤ n * 4096) :
    Holds m' A' e U := fun va hva =>
  (hk.byte _ _ (by omega) (Nat.mod_lt _ (by decide))).trans (h va hva)

theorem Holds.mono (h : Holds m A e U) (he : e' ≤ e) : Holds m A e' U := fun va hva =>
  h va (by omega)

theorem Holds.congr {U' : Bytes} (h : Holds m A e U) (hU : ∀ va, va < e → U' va = U va) :
    Holds m A e U' := fun va hva => (h va hva).trans (hU va hva).symm

/-- New pages are full of zeros. -/
theorem Holds.grow (h : Holds m A (n * 4096) U) (hk : Kept m A m' A' n)
    (hnew : ∀ w, n ≤ w → w < n' → Fresh m' A' w) (hU : ∀ va, n * 4096 ≤ va → U va = 0) :
    Holds m' A' (n' * 4096) U := by
  intro va hva
  by_cases hlt : va < n * 4096
  · exact h.kept hk le_rfl va hlt
  · rw [(hnew (va / 4096) (by omega) (by omega)).byte _ (Nat.mod_lt _ (by decide)), hU va (by omega)]

/-- An address space of `n` pages contains the bytes `U`, which are zero from its end on. -/
structure Filled (m : Bytes) (A : PTab) (n : ℕ) (U : Bytes) : Prop where
  holds : Holds m A (n * 4096) U
  zero : ∀ va, n * 4096 ≤ va → U va = 0

theorem Filled.empty : Filled m A 0 fun _ => 0 :=
  ⟨fun va hva => absurd hva (by omega), fun _ _ => rfl⟩

theorem Filled.of_space (m : Bytes) (A : PTab) (n : ℕ) :
    Filled m A n fun va => if va < n * 4096 then A.byte m (va / 4096) (va % 4096) else 0 :=
  ⟨fun _ hva => (if_pos hva).symm, fun _ hva => if_neg (not_lt.mpr hva)⟩

theorem Filled.grow (h : Filled m A n U) (hn : n ≤ n') (hk : Kept m A m' A' n)
    (hnew : ∀ w, n ≤ w → w < n' → Fresh m' A' w) : Filled m' A' n' U :=
  ⟨h.holds.grow hk hnew h.zero, fun va hva => h.zero va ((Nat.mul_le_mul_right _ hn).trans hva)⟩

/-- Writing to a page of user memory. -/
theorem Holds.put (hu : User L s l A n) (h : Holds s.mem A e U) (he : e ≤ n * 4096) (source : Bytes)
    (src : ℕ) (hw : w < n) (hoff : off + cnt ≤ 4096) :
    Holds (s.mem.copy (PTE2PA (A.leaf w) + off) cnt source src) A e
      (U.copy (w * 4096 + off) cnt source src) := by
  intro va hva
  have hmod := Nat.mod_lt va (show 4096 > 0 by decide)
  unfold PTab.byte
  by_cases hin : w * 4096 + off ≤ va ∧ va < w * 4096 + off + cnt
  · have hpage : va / 4096 = w := by omega
    rw [Bytes.copy_of_mem hin, hpage, Bytes.copy_of_mem (by omega)]
    congr 1
    omega
  · rw [Bytes.copy_of_not_mem hin, Bytes.copy_of_not_mem fun hc => ?_]
    · exact h va hva
    · -- pages of user memory are different pages of RAM
      have hal := PTE2PA_aligned (A.leaf (va / 4096))
      have hal' := PTE2PA_aligned (A.leaf w)
      have hpage := hu.space.mapped.inj (va / 4096) w (Nat.zero_le _) (by omega) (Nat.zero_le _)
        (by omega) (by omega)
      rw [hpage] at hc
      omega

end holds

/-! ### `copyout` -/

section copyout

variable {L : Layout} {s : Phys} {l : List ℕ} {A : PTab} {U source : Bytes} {n va dstva src len e : ℕ}

theorem User.userMapped_iff (hu : User L s l A n) :
    UserMapped s.mem A.root va ↔ va / 4096 < n ∧ A.leaf (va / 4096) &&& PTE_U ≠ 0 := by
  have hram := hu.le_ram
  constructor
  · intro h
    have huser := h.user
    rw [pteOf_rep hu.rep (lt_of_lt_MAXVA h.low)] at huser
    refine ⟨?_, huser⟩
    by_contra hge
    rw [hu.space.rest _ (by omega)] at huser
    exact huser (L.special_kernel _)
  · rintro ⟨hlt, huser⟩
    have hlow : va < MAXVA := by
      rw [MAXVA_eq]
      omega
    have hleaf := hu.space.mapped.leaf _ (Nat.zero_le _) (show va / 4096 < 0 + n by omega)
    have hpte := pteOf_rep hu.rep (lt_of_lt_MAXVA hlow)
    have hpage := hu.heap.owned _ (.inr ⟨va / 4096, Nat.zero_le _, by omega, rfl⟩)
    refine ⟨hlow, ?_, hpte ▸ hleaf.1, hpte ▸ huser, hpte ▸ hu.heap.pos hpage⟩
    have hnode : A.node (leafPath va) ≠ 0 := fun h0 =>
      hleaf.ne_zero (hu.rep.leaf_none hlow h0)
    have hlen : (leafPath va).length ≤ 2 := by simp [leafPath]
    have hfollow := (follow_some hu.rep hlen).mpr ⟨rfl, hnode⟩
    unfold pteAddr
    rw [hfollow]
    dsimp only
    omega

theorem User.userApart (hu : User L s l A n) : UserApart s.mem A.root where
  root_page := hu.rep.aligned []
  inj va va' h1 h2 he := by
    rw [pteOf_rep hu.rep (lt_of_lt_MAXVA h1.low), pteOf_rep hu.rep (lt_of_lt_MAXVA h2.low)] at he
    have hlt := (hu.userMapped_iff.mp h1).1
    have hlt' := (hu.userMapped_iff.mp h2).1
    exact hu.space.mapped.inj _ _ (Nat.zero_le _) (by omega) (Nat.zero_le _) (by omega) he
  tables va h path page hlen hf hin := by
    obtain ⟨hnode, hpos⟩ := (follow_some hu.rep hlen).mp hf
    have hlt := (hu.userMapped_iff.mp h).1
    rw [pteOf_rep hu.rep (lt_of_lt_MAXVA h.low), Set.mem_singleton_iff] at hin
    exact hu.space.mapped.sep page ⟨_, Nat.zero_le _, by omega, hin.symm⟩ ⟨hpos, path, hnode⟩

theorem User.userAddr_eq (hu : User L s l A n) (hva : va / 4096 < n) :
    userAddr s.mem A.root va = PTE2PA (A.leaf (va / 4096)) + va % 4096 := by
  have hram := hu.le_ram
  rw [userAddr, pteOf_rep hu.rep (by omega)]

theorem User.userAddr_inj {va' : ℕ} (hu : User L s l A n) (hva : va / 4096 < n) (hva' : va' / 4096 < n)
    (he : userAddr s.mem A.root va = userAddr s.mem A.root va') : va = va' := by
  rw [hu.userAddr_eq hva, hu.userAddr_eq hva'] at he
  have hal := PTE2PA_aligned (A.leaf (va / 4096))
  have hal' := PTE2PA_aligned (A.leaf (va' / 4096))
  have hpage := hu.space.mapped.inj _ _ (Nat.zero_le _) (show va / 4096 < 0 + n by omega)
    (Nat.zero_le _) (show va' / 4096 < 0 + n by omega) (by omega)
  omega

/-- Bytes written to user memory in terms of its contents. -/
theorem Scattered.holds {m' : Bytes} (hu : User L s l A n) (hU : Holds s.mem A e U)
    (he : e ≤ n * 4096) (huser : ∀ i, i < len → UserMapped s.mem A.root (dstva + i))
    (h : Scattered s.mem A.root dstva source src len m') :
    Holds m' A e (U.copy dstva len source src) := by
  intro va hva
  have hlt : va / 4096 < n := by omega
  have haddr := hu.userAddr_eq hlt
  unfold PTab.byte
  rw [← haddr]
  by_cases hin : dstva ≤ va ∧ va < dstva + len
  · have hw := h.written (va - dstva) (by omega)
    rw [show dstva + (va - dstva) = va by omega] at hw
    rw [Bytes.copy_of_mem hin, hw]
  · rw [Bytes.copy_of_not_mem hin]
    refine (h.rest _ fun i hi he => ?_).trans ?_
    · have hlt' := (hu.userMapped_iff.mp (huser i hi)).1
      have := hu.userAddr_inj hlt' hlt he
      omega
    · rw [haddr]
      exact hU va hva

/-- `copyout` to addresses that the user can access is `memmove` to the contents. -/
theorem copyout_holds (hu : User L s l A n) (hU : Holds s.mem A e U) (he : e ≤ n * 4096)
    (huser : ∀ i, i < len → UserMapped s.mem A.root (dstva + i)) :
    Code.wp (copyout A.root dstva source src len) (fun r s' => r = 0 ∧
      Resized L s l A n s' l A n ∧ Holds s'.mem A e (U.copy dstva len source src)) s := by
  have hreach : reach (UserMapped s.mem A.root) len dstva = len := reach_eq_iff.mpr huser
  have hwrite : Code.wp (copyoutLoop A.root source len dstva src len) _ s :=
    copyoutLoop_write len dstva src len le_rfl hu.userApart
  apply Code.wp_mono (Code.wp_and (copyout_spec hu) hwrite)
  rintro r s' ⟨hres, m', rfl, -, hr, hsc⟩
  rw [hreach] at hr hsc
  exact ⟨by rw [hr, if_pos rfl], hres, hsc.holds hu hU he huser⟩

/-- Whatever `copyout` writes, it writes above its destination. -/
theorem copyout_below (hu : User L s l A n) (hU : Holds s.mem A e U) (he : e ≤ n * 4096)
    (hdst : e ≤ dstva) :
    Code.wp (copyout A.root dstva source src len) (fun _ s' =>
      Resized L s l A n s' l A n ∧ Holds s'.mem A e U) s := by
  have hwrite : Code.wp (copyoutLoop A.root source len dstva src len) _ s :=
    copyoutLoop_write len dstva src len le_rfl hu.userApart
  apply Code.wp_mono (Code.wp_and (copyout_spec hu) hwrite)
  rintro r s' ⟨hres, m', rfl, -, -, hsc⟩
  refine ⟨hres, (hsc.holds hu hU he fun i hi => reach_spec hi).congr fun va hva => ?_⟩
  rw [Bytes.copy_of_not_mem (by omega)]

theorem Holds.closed {m m' : Bytes} {A' : PTab} {w : ℕ} (h : Holds m A e U) (hc : Closed m A w m' A' n)
    (he : e ≤ n * 4096) : Holds m' A' e U := fun va hva =>
  (hc.byte _ _ (by omega) (Nat.mod_lt _ (by decide))).trans (h va hva)

end copyout

end Xv6.Mem
