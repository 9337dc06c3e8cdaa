import Xv6.Kernel.ProcCalls
import Xv6.Kernel.Program
import Xv6.Mem.Contents

/-!
# Loading a program

`exec` fills a new address space in two parts: it loads the segments of the program, and it builds
the stack with the arguments. While it loads, the user can access every page of the new address space,
so `loadseg` finds each page it needs. Each part is described by what the address space contains in
the end, for any file, and for the stack by the argument strings in the pages that running code holds.
-/

namespace Xv6.Kernel

open Lib (Bytes Code)
open Mem

/-! ### Segments -/

section load

variable {s s' : Phys} {l l' : List ℕ} {A A' : PTab} {n : ℕ} {trampoline trapframe : ℕ} {f : Image}
  {U : Bytes}

theorem newFlags_user :
    (loadLayout trampoline trapframe).flags (PTE_W ||| PTE_X ||| PTE_R ||| PTE_U ||| PTE_V) :=
  ⟨newFlags, by decide⟩

theorem Image.field_lt (f : Image) (off : ℕ) : f.field off 8 < 2 ^ 64 := by
  unfold Image.field
  exact Bytes.load_lt

theorem load_user {v : ℕ} (h : User (loadLayout trampoline trapframe) s l A n) (hv : v < n) :
    A.leaf v &&& PTE_U ≠ 0 := by
  have hflags := (h.space.flags v hv).2
  rw [and_U] at hflags ⊢
  have hmod : PTE_FLAGS (A.leaf v) = A.leaf v % 1024 := Nat.and_two_pow_sub_one_eq_mod _ 10
  rw [hmod] at hflags
  omega

theorem Image.readi_le (f : Image) (off n : ℕ) : f.readi off n ≤ n := by
  unfold Image.readi
  split
  · exact Nat.zero_le n
  · exact Nat.min_le_left ..

/-- What is read in full is in the file. -/
theorem Image.readi_eq_iff {off n : ℕ} (hpos : 0 < n) : f.readi off n = n ↔ off + n ≤ f.size := by
  have hsmall := f.small
  unfold Image.readi
  split <;> omega

/-- The loop of `loadseg` finds the pages that were allocated for the segment. -/
theorem loadsegLoop_spec {va offset sz : ℕ} (k i : ℕ)
    (h : User (loadLayout trampoline trapframe) s l A n) (hU : Holds s.mem A (n * 4096) U)
    (hva : va % 4096 = 0) (hi : i % 4096 = 0) (hk : k = (sz - i + 4095) / 4096)
    (hsz : va + sz ≤ n * 4096) (hoff : 0 < k → offset + i < 2 ^ 32) :
    Code.wp (loadsegLoop A.root va f offset sz k i) (fun r s' =>
      Resized (loadLayout trampoline trapframe) s l A n s' l A n ∧ s'.calls = s.calls ∧
      (¬ r < 0 ↔ (0 < k → offset + sz ≤ f.size)) ∧
      (¬ r < 0 → Holds s'.mem A (n * 4096) (U.copy (va + i) (sz - i) f.data (offset + i)))) s := by
  induction k generalizing s i U with
  | zero =>
    refine ⟨.refl h, rfl, by simp, fun _ => ?_⟩
    rwa [show sz - i = 0 by omega, Bytes.copy_zero]
  | succ k ih =>
    have hram := h.le_ram
    have hlow := hoff (Nat.succ_pos k)
    rw [loadsegLoop, Code.wp_bind, Nat.mod_eq_of_lt (by omega : va + i < 2 ^ 64)]
    apply Code.wp_mono (walkaddr_spec h)
    intro pa s1 hres
    obtain ⟨rfl, ⟨-, hno⟩ | ⟨hw, hpa⟩⟩ := hres
    · exact absurd (hno (by omega)) (load_user h (by omega))
    rw [Nat.mod_eq_of_lt hlow, PGSIZE_eq]
    generalize hcnt : (if sz - i < 4096 then sz - i else 4096) = cnt
    have hcnt' : 0 < cnt ∧ cnt ≤ 4096 ∧ cnt ≤ sz - i ∧ (cnt ≠ 4096 → cnt = sz - i) := by
      split at hcnt <;> omega
    have hle := (f.readi_le (offset + i) cnt).trans hcnt'.2.1
    have hpage : pa ∈ A.pages 0 n := hpa ▸ PTab.mem_pages hw
    have hram := h.heap.owned _ (.inr hpage)
    have hput := sameOff_copy (m := s1.mem) f.data (offset + i) hram.aligned
      ((Nat.zero_add _).trans_le hle)
    have hres := h.write (hput.mono (Set.singleton_subset_iff.mpr hpage))
    have hfill := hU.put h le_rfl f.data (offset + i) hw ((Nat.zero_add _).trans_le hle)
    rw [Nat.add_zero, Nat.add_zero, Nat.div_mul_cancel (by omega), ← hpa] at hfill
    rw [Nat.add_zero] at hres
    simp only [Code.wp_ite, Code.wp_panic, Code.wp_bind, Code.wp_pure, memput, Code.wp_modify]
    refine ⟨fun h0 => h.heap.pos hram h0, fun _ => ⟨fun hpart => ⟨hres, trivial, ?_,
      fun hc => absurd (by decide) hc⟩, fun hfull => ?_⟩⟩
    · rw [Ne, f.readi_eq_iff hcnt'.1] at hpart
      exact iff_of_false (by decide) fun hin => hpart (by have := hin k.succ_pos; omega)
    have hend := (f.readi_eq_iff hcnt'.1).mp (not_not.mp hfull)
    have hsmall := f.small
    rw [not_not.mp hfull] at hfill hres ⊢
    apply Code.wp_mono (ih (i + 4096) hres.user hfill (by omega) (by omega) (by omega))
    intro r s' hres'
    obtain ⟨hres', hcalls, hok, hlast⟩ := hres'
    refine ⟨hres.trans hres', hcalls, hok.trans ⟨fun hin _ => ?_, fun hin _ => hin k.succ_pos⟩,
      fun hr => ?_⟩
    · rcases Nat.eq_zero_or_pos k with hk0 | hk0
      · omega
      · exact hin hk0
    have hlast := hlast hr
    by_cases hpart : cnt = 4096
    · rw [hpart] at hlast
      rw [← Nat.add_assoc, ← Nat.add_assoc, Bytes.copy_append] at hlast
      rwa [show sz - i = 4096 + (sz - (i + 4096)) by omega]
    · rw [show sz - (i + 4096) = 0 by omega, Bytes.copy_zero] at hlast
      rwa [← hcnt'.2.2.2 hpart]

theorem loadseg_spec {va offset sz : ℕ} (h : User (loadLayout trampoline trapframe) s l A n)
    (hU : Holds s.mem A (n * 4096) U) (hva : va % 4096 = 0) (hsz : va + sz ≤ n * 4096)
    (hoff : offset < 2 ^ 32) :
    Code.wp (loadseg A.root va f offset sz) (fun r s' =>
      Resized (loadLayout trampoline trapframe) s l A n s' l A n ∧ s'.calls = s.calls ∧
      (¬ r < 0 ↔ (0 < sz → offset + sz ≤ f.size)) ∧
      (¬ r < 0 → Holds s'.mem A (n * 4096) (U.copy va sz f.data offset))) s := by
  rw [loadseg, if_neg (by rw [PGSIZE_eq]; omega), PGSIZE_eq]
  have hpages : 0 < (sz + 4096 - 1) / 4096 ↔ 0 < sz := by omega
  rw [← hpages]
  exact loadsegLoop_spec _ 0 h hU hva rfl (by omega) hsz fun _ => hoff

/-- Loading the program segments. Offsets in the file count modulo the size of an `uint`. Segments are
loaded to the end only if they are accepted. -/
theorem loadSegs_spec (k top : ℕ) {off sz : ℕ}
    (h : User (loadLayout trampoline trapframe) s l A (npages sz))
    (hU : Filled s.mem A (npages sz) U) (hoff : off < 2 ^ 32) :
    Code.wp (loadSegs f A.root k off sz) (fun r s' => ∃ l' A',
      Resized (loadLayout trampoline trapframe) s l A (npages sz) s' l' A' (npages r.2) ∧
      (r.1 = true → sz ≤ r.2 ∧ f.FitsFrom sz r.2 k off ∧ Filled s'.mem A' (npages r.2)
        (((f.segmentsFrom k off).map Segment.cut).foldl (Segment.load f) U)) ∧
      (f.FitsFrom sz top k off → ∀ m, Plenty s l (m + 3 * (npages top - npages sz)) →
        r.1 = true ∧ Plenty s' l' m)) s := by
  have hfalse : ∀ {P : Prop}, false = true → P := fun hf => absurd hf Bool.false_ne_true
  induction k generalizing s l A off sz U with
  | zero =>
    refine ⟨l, A, .refl h, fun _ => ⟨le_rfl, ⟨fun hpos => absurd hpos (lt_irrefl 0), fun _ g hg => ?_,
      fun g hg => ?_⟩, hU⟩, fun _ m hpl => ⟨rfl, hpl.mono (by omega)⟩⟩
    · cases hg
    · cases hg
  | succ k ih =>
    simp only [loadSegs, Code.wp_ite, Code.wp_pure, Code.wp_bind]
    refine ⟨fun hread => ⟨l, A, .refl h, hfalse, fun hfit => ?_⟩, fun hread => ?_⟩
    · have htable := hfit.table k.succ_pos
      exact absurd ((f.readi_eq_iff (by decide)).mpr (by omega)) hread
    have hhere := (f.readi_eq_iff (by decide)).mp (not_not.mp hread)
    have hnext : off + 56 < 2 ^ 32 := hhere.trans_lt f.small
    have htable : (0 < k → off + 56 + 56 * k ≤ f.size) ↔ (0 < k + 1 → off + 56 * (k + 1) ≤ f.size) := by
      refine ⟨fun ht _ => ?_, fun ht _ => by have := ht k.succ_pos; omega⟩
      rcases Nat.eq_zero_or_pos k with h0 | hpos
      · omega
      · have := ht hpos
        omega
    rw [Nat.mod_eq_of_lt hnext]
    refine ⟨fun htype => ?_, fun htype => ?_⟩
    · have hskip : f.segmentsFrom (k + 1) off = f.segmentsFrom k (off + 56) := if_neg htype
      have hfits : ∀ top, f.FitsFrom sz top k (off + 56) ↔ f.FitsFrom sz top (k + 1) off := fun top =>
        ⟨fun hf => ⟨htable.mp hf.table, hskip ▸ hf.starts, hskip ▸ hf.segments⟩,
          fun hf => ⟨htable.mpr hf.table, hskip ▸ hf.starts, hskip ▸ hf.segments⟩⟩
      simp only [hskip, ← hfits]
      exact ih h hU hnext
    have hcons : f.segmentsFrom (k + 1) off = f.segment off :: f.segmentsFrom k (off + 56) :=
      if_pos (not_not.mp htype)
    rw [hcons]
    have hseg : f.FitsFrom sz top (k + 1) off → (f.segment off).Fits f top := fun hfit =>
      hfit.segments _ (hcons ▸ List.mem_cons_self)
    have hvaddr := f.field_lt (off + 16)
    have hmemsz := f.field_lt (off + 40)
    refine ⟨fun hfile => ⟨l, A, .refl h, hfalse, fun hfit => ?_⟩, fun hfile =>
      ⟨fun hwrap => ⟨l, A, .refl h, hfalse, fun hfit => ?_⟩, fun hwrap => ?_⟩⟩
    · exact absurd (hseg hfit).file (not_le.mpr hfile)
    · have hno : f.field (off + 16) 8 + f.field (off + 40) 8 < 2 ^ 64 := (hseg hfit).nowrap
      omega
    have hsum : (f.field (off + 16) 8 + f.field (off + 40) 8) % 2 ^ 64 =
        f.field (off + 16) 8 + f.field (off + 40) 8 := by omega
    rw [hsum]
    apply Code.wp_mono (uvmalloc_spec _ h newFlags_user)
    intro r s1 hres
    have hbelow : f.FitsFrom sz top (k + 1) off →
        npages (f.field (off + 16) 8 + f.field (off + 40) 8) ≤ npages top := by
      intro hfit
      have hle : f.field (off + 16) 8 + f.field (off + 40) 8 ≤ top := (hseg hfit).below
      unfold npages
      omega
    obtain ⟨l1, A1, hkept, ⟨rfl, hres, hshort⟩ | ⟨hr, hmax, hres, hnew, hst⟩⟩ := hres
    · refine ⟨fun _ => ⟨l1, A1, hres, hfalse, fun hfit m hpl => ?_⟩, fun hc => absurd rfl hc⟩
      have hle := hbelow hfit
      have hpos : sz = 0 → 0 < f.field (off + 16) 8 + f.field (off + 40) 8 := fun h0 =>
        hfit.starts h0 _ (by rw [hcons]; rfl)
      exact absurd (hpl.mono (by omega)) (hshort (by omega))
    refine ⟨fun hc => absurd hc hr, fun _ => ⟨fun hal => ⟨l1, A1, hres, hfalse, fun hfit => ?_⟩,
      fun hal => ?_⟩⟩
    · exact absurd (hseg hfit).aligned hal
    rw [PGSIZE_eq] at hal
    have hram := hres.user.le_ram
    have hend : f.field (off + 16) 8 + f.field (off + 32) 8 ≤ npages r * 4096 := by
      unfold npages
      omega
    have hgrown : npages sz ≤ npages r := by
      unfold npages
      omega
    have hfilled := hU.grow hgrown hkept hnew
    rw [← hres.root_eq, Nat.mod_eq_of_lt (by omega : f.field (off + 32) 8 < 2 ^ 32)]
    have hspec := loadseg_spec (f := f) hres.user hfilled.holds (not_not.mp hal) hend
      (Nat.mod_lt (f.field (off + 8) 8) (by decide))
    apply Code.wp_mono hspec
    intro c s2 hres2
    obtain ⟨hres2, hcalls, hok, hload⟩ := hres2
    refine ⟨fun hc => ⟨l1, A1, hres.trans hres2, hfalse, fun hfit => ?_⟩, fun hc => ?_⟩
    · exact absurd hc (hok.mpr (hseg hfit).inside)
    have hzero : ∀ va, npages r * 4096 ≤ va → U.copy (f.field (off + 16) 8) (f.field (off + 32) 8)
        f.data (f.field (off + 8) 8 % 2 ^ 32) va = 0 := by
      intro va hva
      rw [Bytes.copy_of_not_mem (by omega), hfilled.zero va hva]
    apply Code.wp_mono (ih hres2.user ⟨hload hc, hzero⟩ hnext)
    intro r' s3 hres3
    obtain ⟨l3, A3, hres3, hdone, hall⟩ := hres3
    refine ⟨l3, A3, (hres.trans hres2).trans hres3, fun hr' => ?_, fun hfit m hpl => ?_⟩
    · obtain ⟨hle, hfit, hfill⟩ := hdone hr'
      refine ⟨by omega, ⟨htable.mp hfit.table, fun h0 g hg => ?_, fun g hg => ?_⟩, hfill⟩
      · rw [hcons] at hg
        obtain rfl : f.segment off = g := Option.some.inj hg
        show 0 < f.field (off + 16) 8 + f.field (off + 40) 8
        omega
      · rw [hcons] at hg
        rcases List.mem_cons.mp hg with rfl | hg
        · refine ⟨not_lt.mp hfile, ?_, ?_, not_not.mp hal, hok.mp hc⟩
          · show f.field (off + 16) 8 + f.field (off + 40) 8 < 2 ^ 64
            omega
          · show f.field (off + 16) 8 + f.field (off + 40) 8 ≤ r'.2
            omega
        · exact hfit.segments g hg
    · refine hall ⟨htable.mpr hfit.table, fun h0 => absurd h0 hr, fun g hg => hfit.segments g ?_⟩ m ?_
      · exact hcons ▸ List.mem_cons_of_mem _ hg
      have hle := hbelow hfit
      have hr : npages r = max (npages sz)
          (npages (f.field (off + 16) 8 + f.field (off + 40) 8)) := by
        unfold npages
        omega
      exact (hst _ (hpl.mono (by omega))).of_same hcalls hres2.eff.fail_eq

end load

/-! ### Argument strings -/

/-- There is a string at an address, shorter than a page, with its NUL. -/
structure StrAt (m : Bytes) (arg : ℕ) (str : List UInt8) : Prop where
  chars : ∀ c ∈ str, c ≠ 0
  length : str.length < PGSIZE
  bytes : ∀ j, j ≤ str.length → m (arg + j) = str.getD j 0

/-- The pages `argv`, which are among `E`, contain the strings `strs`. -/
def Args (m : Bytes) (E : Set ℕ) (argv : List ℕ) (strs : List (List UInt8)) : Prop :=
  List.Forall₂ (fun arg str => arg ∈ E ∧ StrAt m arg str) argv strs

section args

variable {s s' : Phys} {l l' : List ℕ} {T T' E : Set ℕ} {m : Bytes} {arg : ℕ} {str : List UInt8}
  {argv : List ℕ} {strs : List (List UInt8)}

theorem strlen_eq {n : ℕ} (hchars : ∀ c ∈ str, c ≠ 0) (hlen : str.length < n)
    (hbytes : ∀ j, j ≤ str.length → m (arg + j) = str.getD j 0) : strlen m n arg = str.length := by
  induction n generalizing str arg with
  | zero => exact absurd hlen (Nat.not_lt_zero _)
  | succ n ih =>
    have hfirst := hbytes 0 (Nat.zero_le _)
    rw [Nat.add_zero] at hfirst
    cases str with
    | nil =>
      have hnul : m arg = 0 := hfirst
      rw [strlen, if_pos hnul, List.length_nil]
    | cons c str =>
      have hc : m arg ≠ 0 := by
        rw [hfirst]
        exact hchars c List.mem_cons_self
      rw [strlen, if_neg hc, ih (fun c' h => hchars c' (List.mem_cons_of_mem _ h))
        (Nat.lt_of_succ_lt_succ hlen) fun j hj => ?_, List.length_cons]
      have := hbytes (j + 1) (Nat.succ_le_succ hj)
      rwa [show arg + 1 + j = arg + (j + 1) by omega]

theorem StrAt.strlen (h : StrAt m arg str) : strlen m PGSIZE arg = str.length :=
  strlen_eq h.chars h.length h.bytes

/-- Code that owns other pages leaves the strings alone. -/
theorem Args.frame (h : Args s.mem E argv strs) (hE : Heap s l E) (he : Effect s l T s' l' T')
    (hT : ∀ pa ∈ E, pa ∉ T) : Args s'.mem E argv strs := by
  refine List.Forall₂.imp (fun arg str => ?_) h
  rintro ⟨hin, hstr⟩
  refine ⟨hin, hstr.chars, hstr.length, fun j hj => ?_⟩
  have hlen := hstr.length
  rw [PGSIZE_eq] at hlen
  have hpage := PGROUNDDOWN_of_mem (hE.owned arg hin).aligned (Nat.le_add_right arg j) (by omega)
  rw [he.frame _ (by rw [hpage]; exact hT arg hin) (by rw [hpage]; exact hE.disjoint arg hin)]
  exact hstr.bytes j hj

end args

/-! ### The stack -/

section stack

variable {s s' : Phys} {l l' : List ℕ} {A A' : PTab} {n : ℕ} {trampoline trapframe : ℕ} {L : Layout}
  {U : Bytes} {E : Set ℕ} {base : ℕ}

theorem pushArgs_below (args : List ℕ) {argc sp : ℕ} (h : User L s l A n)
    (hU : Holds s.mem A base U) (hbase : base ≤ n * 4096) :
    Code.wp (pushArgs A.root base args argc sp) (fun _ s' => Resized L s l A n s' l A n ∧
      Holds s'.mem A base U) s := by
  induction args generalizing s argc sp with
  | nil => exact ⟨.refl h, hU⟩
  | cons arg args ih =>
    rw [pushArgs, Code.wp_ite, Code.wp_bind, Code.wp_get]
    refine ⟨fun _ => ⟨.refl h, hU⟩, fun _ => ?_⟩
    generalize strlen s.mem PGSIZE arg = len
    simp only [Code.wp_ite, Code.wp_pure, Code.wp_bind]
    refine ⟨fun _ => ⟨.refl h, hU⟩, fun hsp => ?_⟩
    apply Code.wp_mono (copyout_below h hU hbase (not_lt.mp hsp))
    intro c s1 hres
    obtain ⟨hres, hU1⟩ := hres
    refine ⟨fun _ => ⟨hres, hU1⟩, fun _ => ?_⟩
    apply Code.wp_mono (ih hres.user hU1)
    intro r s2 hres2
    cases r with
    | none => exact ⟨hres.trans hres2.1, hres2.2⟩
    | some r => exact ⟨hres.trans hres2.1, hres2.2⟩

theorem push_round {sp size : ℕ} (hsp : sp % 16 = 0) (hsize : size ≤ sp) (hlt : sp < 2 ^ 64) :
    (sp + 2 ^ 64 - size) % 2 ^ 64 - (sp + 2 ^ 64 - size) % 2 ^ 64 % 16 = sp - up16 size := by
  have hpush : (sp + 2 ^ 64 - size) % 2 ^ 64 = sp - size ∨ size = 0 := by omega
  unfold up16
  omega

theorem pushArgs_holds {args : List ℕ} {strs : List (List UInt8)} {argc sp : ℕ} (h : User L s l A n)
    (hU : Holds s.mem A (n * 4096) U) (hargs : Args s.mem E args strs) (hE : Heap s l E)
    (hEA : ∀ pa ∈ E, pa ∉ A.footprint n)
    (huser : ∀ va, base ≤ va → va < n * 4096 → UserMapped s.mem A.root va) (hbase : 4096 ≤ base)
    (hsp : sp % 16 = 0) (hlow : base ≤ sp) (hhigh : sp ≤ n * 4096)
    (hmax : argc + args.length ≤ MAXARG) :
    Code.wp (pushArgs A.root base args argc sp) (fun r s' => Resized L s l A n s' l A n ∧
      (base + argsSize strs ≤ sp → r = some (placeArgs sp strs, sp - argsSize strs) ∧
        Holds s'.mem A (n * 4096) (pushStrs U sp strs)) ∧
      (¬ base + argsSize strs ≤ sp → r = none)) s := by
  have hram := h.le_ram
  induction args generalizing s strs argc sp U with
  | nil =>
    cases hargs
    exact ⟨.refl h, fun _ => ⟨rfl, hU⟩, fun hc => absurd hlow hc⟩
  | cons arg args ih =>
    obtain _ | @⟨_, str, _, strs, ⟨-, hstr⟩, hargs⟩ := hargs
    have hlen := hstr.length
    rw [PGSIZE_eq] at hlen
    have hup := le_up16 (str.length + 1)
    have hmod := up16_mod (str.length + 1)
    rw [List.length_cons] at hmax
    have hround := push_round hsp (by omega : str.length + 1 ≤ sp) (by omega)
    rw [pushArgs, if_neg (by omega), Code.wp_bind, Code.wp_get]
    simp only [hstr.strlen, hround, Code.wp_ite, Code.wp_pure, Code.wp_bind, argsSize]
    refine ⟨fun hno => ⟨.refl h, fun hc => absurd hc (by omega), fun _ => trivial⟩, fun hroom => ?_⟩
    have hsame : ∀ i, i < str.length + 1 →
        UserMapped s.mem A.root (sp - up16 (str.length + 1) + i) := fun i hi =>
      huser _ (by omega) (by omega)
    apply Code.wp_mono (copyout_holds h hU le_rfl hsame)
    intro c s1 hres
    obtain ⟨rfl, hres, hU1⟩ := hres
    refine ⟨fun hc => absurd hc (by decide), fun _ => ?_⟩
    have hcopied : Holds s1.mem A (n * 4096)
        (U.copy (sp - up16 (str.length + 1)) (str.length + 1) (strBytes str) 0) := by
      refine hU1.congr fun va _ => ?_
      by_cases hin : sp - up16 (str.length + 1) ≤ va ∧
          va < sp - up16 (str.length + 1) + (str.length + 1)
      · rw [Bytes.copy_of_mem hin, Bytes.copy_of_mem hin, hstr.bytes _ (by omega), Nat.zero_add,
          strBytes]
      · rw [Bytes.copy_of_not_mem hin, Bytes.copy_of_not_mem hin]
    have hargs1 := Args.frame (show Args s.mem E args strs from hargs) hE hres.eff hEA
    have hE1 := (hres.eff.frame_union hE hEA).heap.subset (Set.subset_union_right (t := E))
    have huser1 : ∀ va, base ≤ va → va < n * 4096 → UserMapped s1.mem A.root va := by
      intro va h1 h2
      rw [hres.user.userMapped_iff, ← h.userMapped_iff]
      exact huser va h1 h2
    have hmax' : argc + 1 + args.length ≤ MAXARG := by omega
    apply Code.wp_mono (ih hres.user hcopied hargs1 hE1 huser1 (by omega) (by omega) (by omega) hmax')
    intro r s2 hres2
    obtain ⟨hres2, hfit, hfull⟩ := hres2
    by_cases hrest : base + argsSize strs ≤ sp - up16 (str.length + 1)
    · obtain ⟨rfl, hU2⟩ := hfit hrest
      refine ⟨hres.trans hres2, fun _ => ⟨?_, hU2⟩, fun hc => absurd hc (by omega)⟩
      rw [placeArgs, Nat.sub_sub]
    · rw [hfull hrest]
      exact ⟨hres.trans hres2, fun hc => absurd hc (by omega), fun _ => rfl⟩

theorem clearU_leaf (f : ℕ) (h : IsLeaf f ∧ f &&& PTE_U ≠ 0) : IsLeaf (f - (f &&& PTE_U)) := by
  obtain ⟨hleaf, -⟩ := h
  rw [isLeaf_iff] at hleaf ⊢
  rw [and_U]
  omega

/-- The memory of a program with its stack: `n` pages with the bytes `U`, the guard page, and the page
of the stack. -/
structure Built (m : Bytes) (A : PTab) (n : ℕ) (U : Bytes) (sz : ℕ) : Prop where
  size : sz = (n + 2) * 4096
  below : Holds m A ((n + 1) * 4096) U
  guard : A.leaf n &&& PTE_U = 0
  access : ∀ w, w < n + 2 → w ≠ n → A.leaf w &&& PTE_U ≠ 0

/-- What becomes of the arguments: they are on the stack below `top` if they fit in a page. -/
structure Stacked (U : Bytes) (top : ℕ) (strs : List (List UInt8)) (r : Option (ℕ × ℕ)) (m' : Bytes)
    (A' : PTab) : Prop where
  full : r = none → PGSIZE < stackSize strs
  pushed : ∀ argc sp, r = some (argc, sp) → stackSize strs ≤ PGSIZE ∧ argc = strs.length ∧
    sp = top - stackSize strs ∧ Holds m' A' top (pushAll U top strs)

theorem pushAll_spec {argv : List ℕ} {strs : List (List UInt8)} (h : User L s l A (n + 2))
    (hU : Holds s.mem A ((n + 2) * 4096) U) (hE : Heap s l E)
    (hEA : ∀ pa ∈ E, pa ∉ A.footprint (n + 2))
    (hstack : ∀ va, (n + 1) * 4096 ≤ va → va < (n + 2) * 4096 → UserMapped s.mem A.root va) :
    Code.wp (do
      match ← pushArgs A.root ((n + 1) * 4096) argv 0 ((n + 2) * 4096) with
      | none => return ((n + 2) * 4096, none)
      | some (ustack, sp) => do
        let argc := ustack.length
        let sp := (sp + 2 ^ 64 - (argc + 1) * 8) % 2 ^ 64
        let sp := sp - sp % 16
        if sp < (n + 1) * 4096 then return ((n + 2) * 4096, none) else do
        if (← copyout A.root sp (wordBytes (ustack ++ [0])) 0 ((argc + 1) * 8)) < 0 then
          return ((n + 2) * 4096, none)
        else return ((n + 2) * 4096, some (argc, sp))) (fun r s' => r.1 = (n + 2) * 4096 ∧
      Resized L s l A (n + 2) s' l A (n + 2) ∧ Holds s'.mem A ((n + 1) * 4096) U ∧
      (Args s.mem E argv strs ∧ argv.length ≤ MAXARG →
        Stacked U ((n + 2) * 4096) strs r.2 s'.mem A)) s := by
  have hram := h.le_ram
  have hbelow : Code.wp (pushArgs A.root ((n + 1) * 4096) argv 0 ((n + 2) * 4096)) _ s :=
    pushArgs_below argv h (hU.mono (by omega)) (by omega)
  rw [Code.wp_bind]
  apply Code.wp_mono (Code.wp_imp (p := Args s.mem E argv strs ∧ argv.length ≤ MAXARG) hbelow
    fun hargs => pushArgs_holds h hU hargs.1 hE hEA hstack (by omega) (by omega) (by omega) le_rfl
      (by omega))
  intro r s1 hres
  obtain ⟨⟨hres, hU1⟩, hstr⟩ := hres
  cases r with
  | none =>
    refine ⟨rfl, hres, hU1, fun hargs => ⟨fun _ => ?_, fun _ _ he => by cases he⟩⟩
    obtain ⟨-, hfit, -⟩ := hstr hargs
    have hsize : argsSize strs ≤ stackSize strs := Nat.le_add_right ..
    by_contra hle
    rw [PGSIZE_eq] at hle
    exact absurd (hfit (by omega)).1 (Option.some_ne_none _).symm
  | some r =>
    obtain ⟨ptrs, sp⟩ := r
    dsimp only
    simp only [Code.wp_bind, Code.wp_ite, Code.wp_pure]
    -- with known arguments, this is where the array of pointers goes
    have hplace : Args s.mem E argv strs ∧ argv.length ≤ MAXARG →
        ptrs = placeArgs ((n + 2) * 4096) strs ∧ stackSize strs ≤ (n + 2) * 4096 ∧
        (sp + 2 ^ 64 - (ptrs.length + 1) * 8) % 2 ^ 64 -
          (sp + 2 ^ 64 - (ptrs.length + 1) * 8) % 2 ^ 64 % 16 = (n + 2) * 4096 - stackSize strs ∧
        Holds s1.mem A ((n + 2) * 4096) (pushStrs U ((n + 2) * 4096) strs) := by
      intro hargs
      obtain ⟨-, hfit, hfull⟩ := hstr hargs
      by_cases hargsFit : (n + 1) * 4096 + argsSize strs ≤ (n + 2) * 4096
      · obtain ⟨hsome, hU2⟩ := hfit hargsFit
        obtain ⟨rfl, rfl⟩ := Prod.mk.inj (Option.some.inj hsome)
        have hlen := hargs.1.length_eq
        have hmax := hargs.2
        have hmod := argsSize_mod strs
        rw [show MAXARG = 32 from rfl] at hmax
        have hup : up16 (8 * (strs.length + 1)) ≤ 272 := by
          unfold up16
          omega
        rw [placeArgs_length, Nat.mul_comm (strs.length + 1) 8,
          push_round (by omega) (by omega) (by omega), Nat.sub_sub]
        exact ⟨rfl, by unfold stackSize; omega, rfl, hU2⟩
      · exact absurd (hfull hargsFit) (Option.some_ne_none _)
    generalize (sp + 2 ^ 64 - (ptrs.length + 1) * 8) % 2 ^ 64 -
      (sp + 2 ^ 64 - (ptrs.length + 1) * 8) % 2 ^ 64 % 16 = sp' at hplace ⊢
    refine ⟨fun hno => ⟨trivial, hres, hU1, fun hargs => ⟨fun _ => ?_, fun _ _ he => by cases he⟩⟩,
      fun hroom => ?_⟩
    · obtain ⟨-, hle, rfl, -⟩ := hplace hargs
      rw [PGSIZE_eq]
      omega
    have hopen : Args s.mem E argv strs ∧ argv.length ≤ MAXARG → ∀ i, i < (ptrs.length + 1) * 8 →
        UserMapped s1.mem A.root (sp' + i) := by
      intro hargs i hi
      obtain ⟨rfl, hle, rfl, -⟩ := hplace hargs
      have hup := le_up16 (8 * (strs.length + 1))
      rw [placeArgs_length] at hi
      rw [hres.user.userMapped_iff, ← h.userMapped_iff]
      refine hstack _ (by omega) ?_
      unfold stackSize at hle ⊢
      omega
    apply Code.wp_mono (Code.wp_imp (copyout_below hres.user hU1 (by omega) (not_lt.mp hroom))
      fun hargs => copyout_holds hres.user (hplace hargs).2.2.2 le_rfl (hopen hargs))
    intro c s2 hres2
    obtain ⟨⟨hres2, hU2⟩, hstr2⟩ := hres2
    refine ⟨fun hc => ⟨trivial, hres.trans hres2, hU2, fun hargs => ?_⟩,
      fun _ => ⟨trivial, hres.trans hres2, hU2, fun hargs => ⟨fun he => (by cases he),
        fun argc sp'' he => ?_⟩⟩⟩
    · rw [(hstr2 hargs).1] at hc
      exact absurd hc (by decide)
    · obtain ⟨rfl, rfl⟩ := Prod.mk.inj (Option.some.inj he)
      obtain ⟨-, -, hU3⟩ := hstr2 hargs
      obtain ⟨rfl, hle, rfl, -⟩ := hplace hargs
      rw [placeArgs_length] at hU3
      refine ⟨by rw [PGSIZE_eq]; omega, placeArgs_length .., rfl, ?_⟩
      rwa [pushAll, Nat.mul_comm 8]

/-- Building the stack turns the address space being loaded into that of a process. -/
theorem buildStack_spec {sz : ℕ} {argv : List ℕ} (strs : List (List UInt8))
    (h : User (loadLayout trampoline trapframe) s l A (npages sz))
    (hU : Filled s.mem A (npages sz) U) (hE : Heap s l E)
    (hEA : ∀ pa ∈ E, pa ∉ A.footprint (npages sz)) :
    Code.wp (buildStack A.root sz argv) (fun r s' => ∃ l' A', A'.root = A.root ∧
      User (procLayout trampoline trapframe) s' l' A' (npages r.1) ∧
      Effect s l (A.footprint (npages sz)) s' l' (A'.footprint (npages r.1)) ∧
      (r.2 = none ∧ ¬ Plenty s l 6 ∨ Built s'.mem A' (npages sz) U r.1 ∧
        (Args s.mem E argv strs ∧ argv.length ≤ MAXARG → Stacked U r.1 strs r.2 s'.mem A'))) s := by
  have hram := h.le_ram
  have hround : PGROUNDUP sz = npages sz * 4096 := PGROUNDUP_eq (by unfold npages at hram; omega)
  simp only [buildStack, Code.wp_bind, Code.wp_ite, Code.wp_pure, hround]
  generalize npages sz = N at *
  have hN : npages (N * 4096) = N := npages_mul N
  have hN2 : npages (N * 4096 + 2 * PGSIZE) = N + 2 := by
    rw [PGSIZE_eq, ← Nat.add_mul, npages_mul]
  rw [← hN] at h
  apply Code.wp_mono (uvmalloc_spec _ h newFlags_user)
  intro r s1 hres
  rw [hN, hN2] at hres
  obtain ⟨l1, A1, hkept, ⟨rfl, hres, hshort⟩ | ⟨hr, hmax, hres, hnew, -⟩⟩ := hres
  · refine ⟨fun _ => ⟨l1, A1, hres.root_eq, ?_, ?_, .inl ⟨trivial, ?_⟩⟩, fun hc => absurd rfl hc⟩
    · rw [hN]
      exact hres.user.relax rfl fun _ hf => hf.1
    · rw [hN]
      exact hres.eff
    · have hno := hshort (by rw [PGSIZE_eq]; omega)
      rwa [Nat.add_sub_cancel_left] at hno
  refine ⟨fun hc => absurd hc hr, fun _ => ?_⟩
  obtain rfl : r = (N + 2) * 4096 := by
    rw [hmax, PGSIZE_eq]
    omega
  have hguard : (N + 2) * 4096 - 2 * PGSIZE = N * 4096 := by
    rw [PGSIZE_eq]
    omega
  have hbase : (N + 2) * 4096 - PGSIZE = (N + 1) * 4096 := by
    rw [PGSIZE_eq]
    omega
  rw [npages_mul] at hres hnew
  rw [hguard, hbase, ← hres.root_eq]
  apply Code.wp_mono (uvmclear_spec (procLayout trampoline trapframe) hres.user (by omega : N < N + 2)
    rfl (fun _ hf => hf.1) clearU_leaf)
  intro _ s2 hclear
  obtain ⟨A2, hroot2, heff2, hu2, hclosed⟩ := hclear
  have heff := hres.eff.trans heff2
  have hE2 := (heff.frame_union hE hEA).heap.subset (Set.subset_union_right (t := E))
  have hEA2 : ∀ pa ∈ E, pa ∉ A2.footprint (N + 2) := fun pa hpa =>
    (heff.foreign (hEA pa hpa) (hE.disjoint pa hpa)).1
  have hU2 := (hU.grow (Nat.le_add_right N 2) hkept hnew).holds.closed hclosed le_rfl
  have haccess : ∀ w, w < N + 2 → w ≠ N → A2.leaf w &&& PTE_U ≠ 0 := by
    intro w hw hne
    rw [hclosed.leaf w hne]
    exact load_user hres.user hw
  rw [← hroot2]
  have hstack : ∀ va, (N + 1) * 4096 ≤ va → va < (N + 2) * 4096 → UserMapped s2.mem A2.root va :=
    fun va h1 h2 => hu2.userMapped_iff.mpr ⟨by omega, haccess _ (by omega) (by omega)⟩
  rw [← Code.wp_bind]
  apply Code.wp_mono (pushAll_spec hu2 hU2 hE2 hEA2 hstack)
  intro r' s3 hres3
  obtain ⟨top, o⟩ := r'
  obtain ⟨rfl, hres3, hU3, hst⟩ := hres3
  dsimp only
  rw [npages_mul]
  exact ⟨l1, A2, rfl, hres3.user, heff.trans hres3.eff, .inr ⟨⟨rfl, hU3, hclosed.user, haccess⟩,
    fun hargs => hst ⟨hargs.1.frame hE heff hEA, hargs.2⟩⟩⟩

end stack

end Xv6.Kernel
