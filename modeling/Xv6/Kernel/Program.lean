import Mathlib.Data.List.GetD
import Mathlib.Data.List.Induction
import Xv6.Kernel.Exec

/-!
# Programs and their first stack

What `exec` is meant to build, in terms of flat memory. A program is given by its loadable segments:
an address has the byte of the last segment whose file part covers it, and zero if there is none. The
stack holds the argument strings from the top down, each at a multiple of 16, and below them the array
of pointers to them, which ends with a null pointer.
-/

namespace Xv6.Kernel

open Lib (Bytes Code)
open Mem

/-! ### Segments -/

/-- A program header of type `PT_LOAD`. Source: `elf.h` `struct proghdr`. -/
structure Segment where
  off : ℕ
  vaddr : ℕ
  filesz : ℕ
  memsz : ℕ

/-- The program header at `off`. -/
def Image.segment (f : Image) (off : ℕ) : Segment where
  off := f.field (off + 8) 8
  vaddr := f.field (off + 16) 8
  filesz := f.field (off + 32) 8
  memsz := f.field (off + 40) 8

/-- The loadable segments among the `n` program headers from `off` on. -/
def Image.segmentsFrom (f : Image) : ℕ → ℕ → List Segment
  | 0, _ => []
  | n + 1, off =>
    if f.field off 4 = ELF_PROG_LOAD then f.segment off :: f.segmentsFrom n (off + 56)
    else f.segmentsFrom n (off + 56)

/-- The position of the program headers. Source: `elf.h` `struct elfhdr`. -/
def Image.phoff (f : Image) : ℕ := f.field 32 8

/-- The number of program headers. Source: `elf.h` `struct elfhdr`. -/
def Image.phnum (f : Image) : ℕ := f.field 56 2

/-- The loadable segments that the header of a file lists. -/
def Image.segments (f : Image) : List Segment := f.segmentsFrom f.phnum f.phoff

/-- The file part of a segment covers an address. -/
def Segment.Covers (g : Segment) (va : ℕ) : Prop := g.vaddr ≤ va ∧ va < g.vaddr + g.filesz

instance (g : Segment) (va : ℕ) : Decidable (g.Covers va) := by
  unfold Segment.Covers
  infer_instance

/-- The last segment whose file part covers an address. -/
def lastCover (segs : List Segment) (va : ℕ) : Option Segment :=
  segs.reverse.find? fun g => g.Covers va

/-- The byte of a program at an address: that of the last segment whose file part covers it. -/
def Image.byteAt (f : Image) (segs : List Segment) (va : ℕ) : UInt8 :=
  match lastCover segs va with
  | some g => f.data (g.off + (va - g.vaddr))
  | none => 0

/-- A file gives an address the byte `c`, which is in the file unless no segment covers the address. -/
def Image.Gives (f : Image) (va : ℕ) (c : UInt8) : Prop :=
  match lastCover f.segments va with
  | some g => g.off + (va - g.vaddr) < f.size ∧ c = f.data (g.off + (va - g.vaddr))
  | none => c = 0

/-- Copies the file part of a segment to its place. -/
def Segment.load (f : Image) (U : Bytes) (g : Segment) : Bytes :=
  U.copy g.vaddr g.filesz f.data g.off

/-- The segment as `loadseg` sees it, whose offset is an `uint`. -/
def Segment.cut (g : Segment) : Segment := { g with off := g.off % 2 ^ 32 }

/-- Loading one segment after the other leaves the byte of the last one that covers an address. -/
theorem foldl_load (f : Image) (segs : List Segment) (va : ℕ) :
    segs.foldl (Segment.load f) (fun _ => 0) va = f.byteAt segs va := by
  induction segs using List.reverseRecOn with
  | nil => rfl
  | append_singleton segs g ih =>
    rw [List.foldl_append, List.foldl_cons, List.foldl_nil, Segment.load, Image.byteAt, lastCover,
      List.reverse_append, List.reverse_singleton, List.singleton_append, List.find?_cons]
    by_cases hin : g.Covers va
    · rw [Bytes.copy_of_mem hin, decide_eq_true hin]
    · rw [Bytes.copy_of_not_mem hin, decide_eq_false hin, ih]
      rfl

theorem lastCover_cut (segs : List Segment) (va : ℕ) :
    lastCover (segs.map Segment.cut) va = (lastCover segs va).map Segment.cut := by
  rw [lastCover, ← List.map_reverse, List.find?_map]
  rfl

/-- A segment that `exec` accepts: it begins with a page and lies below `top`, and its file part is in
the file. -/
structure Segment.Fits (f : Image) (top : ℕ) (g : Segment) : Prop where
  file : g.filesz ≤ g.memsz
  nowrap : g.vaddr + g.memsz < 2 ^ 64
  below : g.vaddr + g.memsz ≤ top
  aligned : g.vaddr % 4096 = 0
  inside : 0 < g.filesz → g.off % 2 ^ 32 + g.filesz ≤ f.size

/-- The program headers from `off` on are in the file, and their segments are accepted; the first one
to be loaded must not end at 0. -/
structure Image.FitsFrom (f : Image) (sz top n off : ℕ) : Prop where
  table : 0 < n → off + 56 * n ≤ f.size
  starts : sz = 0 → ∀ g ∈ (f.segmentsFrom n off).head?, 0 < g.vaddr + g.memsz
  segments : ∀ g ∈ f.segmentsFrom n off, g.Fits f top

/-- A file that `exec` accepts if it gets the pages for a program that ends at `top`. -/
structure Image.Fits (f : Image) (top : ℕ) : Prop where
  header : 64 ≤ f.size
  magic : f.field 0 4 = ELF_MAGIC
  program : f.FitsFrom 0 top f.phnum (f.phoff % 2 ^ 32)

/-- What `exec` loads: it takes positions in the file as `uint`. -/
def Image.loaded (f : Image) : Bytes :=
  ((f.segmentsFrom f.phnum (f.phoff % 2 ^ 32)).map Segment.cut).foldl (Segment.load f) fun _ => 0

/-- The positions that matter fit in an `uint`: that of the program headers, if there are any, and that
of each segment that gives a byte. -/
structure Image.Faithful (f : Image) : Prop where
  table : 0 < f.phnum → f.phoff < 2 ^ 32
  segments : ∀ va g, lastCover f.segments va = some g → g.off < 2 ^ 32

theorem Image.segments_eq {f : Image} (h : 0 < f.phnum → f.phoff < 2 ^ 32) :
    f.segmentsFrom f.phnum (f.phoff % 2 ^ 32) = f.segments := by
  rcases Nat.eq_zero_or_pos f.phnum with h0 | hpos
  · rw [Image.segments, h0]
    rfl
  · rw [Nat.mod_eq_of_lt (h hpos), Image.segments]

/-- What `exec` loads from a file that it accepts is what the file gives exactly if no position that
matters is cut. -/
theorem Image.Fits.gives_loaded_iff {f : Image} {top e : ℕ} (h : f.Fits top) (he : top ≤ e) :
    ((0 < f.phnum → f.phoff + 56 * f.phnum ≤ f.size) ∧ ∀ va < e, f.Gives va (f.loaded va)) ↔
      f.Faithful := by
  have hsmall := f.small
  have hsegs := h.program.segments
  have hcover {va : ℕ} {g : Segment} (hg : lastCover f.segments va = some g) :
      g ∈ f.segments ∧ g.Covers va := by
    have hin := List.find?_some hg
    exact ⟨List.mem_reverse.mp (List.mem_of_find?_eq_some hg), of_decide_eq_true hin⟩
  constructor
  · rintro ⟨htable, hgives⟩
    have hph : 0 < f.phnum → f.phoff < 2 ^ 32 := fun hpos => by
      have := htable hpos
      omega
    rw [Image.segments_eq hph] at hsegs
    refine ⟨hph, fun va g hg => ?_⟩
    obtain ⟨hmem, hlow, hhigh⟩ := hcover hg
    have hfit := hsegs g hmem
    have hfile := hfit.file
    have hbelow := hfit.below
    have hbyte := hgives va (by omega)
    rw [Image.Gives, hg] at hbyte
    have := hbyte.1
    omega
  · rintro ⟨hph, hlast⟩
    rw [Image.segments_eq hph] at hsegs
    refine ⟨fun hpos => ?_, fun va _ => ?_⟩
    · have := h.program.table hpos
      rwa [Nat.mod_eq_of_lt (hph hpos)] at this
    · rw [Image.loaded, Image.segments_eq hph, foldl_load, Image.byteAt, lastCover_cut, Image.Gives]
      cases hg : lastCover f.segments va with
      | none => rfl
      | some g =>
        obtain ⟨hmem, hlow, hhigh⟩ := hcover hg
        have hin := (hsegs g hmem).inside (by omega)
        have hcut : g.off % 2 ^ 32 = g.off := Nat.mod_eq_of_lt (hlast va g hg)
        refine ⟨by omega, ?_⟩
        show f.data (g.off % 2 ^ 32 + (va - g.vaddr)) = _
        rw [hcut]

/-! ### The stack -/

/-- The size of an object on the stack, rounded up to a multiple of 16. -/
def up16 (size : ℕ) : ℕ := (size + 15) / 16 * 16

/-- The space that the argument strings take. -/
def argsSize : List (List UInt8) → ℕ
  | [] => 0
  | str :: strs => up16 (str.length + 1) + argsSize strs

/-- The space that the strings and the array of pointers take. -/
def stackSize (strs : List (List UInt8)) : ℕ := argsSize strs + up16 (8 * (strs.length + 1))

/-- Where the strings go when the stack begins at `sp`. -/
def placeArgs (sp : ℕ) : List (List UInt8) → List ℕ
  | [] => []
  | str :: strs => (sp - up16 (str.length + 1)) :: placeArgs (sp - up16 (str.length + 1)) strs

/-- The bytes of a string, with NULs after it. -/
def strBytes (str : List UInt8) : Bytes := fun i => str.getD i 0

/-- Memory with the strings pushed. -/
def pushStrs (U : Bytes) (sp : ℕ) : List (List UInt8) → Bytes
  | [] => U
  | str :: strs =>
    pushStrs (U.copy (sp - up16 (str.length + 1)) (str.length + 1) (strBytes str) 0)
      (sp - up16 (str.length + 1)) strs

/-- Memory with the strings and the array of pointers pushed. -/
def pushAll (U : Bytes) (sp : ℕ) (strs : List (List UInt8)) : Bytes :=
  (pushStrs U sp strs).copy (sp - stackSize strs) (8 * (strs.length + 1))
    (wordBytes (placeArgs sp strs ++ [0])) 0

/-- The objects on the stack of a program, with their sizes. -/
def stackObjects (argv : ℕ) (ptrs : List ℕ) (strs : List (List UInt8)) : List (ℕ × ℕ) :=
  (argv, 8 * (strs.length + 1)) :: ptrs.zip (strs.map fun str => str.length + 1)

/-- In memory `U`, `argv` points to an array of pointers to the strings `strs`, all of it between
`base` and `top`. -/
structure ArgStack (U : Bytes) (base top argv : ℕ) (strs : List (List UInt8)) (ptrs : List ℕ) :
    Prop where
  aligned : argv % 16 = 0
  length : ptrs.length = strs.length
  pointers : ∀ i, i < strs.length → U.load (argv + 8 * i) 8 = ptrs.getD i 0
  null : U.load (argv + 8 * strs.length) 8 = 0
  strings : ∀ i j, i < strs.length → j ≤ (strs.getD i []).length →
    U (ptrs.getD i 0 + j) = (strs.getD i []).getD j 0
  inside : ∀ o ∈ stackObjects argv ptrs strs, base ≤ o.1 ∧ o.1 + o.2 ≤ top
  disjoint : (stackObjects argv ptrs strs).Pairwise fun a b => a.1 + a.2 ≤ b.1 ∨ b.1 + b.2 ≤ a.1

section stack

variable {U : Bytes} {sp : ℕ} {str : List UInt8} {strs : List (List UInt8)}

theorem le_up16 (size : ℕ) : size ≤ up16 size := by
  unfold up16
  omega

theorem up16_mod (size : ℕ) : up16 size % 16 = 0 := Nat.mul_mod_left ..

theorem argsSize_mod (strs : List (List UInt8)) : argsSize strs % 16 = 0 := by
  induction strs with
  | nil => rfl
  | cons str strs ih =>
    have := up16_mod (str.length + 1)
    rw [argsSize]
    omega

theorem stackSize_mod (strs : List (List UInt8)) : stackSize strs % 16 = 0 := by
  have h1 := argsSize_mod strs
  have h2 := up16_mod (8 * (strs.length + 1))
  rw [stackSize]
  omega

theorem placeArgs_length (sp : ℕ) (strs : List (List UInt8)) :
    (placeArgs sp strs).length = strs.length := by
  induction strs generalizing sp with
  | nil => rfl
  | cons str strs ih => rw [placeArgs, List.length_cons, ih, List.length_cons]

theorem pushStrs_above (h : argsSize strs ≤ sp) {x : ℕ} (hx : sp ≤ x) : pushStrs U sp strs x = U x := by
  induction strs generalizing U sp with
  | nil => rfl
  | cons str strs ih =>
    rw [argsSize] at h
    have hle := le_up16 (str.length + 1)
    rw [pushStrs, ih (by omega) (by omega), Bytes.copy_of_not_mem (by omega)]

theorem placeArgs_bounds (h : argsSize strs ≤ sp) {o : ℕ × ℕ}
    (ho : o ∈ (placeArgs sp strs).zip (strs.map fun str => str.length + 1)) :
    sp - argsSize strs ≤ o.1 ∧ o.1 + o.2 ≤ sp := by
  induction strs generalizing sp with
  | nil => exact absurd ho List.not_mem_nil
  | cons str strs ih =>
    have hle := le_up16 (str.length + 1)
    rw [argsSize] at h ⊢
    rw [placeArgs, List.map_cons, List.zip_cons_cons] at ho
    rcases List.mem_cons.mp ho with rfl | ho
    · dsimp only
      omega
    · have := ih (by omega) ho
      omega

theorem placeArgs_pairwise (h : argsSize strs ≤ sp) :
    ((placeArgs sp strs).zip (strs.map fun str => str.length + 1)).Pairwise
      fun a b => a.1 + a.2 ≤ b.1 ∨ b.1 + b.2 ≤ a.1 := by
  induction strs generalizing sp with
  | nil => exact List.Pairwise.nil
  | cons str strs ih =>
    rw [argsSize] at h
    rw [placeArgs, List.map_cons, List.zip_cons_cons]
    refine List.Pairwise.cons (fun o ho => .inr ?_) (ih (by omega))
    exact (placeArgs_bounds (by omega) ho).2

theorem pushStrs_string (h : argsSize strs ≤ sp) {i j : ℕ} (hi : i < strs.length)
    (hj : j ≤ (strs.getD i []).length) :
    pushStrs U sp strs ((placeArgs sp strs).getD i 0 + j) = (strs.getD i []).getD j 0 := by
  induction strs generalizing U sp i with
  | nil => exact absurd hi (Nat.not_lt_zero i)
  | cons str strs ih =>
    rw [argsSize] at h
    cases i with
    | zero =>
      have hj : j ≤ str.length := hj
      show pushStrs _ _ strs (sp - up16 (str.length + 1) + j) = str.getD j 0
      rw [pushStrs_above (by omega) (by omega), Bytes.copy_of_mem (by omega), strBytes]
      congr 1
      omega
    | succ i => exact ih (by omega) (Nat.lt_of_succ_lt_succ hi) hj

/-- A word of an array of words. -/
theorem load_wordBytes {a : ℕ} {ws : List ℕ} (U : Bytes) {i n : ℕ} (hi : i < n) :
    (U.copy a (8 * n) (wordBytes ws) 0).load (a + 8 * i) 8 = ws.getD i 0 % 256 ^ 8 := by
  have hbytes : (U.copy a (8 * n) (wordBytes ws) 0).load (a + 8 * i) 8 =
      (Bytes.store U (a + 8 * i) 8 (ws.getD i 0)).load (a + 8 * i) 8 := by
    apply Bytes.load_congr
    intro x h1 h2
    rw [Bytes.copy_of_mem (by omega), Bytes.store, if_pos ⟨h1, h2⟩, wordBytes, bytesOf]
    rw [show (0 + (x - a)) / 8 = i by omega, show (0 + (x - a)) % 8 = x - (a + 8 * i) by omega]
  rw [hbytes, Bytes.load_store]

/-- Each string is an object on the stack. -/
theorem mem_stackObjects {ptrs : List ℕ} (hlen : ptrs.length = strs.length) {i : ℕ}
    (hi : i < strs.length) :
    (ptrs.getD i 0, (strs.getD i []).length + 1) ∈ ptrs.zip (strs.map fun str => str.length + 1) := by
  have hi' : i < ptrs.length := by rwa [hlen]
  have hzip : i < (ptrs.zip (strs.map fun str => str.length + 1)).length := by
    rw [List.length_zip, List.length_map, hlen]
    omega
  have hget := List.getElem_mem hzip
  rw [List.getElem_zip, List.getElem_map] at hget
  rwa [List.getD_eq_getElem _ _ hi', List.getD_eq_getElem _ _ hi]

/-- Only the memory between the bounds matters. -/
theorem ArgStack.congr {U' : Bytes} {base top argv : ℕ} {ptrs : List ℕ}
    (h : ArgStack U base top argv strs ptrs) (hU : ∀ va, base ≤ va → va < top → U' va = U va) :
    ArgStack U' base top argv strs ptrs := by
  have harray := h.inside (argv, 8 * (strs.length + 1)) List.mem_cons_self
  dsimp only at harray
  refine ⟨h.aligned, h.length, fun i hi => ?_, ?_, fun i j hi hj => ?_, h.inside, h.disjoint⟩
  · rw [← h.pointers i hi]
    exact Bytes.load_congr fun x h1 h2 => hU x (by omega) (by omega)
  · rw [← h.null]
    exact Bytes.load_congr fun x h1 h2 => hU x (by omega) (by omega)
  · have hstr := h.inside _ (List.mem_cons_of_mem _ (mem_stackObjects h.length hi))
    dsimp only at hstr
    rw [hU _ (by omega) (by omega)]
    exact h.strings i j hi hj

theorem placeArgs_le (sp : ℕ) (strs : List (List UInt8)) {ptr : ℕ} (h : ptr ∈ placeArgs sp strs) :
    ptr ≤ sp := by
  induction strs generalizing sp with
  | nil => exact absurd h List.not_mem_nil
  | cons str strs ih =>
    rcases List.mem_cons.mp h with rfl | h
    · exact Nat.sub_le ..
    · exact (ih _ h).trans (Nat.sub_le ..)

/-- What is pushed is a stack for the program. -/
theorem argStack_pushAll {base : ℕ} (hsp : sp % 16 = 0) (hfit : base + stackSize strs ≤ sp)
    (hlt : sp < 2 ^ 64) :
    ArgStack (pushAll U sp strs) base sp (sp - stackSize strs) strs (placeArgs sp strs) := by
  have hmod := stackSize_mod strs
  have hsize : stackSize strs = argsSize strs + up16 (8 * (strs.length + 1)) := rfl
  have hup := le_up16 (8 * (strs.length + 1))
  have hbounds : ∀ o ∈ (placeArgs sp strs).zip (strs.map fun str => str.length + 1),
      sp - argsSize strs ≤ o.1 ∧ o.1 + o.2 ≤ sp := fun o ho => placeArgs_bounds (by omega) ho
  refine ⟨by omega, placeArgs_length sp strs, fun i hi => ?_, ?_, fun i j hi hj => ?_, ?_, ?_⟩
  · rw [pushAll, load_wordBytes _ (by omega), List.getD_append _ _ _ _ (by rwa [placeArgs_length])]
    apply Nat.mod_eq_of_lt
    rw [List.getD_eq_getElem _ _ (by rwa [placeArgs_length])]
    exact lt_of_le_of_lt (placeArgs_le sp strs (List.getElem_mem _)) hlt
  · rw [pushAll, load_wordBytes _ (by omega),
      List.getD_append_right _ _ _ _ (by rw [placeArgs_length]), placeArgs_length, Nat.sub_self]
    rfl
  · have := hbounds _ (mem_stackObjects (placeArgs_length sp strs) hi)
    rw [pushAll, Bytes.copy_of_not_mem (by dsimp only at this; omega)]
    exact pushStrs_string (by omega) hi hj
  · intro o ho
    rcases List.mem_cons.mp ho with rfl | ho
    · dsimp only
      omega
    · have := hbounds o ho
      omega
  · refine List.Pairwise.cons (fun o ho => .inl ?_) (placeArgs_pairwise (by omega))
    have := hbounds o ho
    dsimp only
    omega

end stack

end Xv6.Kernel
