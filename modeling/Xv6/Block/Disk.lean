import Xv6.Block.Model

/-!
# The log on disk

What the header, the log blocks and the home blocks say together. `LogHolds` describes the log area,
`HomeOff` the rest of the disk up to the blocks that still have to be installed. Every disk write of
`commit` and of recovery is a write of a log block, of a home block or of the header; the lemmas say
what each does to the two descriptions.
-/

namespace Xv6.Block

open Lib

/-! ### The header block -/

namespace Data

theorem bytes_ofBytes {m : Bytes} {a : ℕ} (h : a < BSIZE) : (ofBytes m).bytes a = m a := by
  simp [bytes, ofBytes, h]

theorem load_ofBytes {m : Bytes} {a n : ℕ} (h : a + n ≤ BSIZE) :
    (ofBytes m).bytes.load a n = m.load a n :=
  Bytes.load_congr fun x _ hx => bytes_ofBytes (by omega)

end Data

variable {i b : ℕ}

theorem load_putBlocks_of_le {m : Bytes} {a n : ℕ} (l : List ℕ) (h : a + n ≤ 4 + 4 * i) :
    (putBlocks m i l).load a n = m.load a n := by
  induction l generalizing m i with
  | nil => rfl
  | cons b l ih =>
    rw [putBlocks, ih (by omega), Bytes.load_store_of_disjoint (by omega)]

theorem load_putBlocks {m : Bytes} {j : ℕ} {l : List ℕ} (hj : j < l.length)
    (hl : ∀ b ∈ l, b < 2 ^ 32) : (putBlocks m i l).load (4 + 4 * (i + j)) 4 = l[j] := by
  induction l generalizing m i j with
  | nil => simp at hj
  | cons b l ih =>
    cases j with
    | zero =>
      have hb : b < 256 ^ 4 := hl b (by simp)
      rw [putBlocks, load_putBlocks_of_le l (by omega)]
      exact Bytes.load_store_of_lt hb
    | succ j =>
      have hrest := ih (m := m.store (4 + 4 * i) 4 b) (i := i + 1) (j := j)
        (by simpa using hj) fun c hc => hl c (by simp [hc])
      rw [show i + 1 + j = i + (j + 1) by omega] at hrest
      simpa [putBlocks] using hrest

theorem readHead_putHead (d : Data) {l : List ℕ} (hlen : l.length ≤ LOGSIZE)
    (hl : ∀ b ∈ l, b < 2 ^ 32) : readHead (putHead d l) = l := by
  have hsize : LOGSIZE = 30 := rfl
  have hbsize : BSIZE = 1024 := rfl
  have hn : (putHead d l).bytes.load 0 4 = l.length := by
    rw [putHead, Data.load_ofBytes (by omega), load_putBlocks_of_le l (by omega)]
    exact Bytes.load_store_of_lt (by omega)
  rw [readHead, hn, if_pos (by omega)]
  refine List.ext_getElem (by simp) fun j hj _ => ?_
  have hjl : j < l.length := by simpa using hj
  rw [List.getElem_map, List.getElem_range, putHead, Data.load_ofBytes (by omega)]
  simpa using load_putBlocks (m := d.bytes.store 0 4 l.length) (i := 0) hjl hl

/-! ### The recorded writes -/

theorem applyWrites_append (d : ℕ → Data) (v w : List (ℕ × Data)) :
    applyWrites d (v ++ w) = applyWrites (applyWrites d v) w := by
  induction v generalizing d with
  | nil => rfl
  | cons x v ih => exact ih _

theorem applyWrites_of_not_mem {d : ℕ → Data} {w : List (ℕ × Data)} (h : ∀ x ∈ w, x.1 ≠ b) :
    applyWrites d w b = d b := by
  induction w generalizing d with
  | nil => rfl
  | cons x w ih =>
    rw [applyWrites, ih fun y hy => h y (by simp [hy]), Function.update_of_ne]
    exact (h x (by simp)).symm

namespace Hist

variable {h : Hist}

/-- The writes that are not yet part of a group. -/
theorem logged_eq : h.logged = applyWrites (h.content h.groups.length) h.cur := by
  rw [logged, content, List.take_length, applyWrites_append]

theorem logged_of_cur_nil (hc : h.cur = []) : h.logged = h.content h.groups.length := by
  rw [logged_eq, hc, applyWrites]

theorem logged_log (b : ℕ) (d : Data) :
    ({ h with cur := h.cur ++ [(b, d)] } : Hist).logged = Function.update h.logged b d := by
  rw [logged, logged, ← List.append_assoc, applyWrites_append]
  rfl

/-- The call of `commit` makes a group of the writes so far. -/
theorem logged_seal :
    ({ h with groups := h.groups ++ [h.cur], cur := [] } : Hist).logged = h.logged := by
  simp [logged]

theorem content_seal_of_le {k : ℕ} (hk : k ≤ h.groups.length) :
    ({ h with groups := h.groups ++ [h.cur], cur := [] } : Hist).content k = h.content k := by
  simp [content, List.take_append_of_le_length hk]

end Hist

/-! ### The log area and the home blocks -/

section

variable (sb : Superblock)

/-- The log header is `l` and the log blocks hold the content `S` of those blocks. -/
def LogHolds (disk : ℕ → Data) (l : List ℕ) (S : ℕ → Data) : Prop :=
  readHead (disk sb.logstart) = l ∧
    ∀ i (hi : i < l.length), disk (sb.logstart + i + 1) = S l[i]

/-- The blocks outside the log hold the content `S`, those in `X` excepted. -/
def HomeOff (disk : ℕ → Data) (X : List ℕ) (S : ℕ → Data) : Prop :=
  ∀ b, ¬ sb.InLog b → b ∉ X → disk b = S b

/-- A list of blocks that fits into the log. -/
structure ListOk (l : List ℕ) : Prop where
  nodup : l.Nodup
  home : ∀ b ∈ l, ¬ sb.InLog b
  small : ∀ b ∈ l, b < 2 ^ 32
  le_logsize : l.length ≤ LOGSIZE
  le_nlog : l.length ≤ sb.nlog - 1

end

variable {sb : Superblock} {disk : ℕ → Data} {l X : List ℕ} {S : ℕ → Data} {d : Data}

theorem ListOk.nil : ListOk sb [] := ⟨by simp, by simp, by simp, by simp, by simp⟩

/-- The log block of index `i` lies in the log. -/
theorem ListOk.inLog (hl : ListOk sb l) (hi : i < l.length) : sb.InLog (sb.logstart + i + 1) := by
  have := hl.le_nlog
  constructor <;> omega

theorem Superblock.InLog.ne {c : ℕ} (hb : sb.InLog b) (hc : ¬ sb.InLog c) : c ≠ b := by
  rintro rfl
  exact hc hb

theorem inLog_head (h : 0 < sb.nlog) : sb.InLog sb.logstart := ⟨le_refl _, by omega⟩

theorem LogHolds.nil (h : readHead (disk sb.logstart) = []) : LogHolds sb disk [] S :=
  ⟨h, fun i hi => by simp at hi⟩

theorem LogHolds.block (h : LogHolds sb disk l S) (hi : i < l.length) :
    disk (sb.logstart + i + 1) = S l[i] := h.2 i hi

theorem HomeOff.mono {Y : List ℕ} (h : HomeOff sb disk X S) (hXY : ∀ b ∈ X, b ∈ Y) :
    HomeOff sb disk Y S := fun b hb hbY => h b hb fun hbX => hbY (hXY b hbX)

/-- A write into the log area leaves the home blocks. -/
theorem HomeOff.log_write (h : HomeOff sb disk X S) (hb : sb.InLog b) :
    HomeOff sb (Function.update disk b d) X S := by
  intro c hc hcX
  rw [Function.update_of_ne (hb.ne hc)]
  exact h c hc hcX

theorem LogHolds.home_write (h : LogHolds sb disk l S) (hl : ListOk sb l) (hnlog : 0 < sb.nlog)
    (hb : ¬ sb.InLog b) : LogHolds sb (Function.update disk b d) l S := by
  have hne : ∀ c, sb.InLog c → Function.update disk b d c = disk c := fun c hc =>
    Function.update_of_ne (hc.ne hb).symm _ _
  refine ⟨?_, fun i hi => ?_⟩
  · rw [hne _ (inLog_head hnlog)]
    exact h.1
  · rw [hne _ (hl.inLog hi)]
    exact h.2 i hi

theorem readHead_log_write (h : readHead (disk sb.logstart) = l) :
    readHead (Function.update disk (sb.logstart + i + 1) d sb.logstart) = l := by
  rw [Function.update_of_ne (by omega)]
  exact h

/-- The header write that commits: the log blocks already hold the content. -/
theorem LogHolds.head_write (hblocks : ∀ i (hi : i < l.length), disk (sb.logstart + i + 1) = S l[i])
    (hd : readHead d = l) : LogHolds sb (Function.update disk sb.logstart d) l S := by
  refine ⟨by simpa using hd, fun i hi => ?_⟩
  rw [Function.update_of_ne (by omega)]
  exact hblocks i hi

/-- Installing block `k`: one block less differs from the content. -/
theorem HomeOff.install {k : ℕ} (h : HomeOff sb disk (l.drop k) S) (hk : k < l.length)
    (hd : d = S l[k]) : HomeOff sb (Function.update disk l[k] d) (l.drop (k + 1)) S := by
  intro b hb hbX
  by_cases hbk : b = l[k]
  · subst hbk
    simpa using hd
  · rw [Function.update_of_ne hbk]
    refine h b hb fun hmem => hbX ?_
    rw [List.drop_eq_getElem_cons hk, List.mem_cons] at hmem
    exact hmem.resolve_left hbk

end Xv6.Block
