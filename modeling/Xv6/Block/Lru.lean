import Xv6.Block.Model
import Xv6.Lib.Count
import Xv6.Lib.Doubly

/-!
# The list of buffers

`bio.c` with the list as the kernel has it: every buffer and `bcache.head` have the pointers `prev`
and `next`, and the loops of `bget` follow them. `refcnt` is the `uint` of the source. The data of
the buffers and the disk are left out.

Several processes call `bread`, `brelse`, `bpin` and `bunpin` in any interleaving. What happens
under `bcache.lock` is one step; so is taking and releasing the sleep lock of a buffer. Three things
are kept that the kernel does not have: `pins` counts the calls of `bpin` that no call of `bunpin`
has undone, `clock` the calls of `brelse` that brought a count to zero, and `freed i` is the time of
the last one for buffer `i`, or 0.

In every run the pointers form one list of all buffers, in the order in which their counts were last
brought to zero by `brelse`. That `bget` never recycles a buffer that is in use rests on the counts,
and so on the callers of `bunpin`. The model of the cache in `Xv6.Block` has a list in place of the
pointers; `Shows` says that the sections of this one do what those do.
-/

namespace Xv6.Bio

open Lib
open Block (BufRef)

/-! ### The cache -/

/-- A node of the list: `bcache.head`, or a buffer. -/
inductive Node
  | head
  | buf (i : BufRef)
  deriving DecidableEq

/-- `struct buf`, less the data and the pointers. Source: `buf.h`. -/
structure Buf where
  /-- Has data been read from disk? -/
  valid : Bool
  /-- The device of the block. -/
  dev : ℕ
  /-- The block. -/
  blockno : ℕ
  /-- The process that holds the sleep lock. -/
  lock : Option Slot
  /-- Reference count. -/
  refcnt : UInt32

/-- The buffer carries this block. -/
def Buf.Carries (b : Buf) (dev blockno : ℕ) : Prop := b.dev = dev ∧ b.blockno = blockno

instance (b : Buf) (dev blockno : ℕ) : Decidable (b.Carries dev blockno) :=
  inferInstanceAs (Decidable (_ ∧ _))

/-- Where a process is. -/
inductive Pc
  /-- Outside of these functions. -/
  | idle
  /-- In `bget`, at `acquiresleep`. -/
  | waits (i : BufRef)
  /-- In `bread`, behind `bget`. -/
  | reads (i : BufRef)
  /-- In `brelse`, behind `releasesleep`. -/
  | drops (i : BufRef)

/-- The buffer that the process counts for without holding it. -/
def Pc.ref : Pc → Option BufRef
  | .idle => none
  | .waits i => some i
  | .reads _ => none
  | .drops i => some i

/-- The buffer cache and the processes. -/
structure State where
  /-- `bcache.buf`. -/
  buf : BufRef → Buf
  /-- The pointers `next` and `prev`. -/
  links : Links Node
  /-- Where each process is. -/
  pc : Slot → Pc
  /-- The calls of `bpin` less those of `bunpin`. -/
  pins : BufRef → ℕ
  /-- How often `brelse` has brought a count to zero. -/
  clock : ℕ
  /-- When it did so last for this buffer. -/
  freed : BufRef → ℕ
  /-- The message of a panic. -/
  panicked : Option String

/-- Source: `bio.c` `binit`. -/
def binit (k : Links Node) : Links Node :=
  (List.finRange NBUF).foldl (fun k i => k.pushFront .head (.buf i))
    ((k.setPrev .head .head).setNext .head .head)

/-- A loop over the buffers that returns the first one with `p`; `none` if it goes on for more than
`n` buffers. -/
def scan (step : Node → Node) (p : BufRef → Bool) : ℕ → Node → Option (Option BufRef)
  | _, .head => some none
  | 0, .buf _ => none
  | n + 1, .buf i => if p i then some (some i) else scan step p n (step (.buf i))

namespace State

/-- The cache when `binit` has run; `k` are the pointers it found. -/
def start (k : Links Node) : State where
  buf _ := ⟨false, 0, 0, none, 0⟩
  links := binit k
  pc _ := .idle
  pins _ := 0
  clock := 0
  freed _ := 0
  panicked := none

/-- Changes one buffer. -/
def setBuf (s : State) (i : BufRef) (b : Buf) : State :=
  { s with buf := Function.update s.buf i b }

/-- Process `t` goes on. -/
def setPc (s : State) (t : Slot) (p : Pc) : State := { s with pc := Function.update s.pc t p }

@[simp] theorem setBuf_buf_self (s : State) (i : BufRef) (b : Buf) : (s.setBuf i b).buf i = b :=
  Function.update_self ..

theorem setBuf_buf_of_ne (s : State) {i j : BufRef} (b : Buf) (h : j ≠ i) :
    (s.setBuf i b).buf j = s.buf j := Function.update_of_ne h _ _

@[simp] theorem setPc_buf (s : State) (t : Slot) (p : Pc) : (s.setPc t p).buf = s.buf := rfl

@[simp] theorem setPc_pc_self (s : State) (t : Slot) (p : Pc) : (s.setPc t p).pc t = p :=
  Function.update_self ..

/-- The end of the system. -/
def panic (s : State) (msg : String) : State := { s with panicked := some msg }

/-- One more reference to buffer `i`. -/
def ref (s : State) (i : BufRef) : State :=
  s.setBuf i { s.buf i with refcnt := (s.buf i).refcnt + 1 }

/-- Buffer `i` is given another block. -/
def recycle (s : State) (i : BufRef) (dev blockno : ℕ) : State :=
  s.setBuf i { s.buf i with dev := dev, blockno := blockno, valid := false, refcnt := 1 }

end State

/-- How the section of `bget` ends. -/
inductive Got
  /-- With a buffer. -/
  | found (i : BufRef) (s : State)
  /-- With a panic. -/
  | panics (msg : String)
  /-- Not within the number of buffers. -/
  | loops

namespace State

/-- The section of `bget` under `bcache.lock`. Source: `bio.c` `bget`. -/
def bget (s : State) (dev blockno : ℕ) : Got :=
  -- Is the block already cached?
  match scan s.links.next (fun i => (s.buf i).Carries dev blockno) NBUF (s.links.next .head) with
  | none => .loops
  | some (some i) => .found i (s.ref i)
  | some none =>
    -- Recycle the least recently used (LRU) unused buffer.
    match scan s.links.prev (fun i => (s.buf i).refcnt = 0) NBUF (s.links.prev .head) with
    | none => .loops
    | some (some i) => .found i (s.recycle i dev blockno)
    | some none => .panics "bget: no buffers"

/-- One reference to buffer `i` less. -/
def deref (s : State) (i : BufRef) : State :=
  s.setBuf i { s.buf i with refcnt := (s.buf i).refcnt - 1 }

/-- Buffer `i` is moved to the head of the list. -/
def toFront (s : State) (i : BufRef) : State :=
  { s with
    links := (s.links.unlink (.buf i)).pushFront .head (.buf i)
    clock := s.clock + 1
    freed := Function.update s.freed i (s.clock + 1) }

/-- The section of `brelse` under `bcache.lock`. Source: `bio.c` `brelse`. -/
def unref (s : State) (i : BufRef) : State :=
  if (s.buf i).refcnt - 1 = 0 then (s.deref i).toFront i else s.deref i

/-- Source: `bio.c` `bpin`. -/
def bpin (s : State) (i : BufRef) : State :=
  { s.ref i with pins := Function.update s.pins i (s.pins i + 1) }

/-- Source: `bio.c` `bunpin`. -/
def bunpin (s : State) (i : BufRef) : State :=
  { s.deref i with pins := Function.update s.pins i (s.pins i - 1) }

end State

/-- What a process does next. -/
inductive Op
  /-- It calls `bread`, and goes through the section of `bget`. -/
  | bread (dev blockno : ℕ)
  /-- It gets the sleep lock of the buffer. -/
  | acquiresleep
  /-- `bread` reads the block if it is not valid, and returns. -/
  | read
  /-- It calls `brelse`, and releases the sleep lock. -/
  | brelse (i : BufRef)
  /-- It goes through the section of `brelse`. -/
  | unref
  /-- It calls `bpin`. -/
  | bpin (i : BufRef)
  /-- It calls `bunpin`. -/
  | bunpin (i : BufRef)

/-- The steps of the processes. Source: `bio.c` `bget`, `bread`, `brelse`, `bpin`, `bunpin`. -/
inductive Step : State → Slot × Op → State → Prop
  | got {s s' : State} {t : Slot} {dev blockno : ℕ} {i : BufRef} :
      s.panicked = none → s.pc t = .idle → s.bget dev blockno = .found i s' →
      Step s (t, .bread dev blockno) (s'.setPc t (.waits i))
  | full {s : State} {t : Slot} {dev blockno : ℕ} {msg : String} :
      s.panicked = none → s.pc t = .idle → s.bget dev blockno = .panics msg →
      Step s (t, .bread dev blockno) (s.panic msg)
  | acquiresleep {s : State} {t : Slot} {i : BufRef} :
      s.panicked = none → s.pc t = .waits i → (s.buf i).lock = none →
      Step s (t, .acquiresleep) ((s.setBuf i { s.buf i with lock := some t }).setPc t (.reads i))
  | read {s : State} {t : Slot} {i : BufRef} : s.panicked = none → s.pc t = .reads i →
      Step s (t, .read) ((s.setBuf i { s.buf i with valid := true }).setPc t .idle)
  | brelse {s : State} {t : Slot} {i : BufRef} :
      s.panicked = none → s.pc t = .idle → (s.buf i).lock = some t →
      Step s (t, .brelse i) ((s.setBuf i { s.buf i with lock := none }).setPc t (.drops i))
  | notHeld {s : State} {t : Slot} {i : BufRef} :
      s.panicked = none → s.pc t = .idle → (s.buf i).lock ≠ some t →
      Step s (t, .brelse i) (s.panic "brelse")
  | unref {s : State} {t : Slot} {i : BufRef} : s.panicked = none → s.pc t = .drops i →
      Step s (t, .unref) ((s.unref i).setPc t .idle)
  | bpin {s : State} {t : Slot} {i : BufRef} : s.panicked = none → s.pc t = .idle →
      Step s (t, .bpin i) (s.bpin i)
  | bunpin {s : State} {t : Slot} {i : BufRef} : s.panicked = none → s.pc t = .idle →
      Step s (t, .bunpin i) (s.bunpin i)

/-- Every interleaving of calls of `bread`, `brelse`, `bpin` and `bunpin`. -/
def system : Lts State (Slot × Op) where
  init s := ∃ k, s = .start k
  step := Step

/-! ### What the loops find -/

variable {l : List BufRef} {s : State} {k : Links Node} {r : UInt32} {α : Type}

theorem scan_eq {step : Node → Node} {p : BufRef → Bool} {n : ℕ}
    (hl : Linked step (l.map .buf) .head) (hn : l.length ≤ n) :
    scan step p n ((l.map Node.buf).headD .head) = some (l.find? p) := by
  induction l generalizing n with
  | nil => cases n <;> rfl
  | cons i l ih =>
    obtain ⟨n, rfl⟩ : ∃ m, n = m + 1 := ⟨n - 1, by simp at hn; omega⟩
    rw [List.map_cons, List.headD_cons, scan, hl.1, List.find?_cons,
      ih hl.2 (by simpa using hn)]
    cases p i <;> rfl

theorem nodup_of_ring (h : k.Ring .head (l.map .buf)) : l.Nodup :=
  (List.nodup_cons.mp h.nodup).2.of_map _

/-- What `bget` does, in terms of the list that the pointers form. -/
theorem bget_eq (h : s.links.Ring .head (l.map .buf)) (dev blockno : ℕ) :
    s.bget dev blockno = match l.find? fun i => (s.buf i).Carries dev blockno with
      | some i => .found i (s.ref i)
      | none => match l.reverse.find? fun i => (s.buf i).refcnt = 0 with
        | some i => .found i (s.recycle i dev blockno)
        | none => .panics "bget: no buffers" := by
  have hlen : l.length ≤ NBUF := by simpa using (nodup_of_ring h).length_le_card
  have hprev := h.prev
  rw [← List.map_reverse] at hprev
  rw [State.bget, h.next.1, scan_eq h.next.2 hlen, hprev.1,
    scan_eq hprev.2 (by rwa [List.length_reverse])]
  cases l.find? fun i => decide ((s.buf i).Carries dev blockno) with
  | some i => rfl
  | none => cases l.reverse.find? fun i => decide ((s.buf i).refcnt = 0) <;> rfl

/-- The count of buffer `i` was last brought to zero before that of buffer `j`, or neither ever was.
-/
def State.Older (s : State) (i j : BufRef) : Prop :=
  s.freed i < s.freed j ∨ s.freed i = 0 ∧ s.freed j = 0

/-- No block is in two buffers. Device 0 is that of the buffers that have not been used. -/
def State.Unique (s : State) : Prop :=
  ∀ i j, (s.buf i).dev ≠ 0 → (s.buf j).Carries (s.buf i).dev (s.buf i).blockno → i = j

/-- What holds of the list in every run. -/
structure Inv (s : State) (l : List BufRef) : Prop where
  /-- The pointers form one circular list through the head. -/
  ring : s.links.Ring .head (l.map .buf)
  /-- Every buffer is in it. -/
  mem : ∀ i, i ∈ l
  /-- No block is in two buffers. -/
  unique : s.Unique
  /-- The buffers are in the order in which they were freed, the last one first. -/
  order : l.Pairwise fun i j => s.Older j i
  /-- No buffer was freed in the future. -/
  freed_le : ∀ i, s.freed i ≤ s.clock

namespace Inv

variable {s s' : State} {l : List BufRef} {i : BufRef} {dev blockno : ℕ}

theorem nodup (h : Inv s l) : l.Nodup := nodup_of_ring h.ring

/-- If the block is in no buffer, `bget` goes to the second loop. -/
theorem bget_of_uncached (h : Inv s l) (hno : ∀ j, ¬ (s.buf j).Carries dev blockno) :
    s.bget dev blockno = match l.reverse.find? fun i => (s.buf i).refcnt = 0 with
      | some i => .found i (s.recycle i dev blockno)
      | none => .panics "bget: no buffers" := by
  have hnone : (l.find? fun i => (s.buf i).Carries dev blockno) = none := by
    simpa using fun j _ => hno j
  rw [bget_eq h.ring, hnone]

/-- If the block is in a buffer, `bget` takes that one. -/
theorem bget_of_cached (h : Inv s l)
    (hi : (l.find? fun i => (s.buf i).Carries dev blockno) = some i) :
    s.bget dev blockno = .found i (s.ref i) := by
  rw [bget_eq h.ring, hi]

/-- What `bget` returns: the buffer of the block, or one that is not referred to. -/
theorem bget_found (h : Inv s l) (hget : s.bget dev blockno = .found i s') :
    ((s.buf i).Carries dev blockno ∧ s' = s.ref i) ∨
      ((∀ j, ¬ (s.buf j).Carries dev blockno) ∧ (s.buf i).refcnt = 0 ∧
        s' = s.recycle i dev blockno) := by
  by_cases hno : ∀ j, ¬ (s.buf j).Carries dev blockno
  · rw [h.bget_of_uncached hno] at hget
    split at hget
    · rename_i j hj
      obtain ⟨rfl, rfl⟩ := Got.found.inj hget
      exact .inr ⟨hno, by simpa using List.find?_some hj, rfl⟩
    · cases hget
  · push Not at hno
    obtain ⟨j, hj⟩ := hno
    have hsome : (l.find? fun i => (s.buf i).Carries dev blockno).isSome :=
      List.find?_isSome.mpr ⟨j, h.mem j, decide_eq_true hj⟩
    obtain ⟨k, hk⟩ := Option.isSome_iff_exists.mp hsome
    rw [h.bget_of_cached hk] at hget
    obtain ⟨rfl, rfl⟩ := Got.found.inj hget
    exact .inl ⟨by simpa using List.find?_some hk, rfl⟩

/-- The buffer that is recycled was freed before every other one that is not referred to. -/
theorem older_of_find (h : Inv s l)
    (hi : (l.reverse.find? fun i => (s.buf i).refcnt = 0) = some i) {j : BufRef} (hij : j ≠ i)
    (hj : (s.buf j).refcnt = 0) : s.Older i j := by
  obtain ⟨-, l₁, l₂, hl, hl₁⟩ := List.find?_eq_some_iff_append.mp hi
  have hsplit : l = l₂.reverse ++ i :: l₁.reverse := by
    rw [← List.reverse_reverse l, hl, List.reverse_append, List.reverse_cons, List.append_assoc]
    rfl
  have hmem := h.mem j
  have horder := h.order
  rw [hsplit] at hmem horder
  have hjl : j ∈ l₂.reverse := by
    rcases List.mem_append.mp hmem with hj' | hj'
    · exact hj'
    · rcases List.mem_cons.mp hj' with rfl | hj'
      · exact absurd rfl hij
      · exact absurd hj (by simpa using hl₁ j (List.mem_reverse.mp hj'))
  exact (List.pairwise_append.mp horder).2.2 j hjl i List.mem_cons_self

/-! ### Every step keeps the list -/

/-- Only the pointers, the blocks and the times matter. -/
theorem congr (h : Inv s l) (hlinks : s'.links = s.links) (hclock : s'.clock = s.clock)
    (hfreed : s'.freed = s.freed)
    (hbuf : ∀ j, (s'.buf j).dev = (s.buf j).dev ∧ (s'.buf j).blockno = (s.buf j).blockno) :
    Inv s' l where
  ring := hlinks ▸ h.ring
  mem := h.mem
  unique i j := by
    rw [(hbuf i).1, (hbuf i).2, Buf.Carries, (hbuf j).1, (hbuf j).2]
    exact h.unique i j
  order := h.order.imp fun hij => by rwa [State.Older, hfreed]
  freed_le i := by
    rw [hfreed, hclock]
    exact h.freed_le i

theorem setBuf (h : Inv s l) {b : Buf} (hdev : b.dev = (s.buf i).dev)
    (hblock : b.blockno = (s.buf i).blockno) : Inv (s.setBuf i b) l := by
  refine h.congr rfl rfl rfl fun j => ?_
  simp only [State.setBuf, Function.update_apply]
  split
  · next e => rw [e]; exact ⟨hdev, hblock⟩
  · exact ⟨rfl, rfl⟩

theorem setPc (h : Inv s l) (t : Slot) (p : Pc) : Inv (s.setPc t p) l :=
  h.congr rfl rfl rfl fun _ => ⟨rfl, rfl⟩

/-- A block that is in no buffer gets one. -/
theorem recycle (h : Inv s l) (hno : ∀ j, ¬ (s.buf j).Carries dev blockno) :
    Inv (s.recycle i dev blockno) l where
  ring := h.ring
  mem := h.mem
  order := h.order
  freed_le := h.freed_le
  unique j k := by
    simp only [State.recycle, State.setBuf, Function.update_apply]
    intro hdev hcarries
    split at hcarries <;> split at hcarries
    · simp_all
    · next hk hj => exact absurd ⟨hcarries.1.symm, hcarries.2.symm⟩ (hno j)
    · next hk hj => exact absurd hcarries (hno k)
    · next hk hj =>
        rw [if_neg hj] at hdev
        exact h.unique j k hdev hcarries

theorem toFront (h : Inv s l) (i : BufRef) : ∃ l', Inv (s.toFront i) l' := by
  obtain ⟨l₁, l₂, rfl⟩ := List.append_of_mem (h.mem i)
  have hring := h.ring
  rw [List.map_append, List.map_cons] at hring
  have hnd : (l₁ ++ i :: l₂).Nodup := h.nodup
  have hi : i ∉ l₁ ++ l₂ := (List.nodup_middle.mp hnd).notMem
  have hsub : (l₁ ++ l₂).Sublist (l₁ ++ i :: l₂) :=
    (List.Sublist.refl l₁).append (List.sublist_cons_self i l₂)
  -- the other buffers keep their times, which are all before the new one
  have hfreed : ∀ j ∈ l₁ ++ l₂, (s.toFront i).freed j = s.freed j := fun j hj =>
    Function.update_of_ne (ne_of_mem_of_not_mem hj hi) _ _
  have hnew : (s.toFront i).freed i = s.clock + 1 := Function.update_self ..
  refine ⟨i :: (l₁ ++ l₂), ?_, fun j => ?_, h.unique, ?_, fun j => ?_⟩
  · rw [List.map_cons, List.map_append]
    refine hring.unlink.pushFront ?_
    simpa using hi
  · have := h.mem j
    simp only [List.mem_append, List.mem_cons] at this ⊢
    tauto
  · refine List.pairwise_cons.mpr ⟨fun j hj => .inl ?_, ?_⟩
    · rw [hfreed j hj, hnew]
      exact Nat.lt_succ_of_le (h.freed_le j)
    · refine (h.order.sublist hsub).imp_of_mem fun {a b} ha hb hab => ?_
      rwa [State.Older, hfreed a ha, hfreed b hb]
  · by_cases hj : j = i
    · rw [hj, hnew]
      exact le_rfl
    · have hkeep : (s.toFront i).freed j = s.freed j := Function.update_of_ne hj _ _
      rw [hkeep]
      exact (h.freed_le j).trans (Nat.le_succ _)

theorem step (h : Inv s l) {a : Slot × Op} (hs : Step s a s') : ∃ l', Inv s' l' := by
  cases hs with
  | got _ _ hget =>
    rcases h.bget_found hget with ⟨-, rfl⟩ | ⟨hno, -, rfl⟩
    · exact ⟨l, .setPc (h.setBuf (by rfl) (by rfl)) _ _⟩
    · exact ⟨l, (h.recycle hno).setPc _ _⟩
  | full | notHeld => exact ⟨l, h.congr rfl rfl rfl fun _ => ⟨rfl, rfl⟩⟩
  | acquiresleep | read | brelse => exact ⟨l, .setPc (h.setBuf (by rfl) (by rfl)) _ _⟩
  | @unref t i =>
    have hderef : Inv (s.deref i) l := h.setBuf rfl rfl
    rw [State.unref]
    split
    · obtain ⟨l', h'⟩ := hderef.toFront i
      exact ⟨l', h'.setPc _ _⟩
    · exact ⟨l, hderef.setPc _ _⟩
  | @bpin t i =>
    have href : Inv (s.ref i) l := h.setBuf rfl rfl
    exact ⟨l, href.congr rfl rfl rfl fun _ => ⟨rfl, rfl⟩⟩
  | @bunpin t i =>
    have hderef : Inv (s.deref i) l := h.setBuf rfl rfl
    exact ⟨l, hderef.congr rfl rfl rfl fun _ => ⟨rfl, rfl⟩⟩

end Inv

/-- `binit` puts each buffer before those already in the list. -/
theorem foldl_pushFront {m : List BufRef} (hk : k.Ring .head (m.map .buf))
    (hnd : (l.reverse ++ m).Nodup) :
    (l.foldl (fun k i => k.pushFront .head (.buf i)) k).Ring .head ((l.reverse ++ m).map .buf) := by
  induction l generalizing k m with
  | nil => exact hk
  | cons i l ih =>
    rw [List.reverse_cons, List.append_assoc] at hnd ⊢
    have hi : i ∉ m := (List.nodup_cons.mp (List.nodup_append.mp hnd).2.1).1
    exact ih (hk.pushFront (by simpa using hi)) hnd

theorem inv_start (k : Links Node) : Inv (.start k) (List.finRange NBUF).reverse where
  ring := by
    have hnil : ((k.setPrev .head .head).setNext .head .head).Ring Node.head
        (([] : List BufRef).map .buf) :=
      Links.ring_nil (by simp [Links.setNext]) (by simp [Links.setNext, Links.setPrev])
    have hring := foldl_pushFront (l := List.finRange NBUF) hnil
      (by simpa using List.nodup_finRange NBUF)
    rwa [List.append_nil] at hring
  mem i := List.mem_reverse.mpr (List.mem_finRange i)
  unique _ _ h := absurd rfl h
  order := List.pairwise_of_forall fun _ _ => .inr ⟨rfl, rfl⟩
  freed_le _ := le_rfl

theorem reach_inv (h : system.Reach s) : ∃ l, Inv s l := by
  refine h.induct (I := fun s => ∃ l, Inv s l) ?_ fun s a s' _ hinv hstep => ?_
  · rintro s ⟨k, rfl⟩
    exact ⟨_, inv_start k⟩
  · obtain ⟨l, hl⟩ := hinv
    exact hl.step hstep

/-! ### The counts -/

/-- A reference, counted. -/
def one {α : Type} (o : Option α) : ℕ := o.elim 0 fun _ => 1

@[simp] theorem one_none : one (none : Option α) = 0 := rfl

@[simp] theorem one_some (a : α) : one (some a) = 1 := rfl

namespace State

/-- Who refers to buffer `i`: the processes in the middle of `bget` or `brelse`, the one that holds
it, and the pins. -/
def refs (s : State) (i : BufRef) : ℕ :=
  Lib.refs (fun t => (s.pc t).ref) i + one (s.buf i).lock + s.pins i

/-- Buffer `i` is held, waited for or pinned. -/
def InUse (s : State) (i : BufRef) : Prop :=
  (∃ t, (s.buf i).lock = some t) ∨ (∃ t, s.pc t = .waits i) ∨ 0 < s.pins i

theorem not_inUse_of_refs {s : State} {i : BufRef} (h : s.refs i = 0) : ¬ s.InUse i := by
  simp only [refs, Nat.add_eq_zero_iff, refs_eq_zero] at h
  obtain ⟨⟨hpc, hlock⟩, hpins⟩ := h
  rintro (⟨t, ht⟩ | ⟨t, ht⟩ | hpos)
  · rw [ht] at hlock
    cases hlock
  · exact hpc t (by rw [ht]; rfl)
  · exact hpos.ne' hpins

/-- The counts are those of the references. -/
def Counted (s : State) : Prop := ∀ i, (s.buf i).refcnt.toNat = s.refs i

/-- Another reference can be counted. -/
def Room (s : State) : Prop := ∀ i, s.refs i + 1 < 2 ^ 32

end State

theorem toNat_add_one (h : r.toNat + 1 < 2 ^ 32) : (r + 1).toNat = r.toNat + 1 := by
  rw [UInt32.toNat_add]
  exact Nat.mod_eq_of_lt h

theorem toNat_sub_one (h : 0 < r.toNat) : (r - 1).toNat + 1 = r.toNat := by
  have hle : (1 : UInt32) ≤ r := UInt32.le_iff_toNat_le.mpr h
  rw [UInt32.toNat_sub_of_le _ _ hle]
  exact Nat.sub_add_cancel h

section

variable {s s' : State} {t : Slot} {i : BufRef} {b : Buf} {p : Pc} {n : ℕ}

theorem refs_change (hbuf : s'.buf = Function.update s.buf i b)
    (hpc : s'.pc = Function.update s.pc t p) (hpins : s'.pins = Function.update s.pins i n)
    (j : BufRef) :
    s'.refs j + (if (s.pc t).ref = some j then 1 else 0) +
        (if j = i then one (s.buf i).lock + s.pins i else 0) =
      s.refs j + (if p.ref = some j then 1 else 0) + (if j = i then one b.lock + n else 0) := by
  have hcomp : (fun u => (Function.update s.pc t p u).ref) =
      Function.update (fun u => (s.pc u).ref) t p.ref := Function.comp_update Pc.ref s.pc t p
  have hupdate := refs_update (fun u => (s.pc u).ref) t p.ref j
  simp only [State.refs, hbuf, hpc, hpins, hcomp]
  simp only [Function.update_apply s.buf, Function.update_apply s.pins]
  by_cases hj : j = i
  · subst hj
    simp only [if_true]
    omega
  · simp only [hj, if_false]
    omega

/-- The counts after such a step, if the count of the buffer has changed with its references. -/
theorem State.Counted.change (h : s.Counted) (hbuf : s'.buf = Function.update s.buf i b)
    (hpc : s'.pc = Function.update s.pc t p) (hpins : s'.pins = Function.update s.pins i n)
    (hfrom : ∀ j, (s.pc t).ref = some j → j = i) (hto : ∀ j, p.ref = some j → j = i)
    (hcnt : b.refcnt.toNat + one (s.pc t).ref + one (s.buf i).lock + s.pins i =
      (s.buf i).refcnt.toNat + one p.ref + one b.lock + n) : s'.Counted := by
  intro j
  have hchange := refs_change hbuf hpc hpins j
  have hold := h j
  rw [hbuf]
  by_cases hj : j = i
  · subst hj
    have hmass : ∀ o : Option BufRef, (∀ k, o = some k → k = j) →
        (if o = some j then 1 else 0) = one o := by
      intro o ho
      cases o with
      | none => rfl
      | some k => simp [ho k rfl, one]
    rw [hmass _ hfrom, hmass _ hto, if_pos rfl, if_pos rfl] at hchange
    rw [Function.update_self]
    omega
  · have hf : (s.pc t).ref ≠ some j := fun e => hj (hfrom j e)
    have ht : p.ref ≠ some j := fun e => hj (hto j e)
    rw [if_neg hf, if_neg ht, if_neg hj, if_neg hj] at hchange
    rw [Function.update_of_ne hj]
    omega

end

/-- A call of `bunpin` is for a buffer that the caller holds. -/
def HoldsUnpinned (s : State) : Slot × Op → Prop
  | (t, .bunpin i) => (s.buf i).lock = some t
  | _ => True

/-- A call of `bunpin` is for a buffer that the caller holds, and undoes a call of `bpin`. -/
def Matched (s : State) : Slot × Op → Prop
  | (t, .bunpin i) => (s.buf i).lock = some t ∧ 0 < s.pins i
  | _ => True

/-- The runs in which calls of `bunpin` match calls of `bpin`, and no count overflows. -/
def disciplined : Lts State (Slot × Op) := system.restrict fun s a => Matched s a ∧ s.Room

theorem State.Counted.step {s' : State} {a : Slot × Op} (h : s.Counted) (hinv : Inv s l)
    (hmatched : Matched s a) (hroom : s.Room) (hs : Step s a s') : s'.Counted := by
  have hadd : ∀ i, ((s.buf i).refcnt + 1).toNat = (s.buf i).refcnt.toNat + 1 := fun i =>
    toNat_add_one (by rw [h i]; exact hroom i)
  cases hs with
  | @got s₁ t dev blockno i _ hidle hget =>
    have hfrom : ∀ j, (s.pc t).ref = some j → j = i := by simp [hidle, Pc.ref]
    have hto : ∀ j, (Pc.waits i).ref = some j → j = i := by simp [Pc.ref]
    rcases hinv.bget_found hget with ⟨-, rfl⟩ | ⟨-, h0, rfl⟩
    · refine h.change rfl rfl (Function.update_eq_self i s.pins).symm hfrom hto ?_
      simp only [hadd, hidle, Pc.ref, one_none, one_some]
    · refine h.change rfl rfl (Function.update_eq_self i s.pins).symm hfrom hto ?_
      simp only [h0, hidle, Pc.ref, one_none, one_some, UInt32.toNat_one, UInt32.toNat_zero]
  | full | notHeld => exact h
  | @acquiresleep t i _ hwaits hfree =>
    refine h.change rfl rfl (Function.update_eq_self i s.pins).symm ?_ ?_ ?_
    · simp [hwaits, Pc.ref]
    · simp [Pc.ref]
    · simp only [hwaits, hfree, Pc.ref, one_none, one_some]
  | @read t i _ hreads =>
    refine h.change (i := i) rfl rfl (Function.update_eq_self i s.pins).symm ?_ ?_ ?_
    · simp [hreads, Pc.ref]
    · simp [Pc.ref]
    · simp only [hreads, Pc.ref, one_none]
  | @brelse t i _ hidle hheld =>
    refine h.change rfl rfl (Function.update_eq_self i s.pins).symm ?_ ?_ ?_
    · simp [hidle, Pc.ref]
    · simp [Pc.ref]
    · simp only [hidle, hheld, Pc.ref, one_none, one_some]
  | @unref t i _ hdrops =>
    have hpos : 0 < (s.buf i).refcnt.toNat := by
      have : 0 < Lib.refs (fun t => (s.pc t).ref) i := refs_pos (i := t) (by rw [hdrops]; rfl)
      rw [h i, State.refs]
      omega
    have hsub := toNat_sub_one hpos
    refine h.change (i := i) (t := t) (p := .idle) (n := s.pins i)
      (b := { s.buf i with refcnt := (s.buf i).refcnt - 1 }) ?_ ?_ ?_ ?_ ?_ ?_
    · simp only [State.unref, State.setPc]
      split <;> rfl
    · simp only [State.unref, State.setPc]
      split <;> rfl
    · rw [Function.update_eq_self]
      simp only [State.unref, State.setPc]
      split <;> rfl
    · simp [hdrops, Pc.ref]
    · simp [Pc.ref]
    · simp only [hdrops, Pc.ref, one_none, one_some]
      omega
  | @bpin t i _ hidle =>
    refine h.change (i := i) (t := t) (p := s.pc t) rfl (Function.update_eq_self t _).symm rfl
      ?_ ?_ ?_
    · simp [hidle, Pc.ref]
    · simp [hidle, Pc.ref]
    · simp only [hadd]
      omega
  | @bunpin t i _ hidle =>
    obtain ⟨hheld, hpins⟩ := hmatched
    have hpos : 0 < (s.buf i).refcnt.toNat := by
      rw [h i, State.refs]
      omega
    have hsub := toNat_sub_one hpos
    refine h.change (i := i) (t := t) (p := s.pc t) rfl (Function.update_eq_self t _).symm rfl
      ?_ ?_ ?_
    · simp [hidle, Pc.ref]
    · simp [hidle, Pc.ref]
    · simp only
      omega

theorem reach_counted (h : disciplined.Reach s) : s.Counted := by
  refine h.induct ?_ fun s a s' hr hcounted hstep => ?_
  · rintro s ⟨k, rfl⟩ i
    have hnone : Lib.refs (fun t => ((State.start k).pc t).ref) i = 0 :=
      refs_eq_zero.mpr fun _ => by simp [State.start, Pc.ref]
    rw [State.refs, hnone]
    rfl
  · obtain ⟨l, hl⟩ := reach_inv hr.of_restrict
    exact hcounted.step hl hstep.1.1 hstep.1.2 hstep.2

/-! ### The list, the blocks and the buffer that is recycled -/

/-- In every run of `bread`, `brelse`, `bpin` and `bunpin` the pointers form one circular list
through the head that has every buffer once, and no block is in two buffers. If a block is not
cached, `bget` panics if every buffer is referred to; else it takes the buffer that was freed first
among those that are not. If calls of `bunpin` match calls of `bpin` and no count overflows, that
buffer is not in use. -/
theorem bget_recycles_least_recently_freed {s : State} (h : system.Reach s) :
    (∃ l : List BufRef, s.links.Ring .head (l.map .buf) ∧ l.Nodup ∧ ∀ i, i ∈ l) ∧ s.Unique ∧
      ∀ dev blockno, (∀ j, ¬ (s.buf j).Carries dev blockno) →
        (s.bget dev blockno = .panics "bget: no buffers" ∧ ∀ i, (s.buf i).refcnt ≠ 0) ∨
          ∃ i, s.bget dev blockno = .found i (s.recycle i dev blockno) ∧ (s.buf i).refcnt = 0 ∧
            (∀ j, j ≠ i → (s.buf j).refcnt = 0 → s.Older i j) ∧
            (disciplined.Reach s → ¬ s.InUse i) := by
  obtain ⟨l, hl⟩ := reach_inv h
  refine ⟨⟨l, hl.ring, hl.nodup, hl.mem⟩, hl.unique, fun dev blockno hno => ?_⟩
  have hget := hl.bget_of_uncached hno
  cases hfind : l.reverse.find? fun i => (s.buf i).refcnt = 0 with
  | none =>
    rw [hfind] at hget
    refine .inl ⟨hget, fun i => ?_⟩
    simpa using List.find?_eq_none.mp hfind i (List.mem_reverse.mpr (hl.mem i))
  | some i =>
    rw [hfind] at hget
    have h0 : (s.buf i).refcnt = 0 := by simpa using List.find?_some hfind
    refine .inr ⟨i, hget, h0, fun j => hl.older_of_find hfind, fun hd => ?_⟩
    apply State.not_inUse_of_refs
    rw [← reach_counted hd i, h0]
    rfl

/-! ### A run -/

/-- The first buffer. -/
def firstBuf : BufRef := ⟨0, NBUF_pos⟩

/-- The first process. -/
def firstProc : Slot := ⟨0, NPROC_pos⟩

namespace State

/-- The first process has called `bread` for block 1 of device 1. -/
def waiting (k : Links Node) : State :=
  ((start k).recycle firstBuf 1 1).setPc firstProc (.waits firstBuf)

/-- It has the buffer. -/
def reading (k : Links Node) : State :=
  ((waiting k).setBuf firstBuf { (waiting k).buf firstBuf with lock := some firstProc }).setPc
    firstProc (.reads firstBuf)

/-- `bread` has returned. -/
def holding (k : Links Node) : State :=
  ((reading k).setBuf firstBuf { (reading k).buf firstBuf with valid := true }).setPc
    firstProc .idle

/-- The first process has called `bunpin` as well. -/
def unpinned (k : Links Node) : State := (holding k).bunpin firstBuf

variable {i : BufRef}

theorem waiting_buf_of_ne (k : Links Node) (hi : i ≠ firstBuf) :
    (waiting k).buf i = (start k).buf i := setBuf_buf_of_ne _ _ hi

theorem reading_buf_of_ne (k : Links Node) (hi : i ≠ firstBuf) :
    (reading k).buf i = (start k).buf i :=
  (setBuf_buf_of_ne _ _ hi).trans (waiting_buf_of_ne k hi)

theorem holding_buf_of_ne (k : Links Node) (hi : i ≠ firstBuf) :
    (holding k).buf i = (start k).buf i :=
  (setBuf_buf_of_ne _ _ hi).trans (reading_buf_of_ne k hi)

theorem unpinned_buf_of_ne (k : Links Node) (hi : i ≠ firstBuf) :
    (unpinned k).buf i = (start k).buf i :=
  (setBuf_buf_of_ne _ _ hi).trans (holding_buf_of_ne k hi)

theorem Counted.room {s : State} (h : s.Counted) (hle : ∀ i, (s.buf i).refcnt.toNat ≤ 1) :
    s.Room := fun i => by
  have := hle i
  rw [h i] at this
  omega

end State

theorem inv_unpinned (k : Links Node) : Inv (.unpinned k) (List.finRange NBUF).reverse := by
  have hno : ∀ j, ¬ ((State.start k).buf j).Carries 1 1 := fun _ h => absurd h.1 zero_ne_one
  have hwaiting : Inv (.waiting k) (List.finRange NBUF).reverse :=
    ((inv_start k).recycle hno).setPc _ _
  have hreading : Inv (.reading k) (List.finRange NBUF).reverse :=
    .setPc (hwaiting.setBuf (by rfl) (by rfl)) _ _
  have hholding : Inv (.holding k) (List.finRange NBUF).reverse :=
    .setPc (hreading.setBuf (by rfl) (by rfl)) _ _
  have hderef : Inv ((State.holding k).deref firstBuf) (List.finRange NBUF).reverse :=
    hholding.setBuf (by rfl) (by rfl)
  exact hderef.congr rfl rfl rfl fun _ => ⟨rfl, rfl⟩

/-- No count overflows while only the first buffer is in use, once. -/
theorem room_of_firstBuf (h : disciplined.Reach s) (hfirst : (s.buf firstBuf).refcnt.toNat ≤ 1)
    (hother : ∀ {i}, i ≠ firstBuf → s.buf i = (State.start k).buf i) : s.Room := by
  refine (reach_counted h).room fun i => ?_
  by_cases hi : i = firstBuf
  · rw [hi]
    exact hfirst
  · rw [hother hi]
    exact Nat.zero_le 1

theorem reach_holding (k : Links Node) : disciplined.Reach (.holding k) := by
  have hno : ∀ j, ¬ ((State.start k).buf j).Carries 1 1 := fun _ h => absurd h.1 zero_ne_one
  have hget : (State.start k).bget 1 1 =
      .found firstBuf ((State.start k).recycle firstBuf 1 1) := by
    rw [(inv_start k).bget_of_uncached hno, List.reverse_reverse]
    rfl
  have hstart : disciplined.Reach (.start k) := .init ⟨k, rfl⟩
  have hroom₀ := (reach_counted hstart).room fun _ => Nat.zero_le 1
  have hwaiting : disciplined.Reach (.waiting k) :=
    hstart.step (l := (firstProc, .bread 1 1)) ⟨⟨trivial, hroom₀⟩, .got rfl rfl hget⟩
  have hroom₁ := room_of_firstBuf hwaiting (by rfl) (State.waiting_buf_of_ne k)
  have hreading : disciplined.Reach (.reading k) :=
    hwaiting.step (l := (firstProc, .acquiresleep))
      ⟨⟨trivial, hroom₁⟩, .acquiresleep rfl (State.setPc_pc_self ..) (by rfl)⟩
  have hroom₂ := room_of_firstBuf hreading (by rfl) (State.reading_buf_of_ne k)
  exact hreading.step (l := (firstProc, .read))
    ⟨⟨trivial, hroom₂⟩, .read rfl (State.setPc_pc_self ..)⟩

/-- While the first process holds its buffer, the next call of `bread` finds another one that is not
in use. -/
theorem bget_recycles_other :
    ∃ s i, disciplined.Reach s ∧ s.InUse firstBuf ∧ s.bget 1 2 = .found i (s.recycle i 1 2) ∧
      ¬ s.InUse i := by
  let k : Links Node := ⟨fun _ => .head, fun _ => .head⟩
  have hreach := reach_holding k
  have hno : ∀ j, ¬ ((State.holding k).buf j).Carries 1 2 := by
    intro j hj
    by_cases hj' : j = firstBuf
    · rw [hj'] at hj
      exact absurd hj.2 (by decide)
    · rw [State.holding_buf_of_ne k hj'] at hj
      exact absurd hj.1 zero_ne_one
  have hheld : (State.holding k).InUse firstBuf := .inl ⟨firstProc, by rfl⟩
  rcases (bget_recycles_least_recently_freed hreach.of_restrict).2.2 1 2 hno with ⟨-, hall⟩ | hget
  · -- the second buffer is not referred to
    let j : BufRef := ⟨1, by decide⟩
    refine absurd ?_ (hall j)
    rw [State.holding_buf_of_ne k (by decide)]
    rfl
  · obtain ⟨i, hget, -, -, huse⟩ := hget
    exact ⟨.holding k, i, hreach, hheld, hget, huse hreach⟩

/-- If it has called `bunpin` for the buffer without a call of `bpin`, the next call of `bread`
takes the buffer away from it. -/
theorem bget_recycles_held :
    ∃ s i s', (system.restrict HoldsUnpinned).Reach s ∧ (∀ j, ¬ (s.buf j).Carries 1 2) ∧
      s.bget 1 2 = .found i s' ∧ (s.buf i).lock = some firstProc := by
  have hholds : ∀ s, disciplined.Reach s → (system.restrict HoldsUnpinned).Reach s := by
    intro s hs
    refine hs.induct (fun s h => .init h) fun s a s' _ ih hstep => ih.step ⟨?_, hstep.2⟩
    have hmatched := hstep.1.1
    unfold HoldsUnpinned
    split
    · exact hmatched.1
    · trivial
  let k : Links Node := ⟨fun _ => .head, fun _ => .head⟩
  have hreach : (system.restrict HoldsUnpinned).Reach (.unpinned k) :=
    (hholds _ (reach_holding k)).step (l := (firstProc, .bunpin firstBuf))
      ⟨by rfl, .bunpin rfl (State.setPc_pc_self ..)⟩
  have hno : ∀ j, ¬ ((State.unpinned k).buf j).Carries 1 2 := by
    intro j hj
    by_cases hj' : j = firstBuf
    · rw [hj'] at hj
      exact absurd hj.2 (by decide)
    · rw [State.unpinned_buf_of_ne k hj'] at hj
      exact absurd hj.1 zero_ne_one
  refine ⟨.unpinned k, firstBuf, (State.unpinned k).recycle firstBuf 1 2, hreach, hno, ?_, by rfl⟩
  have hzero : ((State.unpinned k).buf firstBuf).refcnt = 0 := UInt32.sub_self 1
  have hfind : ((List.finRange NBUF).find? fun i => ((State.unpinned k).buf i).refcnt = 0) =
      some firstBuf := List.find?_cons_of_pos (decide_eq_true hzero)
  rw [(inv_unpinned k).bget_of_uncached hno, List.reverse_reverse, hfind]

/-! ### The model with a list -/

/-- The cache of `Xv6.Block` has the list that the pointers form, and the same buffers. -/
structure Shows (s : State) (c : Block.State) : Prop where
  /-- The pointers form its list, which has all buffers. -/
  ring : s.links.Ring .head (c.lru.map .buf)
  mem : ∀ i, i ∈ c.lru
  /-- The buffers are the same. -/
  valid : ∀ i, (c.buf i).valid = (s.buf i).valid
  dev : ∀ i, (c.buf i).dev = (s.buf i).dev
  blockno : ∀ i, (c.buf i).blockno = (s.buf i).blockno
  refcnt : ∀ i, (c.buf i).refcnt = (s.buf i).refcnt.toNat

namespace Shows

variable {s s' : State} {c c' : Block.State} {i : BufRef}

/-- One buffer is changed in both. -/
theorem setBuf (h : Shows s c) {b : Buf} {b' : Block.Buf} (hvalid : b'.valid = b.valid)
    (hdev : b'.dev = b.dev) (hblockno : b'.blockno = b.blockno)
    (hrefcnt : b'.refcnt = b.refcnt.toNat) : Shows (s.setBuf i b) (c.setBuf i b') := by
  obtain ⟨hring, hmem, hv, hd, hb, hr⟩ := h
  refine ⟨hring, hmem, ?_, ?_, ?_, ?_⟩ <;> intro j <;> by_cases hj : j = i
  all_goals simp_all [Block.State.setBuf, State.setBuf]

theorem ref (h : Shows s c) (hroom : (s.buf i).refcnt.toNat + 1 < 2 ^ 32) :
    Shows (s.ref i) (c.setBuf i { c.buf i with refcnt := (c.buf i).refcnt + 1 }) :=
  h.setBuf (h.valid i) (h.dev i) (h.blockno i) (by rw [toNat_add_one hroom, h.refcnt])

theorem deref (h : Shows s c) (hpos : 0 < (s.buf i).refcnt.toNat) :
    Shows (s.deref i) (c.setBuf i { c.buf i with refcnt := (c.buf i).refcnt - 1 }) :=
  h.setBuf (h.valid i) (h.dev i) (h.blockno i) (by
    rw [← Nat.sub_eq_of_eq_add (toNat_sub_one hpos).symm, h.refcnt])

theorem bpin (h : Shows s c) (hroom : (s.buf i).refcnt.toNat + 1 < 2 ^ 32) :
    Shows (s.bpin i) (c.bpin i) := by
  have hbuf := h.ref hroom
  exact { hbuf with }

theorem bunpin (h : Shows s c) (hpos : 0 < (s.buf i).refcnt.toNat) :
    Shows (s.bunpin i) (c.bunpin i) := by
  have hbuf := h.deref hpos
  exact { hbuf with }

/-- The section of `brelse` does the same in both. -/
theorem unref (h : Shows s c) (hpos : 0 < (s.buf i).refcnt.toNat) (t : Slot) :
    Shows (s.unref i) (c.unref t i) := by
  have hbuf := h.deref hpos
  have hzero : (c.buf i).refcnt - 1 = 0 ↔ (s.buf i).refcnt - 1 = 0 := by
    rw [← UInt32.toNat_inj, UInt32.toNat_zero, h.refcnt]
    have := toNat_sub_one hpos
    omega
  rw [State.unref, Block.State.unref]
  simp only [hzero]
  split
  · obtain ⟨l₁, l₂, hl⟩ := List.append_of_mem (h.mem i)
    have hnd : c.lru.Nodup := nodup_of_ring h.ring
    rw [hl] at hnd
    have hi : i ∉ l₁ := fun hmem => (List.nodup_append.mp hnd).2.2 i hmem i List.mem_cons_self rfl
    have herase : c.lru.erase i = l₁ ++ l₂ := by
      rw [hl, List.erase_append_right _ hi, List.erase_cons_head]
    refine ⟨?_, fun j => ?_, hbuf.valid, hbuf.dev, hbuf.blockno, hbuf.refcnt⟩
    · change (s.links.unlink (.buf i)).pushFront .head (.buf i) |>.Ring .head
        ((i :: c.lru.erase i).map .buf)
      have hring : s.links.Ring .head (l₁.map .buf ++ .buf i :: l₂.map .buf) := by
        simpa [hl] using h.ring
      rw [herase, List.map_cons, List.map_append]
      refine hring.unlink.pushFront ?_
      simpa using (List.nodup_middle.mp hnd).notMem
    · change j ∈ i :: c.lru.erase i
      by_cases hj : j = i
      · exact hj ▸ List.mem_cons_self
      · exact List.mem_cons_of_mem i ((List.mem_erase_of_ne hj).mpr (h.mem j))
  · exact { hbuf with }

/-- The section of `bget` takes the same buffer in both, or panics in both. -/
theorem bget (h : Shows s c) (hroom : ∀ i, (s.buf i).refcnt.toNat + 1 < 2 ^ 32) (t : Slot)
    (dev blockno : ℕ) :
    match s.bget dev blockno with
    | .found i s' => ∃ c', c.bget t dev blockno = (some i, c') ∧ Shows s' c'
    | .panics _ => (c.bget t dev blockno).1 = none
    | .loops => False := by
  have hcarries : (fun i => decide ((c.buf i).dev = dev ∧ (c.buf i).blockno = blockno)) =
      fun i => decide ((s.buf i).Carries dev blockno) := by
    funext i
    rw [h.dev, h.blockno]
    rfl
  have hzero : (fun i => decide ((c.buf i).refcnt = 0)) =
      fun i => decide ((s.buf i).refcnt = 0) := by
    funext i
    rw [h.refcnt]
    exact decide_eq_decide.mpr (UInt32.toNat_inj (b := 0))
  rw [bget_eq h.ring, Block.State.bget, hcarries, hzero]
  cases c.lru.find? fun i => decide ((s.buf i).Carries dev blockno) with
  | some i =>
    have hbuf := h.ref (hroom i)
    exact ⟨_, rfl, { hbuf with }⟩
  | none =>
    cases c.lru.reverse.find? fun i => decide ((s.buf i).refcnt = 0) with
    | some i =>
      have hbuf : Shows (s.recycle i dev blockno) (c.setBuf i { c.buf i with
          dev := dev, blockno := blockno, valid := false, refcnt := 1 }) :=
        h.setBuf (by rfl) (by rfl) (by rfl) (by rfl)
      exact ⟨_, rfl, { hbuf with }⟩
    | none => rfl

/-- `binit` does what a restart does. -/
theorem start (k : Links Node) (boot : Slot) (c : Block.State) :
    Shows (.start k) (c.reboot boot) where
  ring := (inv_start k).ring
  mem := (inv_start k).mem
  valid _ := rfl
  dev _ := rfl
  blockno _ := rfl
  refcnt _ := rfl

end Shows

/-- **The pointers implement the list.** In every run in which calls of `bunpin` match calls of `bpin`
and no count overflows, if a cache of `Xv6.Block` has the list and the buffers, each section does the
same to both: that of `bget` ends and takes the same buffer, or panics in both. -/
theorem pointers_refine_list {s : State} {c : Block.State} (h : disciplined.Reach s) (hroom : s.Room)
    (hc : Shows s c) (t : Slot) :
    (∀ dev blockno, match s.bget dev blockno with
      | .found i s' => ∃ c', c.bget t dev blockno = (some i, c') ∧ Shows s' c'
      | .panics _ => (c.bget t dev blockno).1 = none
      | .loops => False) ∧
    (∀ i, s.pc t = .drops i → Shows (s.unref i) (c.unref t i)) ∧
    (∀ i, Shows (s.bpin i) (c.bpin i)) ∧ ∀ i, 0 < s.pins i → Shows (s.bunpin i) (c.bunpin i) := by
  have hcount := reach_counted h
  have hlt i : (s.buf i).refcnt.toNat + 1 < 2 ^ 32 := by
    rw [hcount i]
    exact hroom i
  refine ⟨fun dev blockno => hc.bget hlt t dev blockno, fun i hi => hc.unref ?_ t,
    fun i => hc.bpin (hlt i), fun i hi => hc.bunpin ?_⟩ <;> rw [hcount i, State.refs]
  · have hpos : 0 < Lib.refs (fun t => (s.pc t).ref) i := refs_pos (i := t) (by rw [hi]; rfl)
    omega
  · omega

/-- The first process has read a block, and is in `brelse`. -/
def State.dropping (k : Links Node) : State :=
  ((holding k).setBuf firstBuf { (holding k).buf firstBuf with lock := none }).setPc firstProc
    (.drops firstBuf)

/-- It has released the buffer. -/
def State.released (k : Links Node) : State :=
  ((dropping k).unref firstBuf).setPc firstProc .idle

/-- The buffer that `bget` takes. -/
def Got.buf : Got → Option BufRef
  | .found i _ => some i
  | _ => none

/-- The first process reads a block and releases the buffer, which becomes the most recently used one:
its next call recycles the second buffer. -/
theorem pointers_refine_list_recycles : ∃ s c c', disciplined.Reach s ∧ Shows s c ∧
    Shows (s.unref firstBuf) (c.unref firstProc firstBuf) ∧
    (c.unref firstProc firstBuf).bget firstProc 1 2 = (some ⟨1, by decide⟩, c') := by
  let z : Block.Data := fun _ => 0
  let k : Links Node := ⟨fun _ => .head, fun _ => .head⟩
  have hdropping : disciplined.Reach (.dropping k) := by
    have hroom := room_of_firstBuf (reach_holding k) (by rfl) (State.holding_buf_of_ne k)
    exact (reach_holding k).step (l := (firstProc, .brelse firstBuf))
      ⟨⟨trivial, hroom⟩, .brelse rfl (State.setPc_pc_self ..) (by rfl)⟩
  have hother {i : BufRef} (hi : i ≠ firstBuf) :
      (State.dropping k).buf i = (State.start k).buf i :=
    (State.setBuf_buf_of_ne _ _ hi).trans (State.holding_buf_of_ne k hi)
  have hroom := room_of_firstBuf hdropping (by rfl) hother
  have hreleased : disciplined.Reach (.released k) := hdropping.step (l := (firstProc, .unref))
    ⟨⟨trivial, hroom⟩, .unref rfl (State.setPc_pc_self ..)⟩
  obtain ⟨l, hl⟩ := reach_inv hdropping.of_restrict
  let c : Block.State := ⟨fun i => ⟨((State.dropping k).buf i).valid, ((State.dropping k).buf i).dev,
    ((State.dropping k).buf i).blockno, none, ((State.dropping k).buf i).refcnt.toNat, z⟩, l,
    ⟨0, false, []⟩, fun _ => false, fun _ => z, ⟨fun _ => z, [], [], 0⟩, ⟨fun _ => z, [], [], 0⟩,
    ⟨fun _ _ => 0, fun _ => 0, fun _ => none, none⟩, false⟩
  have hc : Shows (.dropping k) c :=
    ⟨hl.ring, hl.mem, fun _ => rfl, fun _ => rfl, fun _ => rfl, fun _ => rfl⟩
  have hunref := (pointers_refine_list hdropping hroom hc firstProc).2.1 firstBuf
    (State.setPc_pc_self ..)
  have hroom' : (State.released k).Room := by
    refine (reach_counted hreleased).room ?_
    decide +kernel
  have hshows : Shows (.released k) (c.unref firstProc firstBuf) := { hunref with }
  have hbget := (pointers_refine_list hreleased hroom' hshows firstProc).1 1 2
  have hbuf : ((State.released k).bget 1 2).buf = some ⟨1, by decide⟩ := by decide +kernel
  cases hget : (State.released k).bget 1 2 with
  | found i s' =>
    rw [hget] at hbget hbuf
    obtain rfl := Option.some.inj hbuf
    obtain ⟨c', hc', -⟩ := hbget
    exact ⟨_, c, c', hdropping, hc, hunref, hc'⟩
  | panics msg => rw [hget] at hbuf; cases hbuf
  | loops => rw [hget] at hbuf; cases hbuf

end Xv6.Bio
