import Mathlib.Data.List.Infix

/-!
# The matcher of `grep`

`grep.c`: `match`, `matchhere` and `matchstar`, on strings given as the lists of their bytes before the
NUL byte. What a pattern means is said apart from them: `items` reads a pattern as a sequence of items
(a character, a starred character, the end of the text), and `PrefixOf` says which texts start with
pieces the items accept one after the other. `matchText_iff` relates the two for every pattern and text.
-/

namespace Xv6.Grep

/-- Source: `grep.c` `matchhere`. -/
abbrev star : UInt8 := '*'.toUInt8

/-- Source: `grep.c` `matchhere`, `matchstar`. -/
abbrev dot : UInt8 := '.'.toUInt8

/-- Source: `grep.c` `matchhere`. -/
abbrev dollar : UInt8 := '$'.toUInt8

/-- Source: `grep.c` `match`. -/
abbrev caret : UInt8 := '^'.toUInt8

/-! ### The code -/

/-- The loop of `matchstar`, with `matchhere(re, ·)` for `here`: it stops at the first position where
`here` holds, or at the first byte that is not `c`. Source: `grep.c` `matchstar`. -/
def starLoop (here : List UInt8 → Bool) (c : UInt8) : List UInt8 → Bool
  | [] => here []
  | t :: text => here (t :: text) || ((t == c || c == dot) && starLoop here c text)

/-- The last test of `matchhere`, with `matchhere(re+1, ·)` for `here`. Source: `grep.c` `matchhere`. -/
def oneStep (here : List UInt8 → Bool) (c : UInt8) : List UInt8 → Bool
  | [] => false
  | t :: text => (c == dot || c == t) && here text

/-- Source: `grep.c` `matchhere`. -/
def matchhere : List UInt8 → List UInt8 → Bool
  | [], _ => true
  | [c], text => if c = dollar then text.isEmpty else oneStep (matchhere []) c text
  | c :: d :: re, text =>
    if d = star then starLoop (matchhere re) c text
    else oneStep (matchhere (d :: re)) c text

/-- The loop of `match`: every position, the end of the text among them. Source: `grep.c` `match`. -/
def matchFrom (re : List UInt8) : List UInt8 → Bool
  | [] => matchhere re []
  | t :: text => matchhere re (t :: text) || matchFrom re text

/-- Source: `grep.c` `match`. -/
def matchText (re text : List UInt8) : Bool :=
  match re with
  | [] => matchFrom [] text
  | c :: re => if c = caret then matchhere re text else matchFrom (c :: re) text

/-! ### What a pattern means -/

/-- An item of a pattern. -/
inductive Item
  | one (c : UInt8)
  | many (c : UInt8)
  | ending
deriving DecidableEq, Repr

/-- The byte is one the pattern's character stands for: any byte for `.`, the character itself
otherwise. -/
def Stands (c t : UInt8) : Prop := c = dot ∨ c = t

/-- The items of a pattern: a character followed by `*` is starred, whatever it is, and `$` is the end
of the text only as the last character. -/
def items : List UInt8 → List Item
  | [] => []
  | [c] => if c = dollar then [.ending] else [.one c]
  | c :: d :: re => if d = star then .many c :: items re else .one c :: items (d :: re)

/-- The item accepts the bytes `s` in front of `rest`. -/
def Item.Accepts : Item → List UInt8 → List UInt8 → Prop
  | .one c, s, _ => ∃ t, s = [t] ∧ Stands c t
  | .many c, s, _ => ∀ t ∈ s, Stands c t
  | .ending, s, rest => s = [] ∧ rest = []

/-- The items accept a prefix of the text, piece by piece. -/
def PrefixOf : List Item → List UInt8 → Prop
  | [], _ => True
  | i :: is, text => ∃ s rest, text = s ++ rest ∧ i.Accepts s rest ∧ PrefixOf is rest

/-- The text matches the pattern: at its start if the pattern begins with `^`, at some position
otherwise. -/
def Matches (re text : List UInt8) : Prop :=
  match re with
  | [] => ∃ before rest, text = before ++ rest ∧ PrefixOf (items []) rest
  | c :: re =>
    if c = caret then PrefixOf (items re) text
    else ∃ before rest, text = before ++ rest ∧ PrefixOf (items (c :: re)) rest

/-! ### The loops -/

variable {P : List UInt8 → List UInt8 → Prop} {text : List UInt8} {is : List Item} {c : UInt8}

theorem split_cons {t : UInt8} :
    (∃ s rest, t :: text = s ++ rest ∧ P s rest) ↔
      P [] (t :: text) ∨ ∃ s rest, text = s ++ rest ∧ P (t :: s) rest := by
  constructor
  · rintro ⟨s, rest, h, hP⟩
    match s, h with
    | [], h =>
      rw [List.nil_append] at h
      exact .inl (h ▸ hP)
    | t' :: s, h =>
      obtain ⟨rfl, htext⟩ := List.cons.inj h
      exact .inr ⟨s, rest, htext, hP⟩
  · rintro (hP | ⟨s, rest, rfl, hP⟩)
    · exact ⟨[], t :: text, rfl, hP⟩
    · exact ⟨t :: s, rest, rfl, hP⟩

theorem split_nil : (∃ s rest, [] = s ++ rest ∧ P s rest) ↔ P [] [] := by
  constructor
  · rintro ⟨s, rest, h, hP⟩
    obtain ⟨rfl, rfl⟩ := List.append_eq_nil_iff.mp h.symm
    exact hP
  · exact fun hP => ⟨[], [], rfl, hP⟩

/-- The loop of `matchstar` finds a number of bytes `c` stands for with a place `here` accepts behind
them, if there is one. -/
theorem starLoop_iff (here : List UInt8 → Bool) (c : UInt8) (text : List UInt8) :
    starLoop here c text = true ↔
      ∃ s rest, text = s ++ rest ∧ (∀ t ∈ s, Stands c t) ∧ here rest = true := by
  induction text with
  | nil => simp [starLoop]
  | cons t text ih =>
    rw [split_cons (P := fun s rest => (∀ t ∈ s, Stands c t) ∧ here rest = true)]
    simp only [starLoop, Bool.or_eq_true, Bool.and_eq_true, beq_iff_eq, ih, List.forall_mem_cons,
      List.not_mem_nil, false_implies, implies_true, true_and, Stands, @eq_comm _ t c]
    -- The byte in front stands alone on the one side and in every split on the other.
    refine or_congr_right ?_
    constructor
    · rintro ⟨hc, s, rest, h, hs, hr⟩
      exact ⟨s, rest, h, ⟨hc.symm, hs⟩, hr⟩
    · rintro ⟨s, rest, h, ⟨hc, hs⟩, hr⟩
      exact ⟨hc.symm, s, rest, h, hs, hr⟩

/-- The loop of `match` finds a position from which the pattern matches, if there is one. -/
theorem matchFrom_iff (re text : List UInt8) :
    matchFrom re text = true ↔
      ∃ before rest, text = before ++ rest ∧ matchhere re rest = true := by
  induction text with
  | nil => exact (split_nil (P := fun _ rest => matchhere re rest = true)).symm
  | cons t text ih =>
    rw [split_cons (P := fun _ rest => matchhere re rest = true), matchFrom, Bool.or_eq_true, ih]

/-! ### The patterns -/

/-- A single character, at the front of a text. -/
theorem prefixOf_one :
    PrefixOf (.one c :: is) text ↔ ∃ t rest, text = t :: rest ∧ Stands c t ∧ PrefixOf is rest := by
  constructor
  · rintro ⟨_, rest, rfl, ⟨t, rfl, ht⟩, hr⟩
    exact ⟨t, rest, rfl, ht, hr⟩
  · rintro ⟨t, rest, rfl, ht, hr⟩
    exact ⟨[t], rest, rfl, ⟨t, rfl, ht⟩, hr⟩

theorem prefixOf_ending : PrefixOf [.ending] text ↔ text = [] := by
  constructor
  · rintro ⟨_, _, rfl, ⟨rfl, rfl⟩, -⟩
    rfl
  · rintro rfl
    exact ⟨[], [], rfl, ⟨rfl, rfl⟩, trivial⟩

/-- The step of `matchhere` over one character. -/
theorem oneStep_iff {here : List UInt8 → Bool} (h : ∀ rest, here rest = true ↔ PrefixOf is rest)
    (text : List UInt8) : oneStep here c text = true ↔ PrefixOf (.one c :: is) text := by
  rw [prefixOf_one]
  cases text with
  | nil => simp [oneStep]
  | cons t text => simp [oneStep, h, Stands]

/-- `matchhere` accepts exactly the texts with a prefix that the items of the pattern accept. -/
theorem matchhere_iff (re text : List UInt8) :
    matchhere re text = true ↔ PrefixOf (items re) text := by
  -- The recursion is on the pattern, two characters at once behind a star.
  induction re using items.induct generalizing text with
  | case1 => simp [matchhere, items, PrefixOf]
  | case2 => simp [matchhere, items, prefixOf_ending]
  | case3 c hc =>
    rw [matchhere, items, if_neg hc, if_neg hc]
    exact oneStep_iff (fun rest => by simp [matchhere, PrefixOf]) text
  | case4 c re ih =>
    rw [matchhere, items, if_pos rfl, if_pos rfl, starLoop_iff]
    simp only [PrefixOf, Item.Accepts, ih]
  | case5 c d re hd ih =>
    rw [matchhere, items, if_neg hd, if_neg hd]
    exact oneStep_iff ih text

/-- For every pattern and text, `match` returns (it is a total function) and says whether the text
matches the pattern. -/
theorem matchText_iff (re text : List UInt8) : matchText re text = true ↔ Matches re text := by
  have hfrom (re : List UInt8) : matchFrom re text = true ↔
      ∃ before rest, text = before ++ rest ∧ PrefixOf (items re) rest := by
    simp only [matchFrom_iff, matchhere_iff]
  match re with
  | [] => exact hfrom []
  | c :: re =>
    by_cases hc : c = caret
    · simp only [matchText, Matches, if_pos hc, matchhere_iff]
    · simp only [matchText, Matches, if_neg hc, hfrom]

/-- A star behind `$` repeats it, and a star that comes first is a character. -/
example : matchText [97, dollar, star, 98] [120, 97, dollar, dollar, 98] = true ∧
    matchText [star] [97, 98] = false := by
  decide

end Xv6.Grep
