import Mathlib.Data.Nat.Digits.Lemmas

/-!
# Numbers in the output of `printf`

User `printf.c`. What a call prints is a list of bytes, and its arguments are 64-bit slots, of which
`va_arg` takes one at a time. `printint` puts the digits of a number backwards into a buffer of 16
bytes; a byte put outside it would make the model fail, and so would an argument that is not there.

`numeral` says what is to be printed, with the digits as Mathlib defines them, and `Conv.parse`
reads it back. `%l` takes a `uint64` but hands it to `printint` as an `int`, so only its low half is
printed.
-/

namespace Xv6.Printf

/-- Source: `printf.c` `digits`; the table ends with a NUL byte. -/
def digits : List UInt8 :=
  ['0', '1', '2', '3', '4', '5', '6', '7', '8', '9', 'A', 'B', 'C', 'D', 'E', 'F'].map Char.toUInt8

/-- `digits[i]`. -/
def digit (i : ℕ) : UInt8 := digits.getD i 0

/-! ### The program -/

/-- The size of `buf`. -/
def BUF : ℕ := 16

/-- `do buf[i++] = digits[x % base]; while((x /= base) != 0)`, with `room` bytes left in `buf`. -/
def fill (base : UInt32) : ℕ → UInt32 → List UInt8 → Option (List UInt8)
  | 0, _, _ => none
  | room + 1, x, buf =>
    if x / base = 0 then some (buf ++ [digit (x % base).toNat])
    else fill base room (x / base) (buf ++ [digit (x % base).toNat])

/-- Source: `printf.c` `printint`. The negation of an `int` wraps, as the machine's does. -/
def printint (xx : Int32) (base : UInt32) (sgn : Bool) : Option (List UInt8) := do
  let neg := sgn && xx < 0
  let x := if neg then (-xx).toUInt32 else xx.toUInt32
  let buf ← fill base BUF x []
  let buf ←
    if neg then (if buf.length < BUF then some (buf ++ ['-'.toUInt8]) else none) else some buf
  return buf.reverse

/-- `n` turns of the loop of `printptr`. -/
def ptrLoop : ℕ → UInt64 → List UInt8
  | 0, _ => []
  | n + 1, x => digit (x >>> 60).toNat :: ptrLoop n (x <<< 4)

/-- Source: `printf.c` `printptr`. -/
def printptr (x : UInt64) : List UInt8 := '0'.toUInt8 :: 'x'.toUInt8 :: ptrLoop 16 x

/-- `va_arg(ap, int)`, of the next slot. -/
def intArg (a : UInt64) : Int32 := a.toUInt32.toInt32

/-- A conversion `%c`: what it prints, and the slots it leaves. `str` gives the string at an
address, up to its NUL byte. Source: `printf.c` `vprintf`, in `state == '%'`. -/
def convert (str : UInt64 → List UInt8) (c : UInt8) (ap : List UInt64) :
    Option (List UInt8 × List UInt64) :=
  if c = 'd'.toUInt8 then do
    let a ← ap.head?
    return (← printint (intArg a) 10 true, ap.tail)
  else if c = 'l'.toUInt8 then do
    let a ← ap.head?
    return (← printint a.toUInt32.toInt32 10 false, ap.tail)
  else if c = 'x'.toUInt8 then do
    let a ← ap.head?
    return (← printint (intArg a) 16 false, ap.tail)
  else if c = 'p'.toUInt8 then do
    let a ← ap.head?
    return (printptr a, ap.tail)
  else if c = 's'.toUInt8 then do
    let a ← ap.head?
    return (if a = 0 then ['(', 'n', 'u', 'l', 'l', ')'].map Char.toUInt8 else str a, ap.tail)
  else if c = 'c'.toUInt8 then do
    let a ← ap.head?
    return ([a.toUInt8], ap.tail)
  else if c = '%'.toUInt8 then some ([c], ap)
  else some (['%'.toUInt8, c], ap)

/-- The bytes that are printed, from the format that is left, `state == '%'` and the slots that are
left. Source: `printf.c` `vprintf`. -/
def vprintf (str : UInt64 → List UInt8) : List UInt8 → Bool → List UInt64 → Option (List UInt8)
  | [], _, _ => some []
  | c :: fmt, percent, ap =>
    if c = 0 then some []
    else if percent then do
      let (out, ap) ← convert str c ap
      return out ++ (← vprintf str fmt false ap)
    else if c = '%'.toUInt8 then vprintf str fmt true ap
    else do return c :: (← vprintf str fmt false ap)

/-! ### Numerals -/

/-- The numeral of a number, without leading zeros. -/
def numeral (base n : ℕ) : List UInt8 :=
  if n = 0 then [digit 0] else ((Nat.digits base n).map digit).reverse

/-- The numeral of `k` hexadecimal digits. -/
def hexNumeral : ℕ → ℕ → List UInt8
  | 0, _ => []
  | k + 1, n => digit (n / 16 ^ k % 16) :: hexNumeral k n

/-- The value of a digit. -/
def digitValue (c : UInt8) : ℕ :=
  if c ≤ '9'.toUInt8 then c.toNat - '0'.toNat else c.toNat - 'A'.toNat + 10

/-- The number a numeral stands for. -/
def parse (base : ℕ) (ds : List UInt8) : ℕ := Nat.ofDigits base (ds.reverse.map digitValue)

theorem digitValue_digit {i : ℕ} (h : i < 16) : digitValue (digit i) = i := by
  interval_cases i <;> decide +kernel

theorem map_digitValue_digit {l : List ℕ} (h : ∀ i ∈ l, i < 16) :
    (l.map digit).map digitValue = l := by
  rw [List.map_map]
  conv_rhs => rw [← List.map_id l]
  exact List.map_congr_left fun i hi => digitValue_digit (h i hi)

variable {base n : ℕ} {xx : Int32}

theorem parse_numeral (n : ℕ) (h1 : 1 < base) (h16 : base ≤ 16) :
    parse base (numeral base n) = n := by
  unfold parse numeral
  split_ifs with hn
  · rw [hn]
    simp [digitValue_digit]
  · rw [List.reverse_reverse, map_digitValue_digit, Nat.ofDigits_digits]
    exact fun i hi => lt_of_lt_of_le (Nat.digits_lt_base h1 hi) h16

theorem length_hexNumeral (k n : ℕ) : (hexNumeral k n).length = k := by
  induction k with
  | zero => rfl
  | succ k ih => rw [hexNumeral, List.length_cons, ih]

theorem parse_hexNumeral (k n : ℕ) : parse 16 (hexNumeral k n) = n % 16 ^ k := by
  induction k with
  | zero => simp [parse, hexNumeral, Nat.mod_one]
  | succ k ih =>
    rw [parse] at ih ⊢
    rw [hexNumeral, List.reverse_cons, List.map_append, Nat.ofDigits_append, ih, List.length_map,
      List.length_reverse, length_hexNumeral, List.map_singleton, Nat.ofDigits_singleton,
      digitValue_digit (Nat.mod_lt _ (by decide)), Nat.mod_pow_succ]

/-- Only the numeral of zero starts with a zero. -/
theorem numeral_lead {ds : List UInt8} (h1 : 1 < base) (h16 : base ≤ 16)
    (h : numeral base n = digit 0 :: ds) : ds = [] := by
  unfold numeral at h
  split_ifs at h with hn
  · exact (List.cons.inj h).2.symm
  · have hne : Nat.digits base n ≠ [] := Nat.digits_ne_nil_iff_ne_zero.mpr hn
    have hlast : (((Nat.digits base n).map digit).reverse).head? = some (digit 0) := by rw [h]; rfl
    rw [List.head?_reverse, List.getLast?_map, List.getLast?_eq_some_getLast hne] at hlast
    have h0 : digit ((Nat.digits base n).getLast hne) = digit 0 := by simpa using hlast
    have hlt : (Nat.digits base n).getLast hne < 16 :=
      lt_of_lt_of_le (Nat.digits_lt_base h1 (List.getLast_mem hne)) h16
    have := congrArg digitValue h0
    rw [digitValue_digit hlt, digitValue_digit (by decide)] at this
    exact absurd this (Nat.getLast_digit_ne_zero base hn)

/-! ### The loops -/

theorem fill_eq {base : UInt32} (hbase : 1 < base.toNat) {room : ℕ} (x : UInt32) (buf : List UInt8)
    (h : x.toNat < base.toNat ^ room) (hroom : 0 < room) :
    fill base room x buf = some (buf ++ (numeral base.toNat x.toNat).reverse) := by
  induction room generalizing x buf with
  | zero => cases hroom
  | succ room ih =>
    have hq : (x / base).toNat = x.toNat / base.toNat := UInt32.toNat_div x base
    have hr : (x % base).toNat = x.toNat % base.toNat := UInt32.toNat_mod x base
    rw [fill, hr]
    split_ifs with hx
    · -- the last digit
      have hlt : x.toNat < base.toNat := by
        rw [← UInt32.toNat_inj, hq] at hx
        exact (Nat.div_eq_zero_iff_lt (by omega)).mp hx
      rw [Nat.mod_eq_of_lt hlt]
      by_cases h0 : x.toNat = 0
      · simp [numeral, h0]
      · simp [numeral, h0, Nat.digits_of_lt _ _ h0 hlt]
    · have hne : x.toNat / base.toNat ≠ 0 := by
        rw [← hq]
        exact fun h0 => hx (UInt32.toNat_inj.mp h0)
      have hx0 : x.toNat ≠ 0 := fun h0 => hne (by rw [h0, Nat.zero_div])
      have hroom' : 0 < room := by
        rcases Nat.eq_zero_or_pos room with rfl | hpos
        · rw [zero_add, pow_one] at h
          exact absurd (Nat.div_eq_of_lt h) hne
        · exact hpos
      rw [ih _ _ (by rw [hq]; exact Nat.div_lt_of_lt_mul (by rwa [pow_succ'] at h)) hroom', hq]
      simp only [numeral, if_neg hne, if_neg hx0, List.reverse_reverse]
      rw [Nat.digits_def' hbase (Nat.pos_of_ne_zero hx0), List.map_cons, List.append_assoc,
        List.singleton_append]

theorem length_numeral {k : ℕ} (hbase : 1 < base) (hk : 0 < k) (h : n < base ^ k) :
    (numeral base n).length ≤ k := by
  unfold numeral
  split_ifs with hn
  · exact hk
  · rw [List.length_reverse, List.length_map]
    exact (Nat.digits_length_le_iff hbase n).mpr h

theorem printint_unsigned {base : UInt32} (hbase : 10 ≤ base.toNat) (xx : Int32) :
    printint xx base false = some (numeral base.toNat xx.toUInt32.toNat) := by
  have hlt : xx.toUInt32.toNat < base.toNat ^ BUF :=
    calc xx.toUInt32.toNat < 10 ^ BUF := lt_trans (UInt32.toNat_lt _) (by decide)
      _ ≤ base.toNat ^ BUF := Nat.pow_le_pow_left hbase BUF
  simp [printint, fill_eq (by omega) _ _ hlt (by decide)]

theorem toInt_eq (xx : Int32) : xx.toInt =
    if 2 * xx.toUInt32.toNat < 2 ^ 32 then (xx.toUInt32.toNat : ℤ)
    else (xx.toUInt32.toNat : ℤ) - 2 ^ 32 :=
  BitVec.toInt_eq_toNat_cond xx.toBitVec

theorem neg_iff : xx < 0 ↔ xx.toInt < 0 := Int32.lt_iff_toInt_lt

theorem toNat_of_nonneg (h : ¬ xx < 0) : xx.toUInt32.toNat = xx.toInt.natAbs := by
  rw [neg_iff] at h
  have hlt := xx.toUInt32.toNat_lt
  have heq := toInt_eq xx
  split_ifs at heq <;> omega

theorem toNat_neg (h : xx < 0) : (-xx).toUInt32.toNat = xx.toInt.natAbs := by
  rw [neg_iff] at h
  have hlt := xx.toUInt32.toNat_lt
  have heq := toInt_eq xx
  have hsub : (-xx).toUInt32.toNat = (2 ^ 32 - xx.toUInt32.toNat) % 2 ^ 32 :=
    BitVec.toNat_neg xx.toBitVec
  rw [hsub]
  split_ifs at heq <;> omega

/-- The numeral of an integer. -/
def intNumeral (v : ℤ) : List UInt8 :=
  if v < 0 then '-'.toUInt8 :: numeral 10 v.natAbs else numeral 10 v.natAbs

/-- Printing with a sign, `INT_MIN` included. -/
theorem printint_signed (xx : Int32) : printint xx 10 true = some (intNumeral xx.toInt) := by
  by_cases h : xx < 0
  · have hneg := neg_iff.mp h
    have hlt : (-xx).toUInt32.toNat < 10 ^ 10 := lt_trans (UInt32.toNat_lt _) (by decide)
    have hlen : (numeral 10 (-xx).toUInt32.toNat).length < BUF :=
      lt_of_le_of_lt (length_numeral (by decide) (by decide) hlt) (by decide)
    have hfill : fill 10 BUF (-xx).toUInt32 [] = some (numeral 10 (-xx).toUInt32.toNat).reverse :=
      fill_eq (by decide) _ _ (lt_trans hlt (by decide)) (by decide)
    have hbuf : (numeral 10 (-xx).toUInt32.toNat).reverse.length < BUF := by
      rwa [List.length_reverse]
    simp only [printint, h, decide_true, Bool.and_self, if_true, hfill, Option.bind_eq_bind,
      Option.bind_some, if_pos hbuf, List.reverse_append, List.reverse_reverse]
    rw [toNat_neg h, intNumeral, if_pos hneg]
    rfl
  · have hneg := mt neg_iff.mpr h
    have hun : printint xx 10 false = some (numeral 10 xx.toUInt32.toNat) :=
      printint_unsigned (by decide) xx
    rw [intNumeral, if_neg hneg, ← toNat_of_nonneg h, ← hun]
    simp [printint, h]

/-- Before a turn, `x` holds the digits that are left, in its upper bits. -/
theorem ptrLoop_eq (hn : n ≤ 16) (x : ℕ) (y : UInt64) (h : y.toNat = x * 16 ^ (16 - n) % 16 ^ 16) :
    ptrLoop n y = hexNumeral n x := by
  induction n generalizing y with
  | zero => rfl
  | succ n ih =>
    obtain ⟨m, hm⟩ : ∃ m, 16 = m + (n + 1) := ⟨16 - (n + 1), by omega⟩
    have hsub : 16 - (n + 1) = m := by omega
    have hsub' : 16 - n = m + 1 := by omega
    have hpow : 16 ^ 16 = 16 ^ m * 16 ^ (n + 1) := by rw [← pow_add, ← hm]
    rw [hsub] at h
    rw [ptrLoop, hexNumeral, ih (by omega)]
    · congr 2
      have hshift : (y >>> 60).toNat = y.toNat / 16 ^ 15 := by
        rw [UInt64.toNat_shiftRight, Nat.shiftRight_eq_div_pow]
        rfl
      have h15 : 16 ^ 15 = 16 ^ m * 16 ^ n := by
        rw [← pow_add]
        congr 1
        omega
      rw [hshift, h, hpow, Nat.mul_comm x, Nat.mul_mod_mul_left, h15,
        Nat.mul_div_mul_left _ _ (by positivity), pow_succ, Nat.mod_mul_right_div_self]
    · have hshift : (y <<< 4).toNat = y.toNat * 16 % 16 ^ 16 := by
        rw [UInt64.toNat_shiftLeft, Nat.shiftLeft_eq]
        rfl
      rw [hshift, h, Nat.mod_mul_mod, hsub', pow_succ 16 m, Nat.mul_assoc]

theorem printptr_eq (x : UInt64) :
    printptr x = '0'.toUInt8 :: 'x'.toUInt8 :: hexNumeral 16 x.toNat := by
  have hlt : x.toNat < 16 ^ 16 := x.toNat_lt
  rw [printptr, ptrLoop_eq (le_refl 16) x.toNat]
  rw [Nat.sub_self, pow_zero, Nat.mul_one, Nat.mod_eq_of_lt hlt]

/-! ### The conversions of numbers -/

/-- `%d`, `%x`, `%l` and `%p`. -/
inductive Conv
  | d | x | l | p
  deriving DecidableEq, Repr

namespace Conv

def char : Conv → UInt8
  | d => 'd'.toUInt8
  | x => 'x'.toUInt8
  | l => 'l'.toUInt8
  | p => 'p'.toUInt8

/-- The value of the argument, of the type the conversion fetches: `int`, `uint`, `uint64`,
`uint64`. -/
def value : Conv → UInt64 → ℤ
  | d, a => (intArg a).toInt
  | x, a => a.toUInt32.toNat
  | l, a => a.toNat
  | p, a => a.toNat

/-- The canonical numeral of the argument. -/
def numeral : Conv → UInt64 → List UInt8
  | d, a => intNumeral (intArg a).toInt
  | x, a => Printf.numeral 16 a.toUInt32.toNat
  | l, a => Printf.numeral 10 a.toNat
  | p, a => '0'.toUInt8 :: 'x'.toUInt8 :: hexNumeral 16 a.toNat

/-- What `vprintf` prints: for `%l`, the low half of the argument. -/
def printed : Conv → UInt64 → List UInt8
  | l, a => Printf.numeral 10 a.toUInt32.toNat
  | conv, a => conv.numeral a

/-- The number that printed digits stand for. -/
def parse : Conv → List UInt8 → ℤ
  | d, c :: ds => if c = '-'.toUInt8 then -(Printf.parse 10 ds : ℤ) else Printf.parse 10 (c :: ds)
  | d, [] => 0
  | x, ds => Printf.parse 16 ds
  | l, ds => Printf.parse 10 ds
  | p, ds => Printf.parse 16 (ds.drop 2)

end Conv

/-- What a conversion of a number prints. -/
theorem convert_eq (str : UInt64 → List UInt8) (conv : Conv) (a : UInt64) (ap : List UInt64) :
    convert str conv.char (a :: ap) = some (conv.printed a, ap) := by
  cases conv with
  | d =>
    rw [Conv.char, convert, if_pos rfl]
    simp only [List.head?_cons, Option.bind_eq_bind, Option.bind_some]
    rw [printint_signed]
    rfl
  | x =>
    rw [Conv.char, convert, if_neg (by decide +kernel), if_neg (by decide +kernel), if_pos rfl]
    simp only [List.head?_cons, Option.bind_eq_bind, Option.bind_some]
    rw [printint_unsigned (by decide)]
    rfl
  | l =>
    rw [Conv.char, convert, if_neg (by decide +kernel), if_pos rfl]
    simp only [List.head?_cons, Option.bind_eq_bind, Option.bind_some]
    rw [printint_unsigned (by decide)]
    rfl
  | p =>
    rw [Conv.char, convert, if_neg (by decide +kernel), if_neg (by decide +kernel),
      if_neg (by decide +kernel), if_pos rfl]
    exact congrArg (fun out => some (out, ap)) (printptr_eq a)

/-- Only for `%l` does it matter how large the argument is. -/
theorem printed_eq_iff {conv : Conv} {a : UInt64} :
    conv.printed a = conv.numeral a ↔ (conv = .l → a.toNat < 2 ^ 32) := by
  cases conv with
  | l =>
    constructor
    · intro h _
      -- two numbers with the same numeral are equal
      have hparse := congrArg (parse 10) h
      rw [Conv.printed, Conv.numeral, parse_numeral _ (by decide) (by decide),
        parse_numeral _ (by decide) (by decide)] at hparse
      rw [← hparse]
      exact UInt32.toNat_lt _
    · intro h
      rw [Conv.printed, Conv.numeral, UInt64.toNat_toUInt32, Nat.mod_eq_of_lt (h rfl)]
  | _ => exact iff_of_true rfl (by simp)

theorem digit_ne_minus {i : ℕ} (h : i < 16) : digit i ≠ '-'.toUInt8 := by
  interval_cases i <;> decide +kernel

theorem mem_numeral {c : UInt8} (h1 : 1 < base) (h16 : base ≤ 16) (h : c ∈ numeral base n) :
    ∃ i < 16, c = digit i := by
  unfold numeral at h
  split_ifs at h with hn
  · exact ⟨0, by decide, List.mem_singleton.mp h⟩
  · obtain ⟨i, hi, rfl⟩ := List.mem_map.mp (List.mem_reverse.mp h)
    exact ⟨i, lt_of_lt_of_le (Nat.digits_lt_base h1 hi) h16, rfl⟩

theorem parse_intNumeral (v : ℤ) : Conv.parse .d (intNumeral v) = v := by
  unfold intNumeral
  split_ifs with hv
  · rw [Conv.parse, if_pos rfl, parse_numeral _ (by decide) (by decide)]
    omega
  · have hparse : parse 10 (numeral 10 v.natAbs) = v.natAbs :=
      parse_numeral v.natAbs (by decide) (by decide)
    cases hnum : numeral 10 v.natAbs with
    | nil =>
      rw [hnum] at hparse
      have h0 : v.natAbs = 0 := hparse.symm
      rw [Conv.parse]
      omega
    | cons c ds =>
      have hc : c ∈ numeral 10 v.natAbs := hnum ▸ List.mem_cons_self
      obtain ⟨i, hi, rfl⟩ := mem_numeral (by decide) (by decide) hc
      rw [Conv.parse, if_neg (digit_ne_minus hi), ← hnum, hparse]
      omega

theorem parse_conv (conv : Conv) (a : UInt64) : conv.parse (conv.numeral a) = conv.value a := by
  cases conv with
  | d => exact parse_intNumeral _
  | x => exact congrArg Nat.cast (parse_numeral _ (by decide) (by decide))
  | l => exact congrArg Nat.cast (parse_numeral _ (by decide) (by decide))
  | p =>
    have hlt : a.toNat < 16 ^ 16 := a.toNat_lt
    refine congrArg Nat.cast ?_
    show Printf.parse 16 (hexNumeral 16 a.toNat) = a.toNat
    rw [parse_hexNumeral, Nat.mod_eq_of_lt hlt]

theorem lead_conv {conv : Conv} {a : UInt64} {ds : List UInt8} (hp : conv ≠ .p)
    (h : conv.numeral a = digit 0 :: ds) : ds = [] := by
  cases conv with
  | d =>
    rw [Conv.numeral, intNumeral] at h
    split_ifs at h
    · exact absurd (List.cons.inj h).1.symm (digit_ne_minus (by decide))
    · exact numeral_lead (by decide) (by decide) h
  | x => exact numeral_lead (by decide) (by decide) h
  | l => exact numeral_lead (by decide) (by decide) h
  | p => exact absurd rfl hp

theorem vprintf_conv (str : UInt64 → List UInt8) (conv : Conv) (a : UInt64) (fmt : List UInt8)
    (ap : List UInt64) :
    vprintf str ('%'.toUInt8 :: conv.char :: fmt) false (a :: ap) =
      (vprintf str fmt false ap).map (conv.printed a ++ ·) := by
  have hchar : conv.char ≠ 0 := by cases conv <;> decide +kernel
  have hpercent : '%'.toUInt8 ≠ 0 := by decide +kernel
  rw [vprintf, if_neg hpercent, if_neg Bool.false_ne_true, if_pos rfl, vprintf, if_neg hchar,
    if_pos rfl, convert_eq str conv a ap]
  simp only [Option.bind_eq_bind, Option.bind_some]
  cases vprintf str fmt false ap <;> rfl

/-- **Numbers are printed exactly**: wherever `vprintf` comes to a `%d`, `%x`, `%l` or `%p`, it
prints the canonical numeral of the argument and goes on with the rest of the format, if and only if
an argument of `%l` fits in 32 bits. The numeral read back is the argument, and has no leading zero. -/
theorem vprintf_prints_numeral (str : UInt64 → List UInt8) (conv : Conv) (a : UInt64) :
    ((∀ fmt ap, vprintf str ('%'.toUInt8 :: conv.char :: fmt) false (a :: ap) =
      (vprintf str fmt false ap).map (conv.numeral a ++ ·)) ↔ (conv = .l → a.toNat < 2 ^ 32)) ∧
    conv.parse (conv.numeral a) = conv.value a ∧
    (conv ≠ .p → ∀ ds, conv.numeral a = digit 0 :: ds → ds = []) := by
  refine ⟨⟨fun h => ?_, fun h fmt ap => ?_⟩, parse_conv conv a, fun hp ds hds => lead_conv hp hds⟩
  · have hnil := (vprintf_conv str conv a [] []).symm.trans (h [] [])
    exact printed_eq_iff.mp (by simpa [vprintf] using hnil)
  · rw [vprintf_conv, printed_eq_iff.mpr h]

/-- `printf("%d", INT_MIN)`. -/
theorem vprintf_int_min :
    vprintf (fun _ => []) ['%'.toUInt8, 'd'.toUInt8] false [2147483648] =
      some (['-', '2', '1', '4', '7', '4', '8', '3', '6', '4', '8'].map Char.toUInt8) := by
  refine ((vprintf_prints_numeral (fun _ => []) .d 2147483648).1.mpr (by decide) [] []).trans ?_
  decide +kernel

/-- `printf("%l", 4294967296)` prints a zero. -/
theorem vprintf_l_truncates :
    vprintf (fun _ => []) ['%'.toUInt8, 'l'.toUInt8] false [4294967296] = some ['0'.toUInt8] ∧
    Conv.value .l 4294967296 = 4294967296 ∧
    Conv.parse .l ['0'.toUInt8] = 0 := by
  decide +kernel

end Xv6.Printf
