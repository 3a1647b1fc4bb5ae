import Cnpv.Json.Grammar
import Mathlib.Algebra.Field.Rat
import Mathlib.Tactic.NormNum

/-!
# The numbers of the JSON parser

`number` reads the numbers of standard JSON whose integer part fits `json_int_t` (`number_eq`): an
integer is read exactly, and a number with a fraction or an exponent with the arithmetic of
`Doubles`, in the order of `json.c`. This is the number that is written where the arithmetic is exact
(`Decimal.value_exact`).

The flag of a number that was not cleared (`flag_num_got_decimal`) changes nothing for them. It is
read only when an integer part does not fit.
-/

namespace Cnpv

open CLib

namespace Json

section Numbers

variable {D : Doubles} {d : Bool} {n n' : Num} {r : List UInt8} {a k : Nat} {ks : List Nat}

/-- The character of a digit. -/
def digit (k : Nat) : UInt8 := k.digitChar.toUInt8

/-- An integer in decimal. -/
def digits (a : Nat) : List UInt8 := (Nat.toDigits 10 a).map Char.toUInt8

theorem digit_spec (h : k < 10) : isDigit (digit k) = true ∧ digitOf (digit k) = k ∧
    (digit k = '0'.toUInt8 ↔ k = 0) := by
  have hall : ∀ k < 10, isDigit (digit k) = true ∧ digitOf (digit k) = k ∧
      (digit k = '0'.toUInt8 ↔ k = 0) := by decide
  exact hall k h

theorem digits_of_lt (h : a < 10) : digits a = [digit a] := by
  rw [digits, Nat.toDigits_of_lt_base h]
  rfl

theorem digits_of_le (h : 10 ≤ a) : digits a = digits (a / 10) ++ [digit (a % 10)] := by
  rw [digits, Nat.toDigits_of_base_le (by decide) h, List.map_append]
  rfl

/-- One more digit. -/
theorem numLoop_more {b : UInt8} (h : numStep D n b = .more n') (r : List UInt8) :
    numLoop D n (b :: r) = numLoop D n' r := by
  rw [numLoop, h]

/-- The end of a number. -/
theorem numLoop_stop (h : numStep D n (r.headD 0) = .stop n') : numLoop D n r = some (n', r) := by
  cases r with
  | nil =>
    rw [List.headD_nil] at h
    rw [numLoop, h]
  | cons b r =>
    rw [List.headD_cons] at h
    rw [numLoop, h]

theorem wouldOverflow_iff (value : Int) (b : UInt8) :
    wouldOverflow value b = true ↔ JSON_INT_MAX < value * 10 + digitOf b := by
  simp only [wouldOverflow, decide_eq_true_eq]
  omega

/-! ## The integer part -/

/-- A number of which the integer part is read. -/
structure Start (n : Num) : Prop where
  isDouble : n.isDouble = false
  exponent : n.flag_num_e = false

theorem numStep_integer (hn : Start n) (hzero : n.flag_num_zero = false) (hk : k < 10)
    (hfit : n.integer * 10 + k ≤ JSON_INT_MAX) :
    numStep D n (digit k) = .more { n with
      num_digits := n.num_digits + 1
      flag_num_zero := n.num_digits = 0 ∧ k = 0
      integer := n.integer * 10 + k } := by
  obtain ⟨hdigit, hof, hchar⟩ := digit_spec hk
  have hno : wouldOverflow n.integer (digit k) = false := by
    rw [Bool.eq_false_iff, Ne, wouldOverflow_iff, hof]
    omega
  rw [numStep_digit hdigit, numDigit]
  simp only [hn.exponent, hn.isDouble, hzero, hno, hof, hchar, Bool.false_eq_true, if_false,
    Nat.add_eq_right]

/-- The digits of the integer part. -/
theorem numLoop_integer (hn : Start n) (hzero : n.flag_num_zero = false) (hdigits : n.num_digits = 0)
    (hinteger : n.integer = 0) (ha : (a : Int) ≤ JSON_INT_MAX) (r : List UInt8) :
    numLoop D n (digits a ++ r) = numLoop D { n with
      num_digits := (digits a).length
      flag_num_zero := a = 0
      integer := a } r := by
  induction a using Nat.strong_induction_on generalizing r with
  | _ a ih =>
    by_cases hlt : a < 10
    · have hstep := numStep_integer (D := D) hn hzero hlt (by rw [hinteger]; omega)
      rw [digits_of_lt hlt, List.singleton_append, numLoop_more hstep]
      simp [hdigits, hinteger]
    · have hle : 10 ≤ a := by omega
      have hpos : a / 10 ≠ 0 := by omega
      rw [digits_of_le hle, List.append_assoc, ih (a / 10) (by omega) (by omega)]
      have hlen : (digits (a / 10)).length ≠ 0 := by
        rw [digits, List.length_map]
        exact Nat.ne_of_gt Nat.length_toDigits_pos
      have hstep := numStep_integer (D := D) (k := a % 10)
        (n := { n with
          num_digits := (digits (a / 10)).length, flag_num_zero := a / 10 = 0
          integer := (a / 10 : Nat) })
        ⟨hn.isDouble, hn.exponent⟩ (by simp [hpos]) (Nat.mod_lt _ (by decide))
        (by show ((a / 10 : Nat) : Int) * 10 + (a % 10 : Nat) ≤ JSON_INT_MAX; omega)
      rw [List.singleton_append, numLoop_more hstep]
      have hvalue : ((a / 10 : Nat) : Int) * 10 + (a % 10 : Nat) = a := by omega
      simp only [hlen, hvalue, List.length_append, List.length_singleton, false_and, decide_false,
        show a ≠ 0 by omega]

/-! ## The fraction and the exponent -/

/-- The digits `ks` in a `double`. -/
def pushes (D : Doubles) (x : UInt64) (ks : List Nat) : UInt64 :=
  ks.foldl (fun x k => D.add (D.mul x (D.ofInt 10)) (D.ofInt k)) x

theorem numStep_fraction (hdouble : n.isDouble = true) (hexp : n.flag_num_e = false)
    (hdecimal : n.flag_num_got_decimal = true) (hk : k < 10) :
    numStep D n (digit k) = .more { n with
      num_digits := n.num_digits + 1
      num_fraction := pushes D n.num_fraction [k] } := by
  obtain ⟨hdigit, hof, -⟩ := digit_spec hk
  rw [numStep_digit hdigit, numDigit]
  simp only [hexp, hdouble, doubleDigit, hdecimal, push, hof, Bool.false_eq_true, if_false, if_true]
  rfl

/-- The digits of the fraction. -/
theorem numLoop_fraction (hdouble : n.isDouble = true) (hexp : n.flag_num_e = false)
    (hdecimal : n.flag_num_got_decimal = true) (hks : ∀ k ∈ ks, k < 10) (r : List UInt8) :
    numLoop D n (ks.map digit ++ r) = numLoop D { n with
      num_digits := n.num_digits + ks.length
      num_fraction := pushes D n.num_fraction ks } r := by
  induction ks generalizing n with
  | nil => rfl
  | cons k ks ih =>
    have hstep := numStep_fraction (D := D) hdouble hexp hdecimal (hks k (by simp))
    rw [List.map_cons, List.cons_append, numLoop_more hstep,
      ih (n := { n with num_digits := n.num_digits + 1, num_fraction := pushes D n.num_fraction [k] })
        hdouble hexp hdecimal fun k hk => hks k (by simp [hk]), List.length_cons]
    simp only [Nat.add_assoc, Nat.add_comm 1]
    rfl

theorem numStep_exponent (hexp : n.flag_num_e = true) (hk : k < 10) :
    numStep D n (digit k) = .more { n with
      num_digits := n.num_digits + 1
      flag_num_e_got_sign := true
      num_e := pushes D n.num_e [k] } := by
  obtain ⟨hdigit, hof, -⟩ := digit_spec hk
  rw [numStep_digit hdigit, numDigit]
  simp only [hexp, push, hof, if_true]
  rfl

/-- The digits of the exponent. -/
theorem numLoop_exponent (hexp : n.flag_num_e = true) (hks : ∀ k ∈ ks, k < 10) (hne : ks ≠ [])
    (r : List UInt8) : numLoop D n (ks.map digit ++ r) = numLoop D { n with
      num_digits := n.num_digits + ks.length
      flag_num_e_got_sign := true
      num_e := pushes D n.num_e ks } r := by
  induction ks generalizing n with
  | nil => exact absurd rfl hne
  | cons k ks ih =>
    have hstep := numStep_exponent (D := D) hexp (hks k (by simp))
    rw [List.map_cons, List.cons_append, numLoop_more hstep]
    by_cases hks' : ks = []
    · subst hks'
      rfl
    · rw [ih (n := { n with
          num_digits := n.num_digits + 1
          flag_num_e_got_sign := true
          num_e := pushes D n.num_e [k] }) hexp (fun k hk => hks k (by simp [hk])) hks',
        List.length_cons]
      simp only [Nat.add_assoc, Nat.add_comm 1]
      rfl

/-! ## Numbers of standard JSON -/

/-- An exponent: its letter, its sign if it has one, and its digits. -/
structure Exponent where
  letter : UInt8
  sign : Option UInt8
  digits : List Nat

/-- A number of standard JSON. -/
structure Decimal where
  negative : Bool
  integer : Nat
  fraction : List Nat
  exponent : Option Exponent

/-- The integer part fits `json_int_t`, and the rest is well-formed. -/
structure Decimal.Fits (x : Decimal) : Prop where
  integer : (x.integer : Int) ≤ JSON_INT_MAX
  fraction : ∀ k ∈ x.fraction, k < 10
  letter : ∀ e ∈ x.exponent, e.letter = 'e'.toUInt8 ∨ e.letter = 'E'.toUInt8
  sign : ∀ e ∈ x.exponent, ∀ b ∈ e.sign, b = '+'.toUInt8 ∨ b = '-'.toUInt8
  exponent : ∀ e ∈ x.exponent, e.digits ≠ [] ∧ ∀ k ∈ e.digits, k < 10

def Exponent.text (e : Exponent) : List UInt8 := e.letter :: e.sign.toList ++ e.digits.map digit

/-- How the number is written. -/
def Decimal.text (x : Decimal) : List UInt8 :=
  (if x.negative then ['-'.toUInt8] else []) ++ digits x.integer ++
    (if x.fraction = [] then [] else '.'.toUInt8 :: x.fraction.map digit) ++
    x.exponent.elim [] Exponent.text

/-- What `json.c` computes at the end of an exponent. -/
def Exponent.scale (D : Doubles) (e : Exponent) (dbl : UInt64) : UInt64 :=
  D.mul dbl (D.pow (if e.sign = some '-'.toUInt8 then D.neg (pushes D 0 e.digits)
    else pushes D 0 e.digits))

/-- What `json.c` computes for the number without its sign: a `double`, rounded as its operations are. -/
def Decimal.abs (D : Doubles) (x : Decimal) : UInt64 :=
  let dbl := if x.fraction = [] then D.ofInt x.integer
    else D.add (D.ofInt x.integer) (D.div (pushes D 0 x.fraction) (D.pow (D.ofInt x.fraction.length)))
  x.exponent.elim dbl fun e => e.scale D dbl

/-- The value of the number: an integer, if it has neither a fraction nor an exponent. -/
def Decimal.value (D : Doubles) (x : Decimal) : JsonValue :=
  if x.fraction = [] ∧ x.exponent.isNone then
    .integer (if x.negative then -x.integer else x.integer)
  else .double (if x.negative then D.neg (x.abs D) else x.abs D)

/-! ## Their ends -/

/-- What follows a number is no character of one. -/
def Ends (r : List UInt8) : Prop := Second.isNumChar (r.headD 0) = false

theorem Ends.ne (h : Ends r) : isDigit (r.headD 0) = false ∧ r.headD 0 ≠ '+'.toUInt8 ∧
    r.headD 0 ≠ '-'.toUInt8 ∧ r.headD 0 ≠ 'e'.toUInt8 ∧ r.headD 0 ≠ 'E'.toUInt8 ∧
    r.headD 0 ≠ '.'.toUInt8 := by
  simpa [Ends, Second.isNumChar, and_assoc] using h

/-- A number before its exponent, with its fraction. -/
def settled (D : Doubles) (n : Num) : Num :=
  if n.isDouble then
    { n with dbl := D.add n.dbl (D.div n.num_fraction (D.pow (D.ofInt n.num_digits))) }
  else n

/-- A number before the digits of its exponent. -/
def lettered (D : Doubles) (n : Num) : Num :=
  { n with
    flag_num_e := true
    isDouble := true
    dbl := if n.isDouble then D.add n.dbl (D.div n.num_fraction (D.pow (D.ofInt n.num_digits)))
      else D.ofInt n.integer
    num_digits := 0
    flag_num_zero := false }

/-- What is known of a number that can end. -/
structure Ready (n : Num) : Prop where
  exponent : n.flag_num_e = false
  sign : n.flag_num_e_got_sign = false
  negative : n.flag_num_e_negative = false
  num_e : n.num_e = 0
  num_digits : n.num_digits ≠ 0

theorem numLoop_end (hn : Ready n) (hr : Ends r) :
    numLoop D n r = some (numSign D (settled D n), r) := by
  obtain ⟨hdigit, hplus, hminus, he, hE, hdot⟩ := hr.ne
  have hdigits := hn.num_digits
  refine numLoop_stop ?_
  simp only [numStep, hdigit, hplus, hminus, he, hE, hdot, hn.exponent, hdigits, settled,
    Bool.false_eq_true, if_false, false_or, false_and, and_false]

theorem numStep_letter (hn : Ready n) {b : UInt8} (hb : b = 'e'.toUInt8 ∨ b = 'E'.toUInt8) :
    numStep D n b = .more (lettered D n) := by
  have hne : isDigit b = false ∧ b ≠ '+'.toUInt8 ∧ b ≠ '-'.toUInt8 ∧ b ≠ '.'.toUInt8 := by
    rcases hb with rfl | rfl <;> decide
  obtain ⟨hdigit, hplus, hminus, hdot⟩ := hne
  have hdigits := hn.num_digits
  simp only [numStep, hdigit, hplus, hminus, hdot, hn.exponent, hdigits, hb, lettered,
    Bool.false_eq_true, if_false, if_true, false_or, false_and, and_false]
  cases hdouble : n.isDouble <;> simp [hdouble]

/-- The sign of an exponent. -/
theorem numLoop_sign (hexp : n.flag_num_e = true) (hsign : n.flag_num_e_got_sign = false)
    (hneg : n.flag_num_e_negative = false) {sign : Option UInt8}
    (hb : ∀ b ∈ sign, b = '+'.toUInt8 ∨ b = '-'.toUInt8) (r : List UInt8) :
    numLoop D n (sign.toList ++ r) = numLoop D { n with
      flag_num_e_got_sign := sign.isSome
      flag_num_e_negative := sign = some '-'.toUInt8 } r := by
  cases sign with
  | none =>
    refine congrArg (fun n => numLoop D n r) ?_
    cases n
    cases hsign
    cases hneg
    rfl
  | some b =>
    have hb := hb b rfl
    have hdigit : isDigit b = false := by rcases hb with rfl | rfl <;> decide
    refine numLoop_more ?_ r
    simp only [numStep, hdigit, hb, hexp, hsign, hneg, Bool.false_eq_true, if_false, not_false_eq_true,
      and_self, if_true, Bool.false_or, Option.isSome_some, Option.some.injEq]

/-- The end of an exponent. -/
theorem numLoop_scale (hexp : n.flag_num_e = true) (hsign : n.flag_num_e_got_sign = true)
    (hdigits : n.num_digits ≠ 0) (hr : Ends r) : numLoop D n r = some (numSign D { n with
      dbl := D.mul n.dbl (D.pow (if n.flag_num_e_negative then D.neg n.num_e else n.num_e)) }, r) := by
  obtain ⟨hdigit, hplus, hminus, he, hE, hdot⟩ := hr.ne
  refine numLoop_stop ?_
  simp only [numStep, hdigit, hplus, hminus, hdot, hexp, hsign, hdigits, Bool.false_eq_true, if_false,
    if_true, false_or, false_and, not_true_eq_false]

/-- A number with an exponent, which ends there. -/
theorem numLoop_exponent_end (hn : Ready n) {e : Exponent}
    (hletter : e.letter = 'e'.toUInt8 ∨ e.letter = 'E'.toUInt8)
    (hsign : ∀ b ∈ e.sign, b = '+'.toUInt8 ∨ b = '-'.toUInt8) (hne : e.digits ≠ [])
    (hdigits : ∀ k ∈ e.digits, k < 10) (hr : Ends r) :
    ∃ n', numLoop D n (e.text ++ r) = some (numSign D n', r) ∧ n'.isDouble = true ∧
      n'.dbl = e.scale D (lettered D n).dbl ∧ n'.flag_num_negative = n.flag_num_negative ∧
      n'.flag_num_got_decimal = n.flag_num_got_decimal := by
  rw [Exponent.text, List.cons_append, List.cons_append, List.append_assoc,
    numLoop_more (numStep_letter hn hletter),
    numLoop_sign (n := lettered D n) rfl hn.sign hn.negative hsign, numLoop_exponent rfl hdigits hne]
  have hlen : 0 + e.digits.length ≠ 0 := by simpa using hne
  refine ⟨_, numLoop_scale rfl rfl hlen hr, rfl, ?_, rfl, rfl⟩
  simp only [Exponent.scale, lettered, hn.num_e, decide_eq_true_eq]

/-! ## A number -/

theorem digits_head (a : Nat) (r : List UInt8) : isDigit ((digits a ++ r).headD 0) = true := by
  induction a using Nat.strong_induction_on generalizing r with
  | _ a ih =>
    by_cases hlt : a < 10
    · rw [digits_of_lt hlt]
      exact (digit_spec hlt).1
    · rw [digits_of_le (by omega), List.append_assoc]
      exact ih (a / 10) (by omega) _

/-- The text of a number from its digits on, without its sign. -/
def Decimal.tail (x : Decimal) : List UInt8 :=
  (if x.fraction = [] then [] else '.'.toUInt8 :: x.fraction.map digit) ++
    x.exponent.elim [] Exponent.text

theorem Decimal.text_head (x : Decimal) (r : List UInt8) :
    isDigit ((x.text ++ r).headD 0) = true ∨ (x.text ++ r).headD 0 = '-'.toUInt8 := by
  rw [Decimal.text]
  split_ifs
  · exact .inr rfl
  · exact .inr rfl
  · refine .inl ?_
    simp only [List.nil_append, List.append_assoc]
    exact digits_head x.integer _
  · refine .inl ?_
    simp only [List.nil_append, List.append_assoc]
    exact digits_head x.integer _

/-- The fraction after an integer part. -/
theorem numLoop_point (hn : Ready n) (hdouble : n.isDouble = false) (hks : ∀ k ∈ ks, k < 10)
    (r : List UInt8) : numLoop D n ('.'.toUInt8 :: ks.map digit ++ r) = numLoop D { n with
      isDouble := true
      dbl := D.ofInt n.integer
      flag_num_got_decimal := true
      num_digits := ks.length
      num_fraction := pushes D n.num_fraction ks } r := by
  have hdot : numStep D n '.'.toUInt8 = .more { n with
      isDouble := true, dbl := D.ofInt n.integer, flag_num_got_decimal := true, num_digits := 0 } := by
    have hdigits := hn.num_digits
    simp only [numStep, show isDigit '.'.toUInt8 = false by decide, hdouble, hdigits,
      show '.'.toUInt8 ≠ '+'.toUInt8 by decide, show '.'.toUInt8 ≠ '-'.toUInt8 by decide,
      Bool.false_eq_true, if_false, if_true, false_or, false_and, not_false_eq_true, and_self]
  rw [List.cons_append, numLoop_more hdot, numLoop_fraction (n := { n with
    isDouble := true, dbl := D.ofInt n.integer, flag_num_got_decimal := true, num_digits := 0 })
    rfl hn.exponent rfl hks]
  simp only [Nat.zero_add]

/-- A number from its fraction on. -/
theorem numLoop_tail {x : Decimal} (hx : x.Fits) (hn : Ready n) (hdouble : n.isDouble = false)
    (hinteger : n.integer = x.integer) (hfraction : n.num_fraction = 0) (hr : Ends r) :
    ∃ n', numLoop D n (x.tail ++ r) = some (numSign D n', r) ∧
      n'.isDouble = !(x.fraction.isEmpty && x.exponent.isNone) ∧
      (n'.isDouble = true → n'.dbl = x.abs D) ∧ (n'.isDouble = false → n'.integer = x.integer) ∧
      n'.flag_num_negative = n.flag_num_negative := by
  -- The number after its fraction.
  obtain ⟨m, hm, hready, hmdouble, hmdbl, hminteger, hmneg⟩ : ∃ m,
      (∀ r, numLoop D n ((if x.fraction = [] then [] else '.'.toUInt8 :: x.fraction.map digit) ++ r) =
        numLoop D m r) ∧ Ready m ∧ m.isDouble = !x.fraction.isEmpty ∧
      (lettered D m).dbl = (if x.fraction = [] then D.ofInt x.integer
        else D.add (D.ofInt x.integer)
          (D.div (pushes D 0 x.fraction) (D.pow (D.ofInt x.fraction.length)))) ∧
      m.integer = x.integer ∧ m.flag_num_negative = n.flag_num_negative := by
    by_cases hf : x.fraction = []
    · refine ⟨n, fun r => by rw [if_pos hf]; rfl, hn, ?_, ?_, hinteger, rfl⟩
      · rw [hdouble, hf]
        rfl
      · simp only [lettered, hdouble, hinteger, hf, if_true, Bool.false_eq_true, if_false]
    · refine ⟨{ n with
          isDouble := true, dbl := D.ofInt n.integer, flag_num_got_decimal := true
          num_digits := x.fraction.length, num_fraction := pushes D n.num_fraction x.fraction },
        fun r => by rw [if_neg hf]; exact numLoop_point hn hdouble hx.fraction r,
        ⟨hn.exponent, hn.sign, hn.negative, hn.num_e, by simpa using hf⟩, ?_, ?_, hinteger, rfl⟩
      · simp [hf]
      · simp only [lettered, hf, hinteger, hfraction, if_true, if_false]
  rw [Decimal.tail, List.append_assoc, hm]
  cases he : x.exponent with
  | none =>
    refine ⟨settled D m, numLoop_end hready hr, ?_⟩
    have habs : x.abs D = (lettered D m).dbl := by
      rw [hmdbl, Decimal.abs, he]
      rfl
    by_cases hd : m.isDouble = true
    · rw [settled, if_pos hd, habs]
      refine ⟨?_, fun _ => ?_, fun h => ?_, hmneg⟩
      · exact hmdouble.trans (by simp)
      · simp only [lettered, hd, if_true]
      · rw [hd] at h
        cases h
    · rw [settled, if_neg hd]
      exact ⟨hmdouble.trans (by simp), fun h => absurd h hd, fun _ => hminteger, hmneg⟩
  | some e =>
    have hmem : e ∈ x.exponent := he
    obtain ⟨n', hn', hdbl', heq, hneg, -⟩ := numLoop_exponent_end (D := D) hready (hx.letter e hmem)
      (hx.sign e hmem) (hx.exponent e hmem).1 (hx.exponent e hmem).2 hr
    refine ⟨n', hn', by simp [hdbl'], fun _ => ?_, fun h => ?_, hneg.trans hmneg⟩
    · rw [heq, hmdbl, Decimal.abs, he]
      rfl
    · rw [hdbl'] at h
      cases h

/-- **The numbers of standard JSON** whose integer part fits. -/
theorem number_eq {x : Decimal} (hx : x.Fits) (d : Bool) (hr : Ends r) :
    ∃ n, number D d (x.text ++ r) = some (n, r) ∧ n.toValue = x.value D := by
  have htext : x.text ++ r = (if x.negative then ['-'.toUInt8] else []) ++
      (digits x.integer ++ (x.tail ++ r)) := by
    rw [Decimal.text, Decimal.tail]
    simp only [List.append_assoc]
  -- The sign.
  have hsign : number D d (x.text ++ r) = numLoop D
      { flag_num_negative := x.negative, flag_num_got_decimal := d }
      (digits x.integer ++ (x.tail ++ r)) := by
    rw [htext, number]
    have hhead := digits_head x.integer (x.tail ++ r)
    cases x.negative with
    | true => rfl
    | false =>
      rw [if_neg (by decide : ¬ false = true), List.nil_append, if_neg]
      intro hminus
      rw [hminus] at hhead
      exact absurd hhead (by decide)
  have hlen : (digits x.integer).length ≠ 0 := by
    rw [digits, List.length_map]
    exact Nat.ne_of_gt Nat.length_toDigits_pos
  obtain ⟨n', hn', hdouble, hdbl, hinteger, hneg⟩ := numLoop_tail (D := D) (r := r) hx
    (n := {
      flag_num_negative := x.negative
      flag_num_got_decimal := d
      num_digits := (digits x.integer).length
      flag_num_zero := x.integer = 0
      integer := x.integer })
    ⟨rfl, rfl, rfl, rfl, hlen⟩ rfl rfl rfl hr
  refine ⟨numSign D n', ?_, ?_⟩
  · rw [hsign, numLoop_integer ⟨rfl, rfl⟩ rfl rfl rfl hx.integer]
    exact hn'
  · have hneg : n'.flag_num_negative = x.negative := hneg
    rw [Decimal.value, numSign, Num.toValue, hneg]
    cases hd : n'.isDouble with
    | true =>
      rw [hd] at hdouble
      have hcond : ¬ (x.fraction = [] ∧ x.exponent.isNone = true) := fun h => by
        rw [h.1, h.2] at hdouble
        cases hdouble
      rw [if_neg hcond, hdbl hd]
      cases x.negative <;> simp [hd, hdbl hd]
    | false =>
      rw [hd] at hdouble
      have hcond : x.fraction = [] ∧ x.exponent.isNone = true := by simpa using hdouble.symm
      rw [if_pos hcond]
      cases x.negative <;> simp [hd, hinteger hd]

end Numbers

/-! ## Exact arithmetic -/

section Exact

/-- The arithmetic is exact where the result is in `S`; `R a q` says that the `double` `a` is the number
`q`. With 64 bits, `S` has the numbers that a `double` can be. -/
structure Exact (D : Doubles) (R : UInt64 → ℚ → Prop) (S : ℚ → Prop) : Prop where
  zero : R 0 0
  ofInt : ∀ n : ℤ, S n → R (D.ofInt n) n
  add : ∀ a b p q, R a p → R b q → S (p + q) → R (D.add a b) (p + q)
  mul : ∀ a b p q, R a p → R b q → S (p * q) → R (D.mul a b) (p * q)
  div : ∀ a b p q, R a p → R b q → q ≠ 0 → S (p / q) → R (D.div a b) (p / q)
  neg : ∀ a p, R a p → R (D.neg a) (-p)
  pow : ∀ a (n : ℤ), R a n → S (10 ^ n) → R (D.pow a) (10 ^ n)

/-- The number with the digits `ks` after those of `n`. -/
def natOf (n : Nat) (ks : List Nat) : Nat := ks.foldl (fun n k => n * 10 + k) n

def Exponent.int (e : Exponent) : ℤ :=
  if e.sign = some '-'.toUInt8 then -natOf 0 e.digits else natOf 0 e.digits

/-- The number without its sign and its exponent. -/
def Decimal.mantissa (x : Decimal) : ℚ :=
  x.integer + natOf 0 x.fraction / 10 ^ (x.fraction.length : ℤ)

/-- The number without its sign. -/
def Decimal.rat (x : Decimal) : ℚ := x.exponent.elim x.mantissa fun e => x.mantissa * 10 ^ e.int

/-- What `json.c` computes for the number on the way is in `S`: integers up to `N`, powers of ten, and
parts of the number. -/
structure Decimal.Within (S : ℚ → Prop) (N : Nat) (x : Decimal) : Prop where
  nat : ∀ n ≤ N, S n
  ten : 10 ≤ N
  integer : x.integer ≤ N
  fraction : natOf 0 x.fraction ≤ N
  length : x.fraction.length ≤ N
  point : S (10 ^ (x.fraction.length : ℤ))
  quotient : S (natOf 0 x.fraction / 10 ^ (x.fraction.length : ℤ))
  mantissa : S x.mantissa
  exponent : ∀ e ∈ x.exponent, natOf 0 e.digits ≤ N ∧ S (10 ^ e.int) ∧ S (x.mantissa * 10 ^ e.int)

variable {D : Doubles} {R : UInt64 → ℚ → Prop} {S : ℚ → Prop} {N : Nat} {x : Decimal}

theorem le_natOf (n : Nat) (ks : List Nat) : n ≤ natOf n ks := by
  induction ks generalizing n with
  | nil => exact Nat.le_refl n
  | cons k ks ih => exact Nat.le_trans (by omega) (ih (n * 10 + k))

theorem Exact.pushes (h : Exact D R S) (hN : ∀ n ≤ N, S (n : ℚ)) (hten : 10 ≤ N) {a : UInt64} {n : Nat}
    (ha : R a n) {ks : List Nat} (hks : ∀ k ∈ ks, k < 10) (hle : natOf n ks ≤ N) :
    R (Json.pushes D a ks) (natOf n ks) := by
  induction ks generalizing a n with
  | nil => exact ha
  | cons k ks ih =>
    have hnext : n * 10 + k ≤ N := Nat.le_trans (le_natOf _ ks) hle
    have hk : k < 10 := hks k (by simp)
    have hmul := h.mul a (D.ofInt 10) n (10 : ℕ) ha (h.ofInt 10 (hN 10 hten))
      (by exact_mod_cast hN (n * 10) (by omega))
    have hadd := h.add _ (D.ofInt k) _ (k : ℕ) hmul (h.ofInt k (hN k (by omega)))
      (by exact_mod_cast hN _ hnext)
    exact ih (by exact_mod_cast hadd) (fun k hk => hks k (by simp [hk])) hle

/-- **Where the arithmetic is exact, the value is the number that is written.** -/
theorem Decimal.value_exact (h : Exact D R S) (hx : x.Fits) (hw : x.Within S N)
    (hreal : ¬ (x.fraction = [] ∧ x.exponent.isNone)) :
    ∃ dbl, x.value D = .double dbl ∧ R dbl (if x.negative then -x.rat else x.rat) := by
  have hinteger : R (D.ofInt x.integer) x.integer := h.ofInt x.integer (hw.nat _ hw.integer)
  have hmantissa : R (if x.fraction = [] then D.ofInt x.integer else D.add (D.ofInt x.integer)
      (D.div (pushes D 0 x.fraction) (D.pow (D.ofInt x.fraction.length)))) x.mantissa := by
    split_ifs with hf
    · simpa [mantissa, hf, natOf] using hinteger
    · have hfraction := h.pushes hw.nat hw.ten (by exact_mod_cast h.zero) hx.fraction hw.fraction
      have hpow := h.pow _ _ (h.ofInt x.fraction.length (hw.nat _ hw.length)) hw.point
      exact h.add _ _ _ _ hinteger
        (h.div _ _ _ _ hfraction hpow (zpow_ne_zero _ (by norm_num)) hw.quotient) hw.mantissa
  have habs : R (x.abs D) x.rat := by
    rw [abs, rat]
    cases he : x.exponent with
    | none => exact hmantissa
    | some e =>
      obtain ⟨hle, hpow, hscaled⟩ := hw.exponent e he
      have hdigits := h.pushes hw.nat hw.ten (by exact_mod_cast h.zero) (hx.exponent e he).2 hle
      refine h.mul _ _ _ _ hmantissa (h.pow _ _ ?_ hpow) hscaled
      rw [Exponent.int]
      split_ifs
      · exact_mod_cast h.neg _ _ hdigits
      · exact_mod_cast hdigits
  refine ⟨_, if_neg hreal, ?_⟩
  split_ifs
  · exact h.neg _ _ habs
  · exact habs

end Exact

end Json

end Cnpv
