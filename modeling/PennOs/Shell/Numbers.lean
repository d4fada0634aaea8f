import Mathlib.Data.List.TakeWhile
import Mathlib.Data.Nat.Digits.Defs
import Mathlib.Data.Nat.Digits.Lemmas

set_option autoImplicit false

/- Reading and printing decimal numbers. Strings are their bytes without the final NUL. -/
namespace PennOs.Shell

/-- `isspace` -/
def isSpace (c : UInt8) : Bool := c = 32 || (9 ≤ c && c ≤ 13)

def isDigit (c : UInt8) : Bool := 48 ≤ c && c ≤ 57

def minus : UInt8 := 45

def plus : UInt8 := 43

/-- The value of a run of digits. -/
def digitsValue (digits : List UInt8) : Nat := digits.foldl (fun value c => value * 10 + (c.toNat - 48)) 0

/-- A value outside of `long` becomes the nearest one inside. -/
def clampLong (n : Int) : Int := max (-2 ^ 63) (min n (2 ^ 63 - 1))

/-- `strtol(str, &end, 10)`: the value, and what `end` points to. -/
def strtol (str : List UInt8) : Int × List UInt8 :=
  let start := str.dropWhile isSpace
  let signed := start.head? = some minus ∨ start.head? = some plus
  let unsigned := if signed then start.tail else start
  let digits := unsigned.takeWhile isDigit
  if digits = [] then (0, str)
  else
    let value : Int := digitsValue digits
    (clampLong (if start.head? = some minus then -value else value), unsigned.dropWhile isDigit)

/-- A C `long` stored in an `int`. -/
def truncateInt (n : Int) : Int := n.bmod (2 ^ 32)

/-- `str_to_int`; `none` for the string is NULL. -/
def strToInt : Option (List UInt8) → Option Int
  | none => none
  | some str => if (strtol str).2 = [] then some (truncateInt (strtol str).1) else none

/-- `%d` for a number that is not negative. -/
def decimal (n : Nat) : List UInt8 :=
  if n = 0 then [48] else (Nat.digits 10 n).reverse.map fun d => UInt8.ofNat (d + 48)

section Decimal

theorem digit_toNat {d : Nat} (small : d < 10) : (UInt8.ofNat (d + 48)).toNat = d + 48 := by
  rw [UInt8.toNat_ofNat']
  omega

theorem isDigit_digit {d : Nat} (small : d < 10) : isDigit (UInt8.ofNat (d + 48)) = true := by
  have value := digit_toNat small
  simp only [isDigit, Bool.and_eq_true, decide_eq_true_eq, UInt8.le_iff_toNat_le, value]
  exact ⟨Nat.le_add_left 48 d, by show d + 48 ≤ 57; omega⟩

theorem decimal_digits (n : Nat) : ∀ c ∈ decimal n, isDigit c = true := by
  intro c member
  rw [decimal] at member
  split at member
  · rw [List.mem_singleton.mp member]
    rfl
  · obtain ⟨d, inside, rfl⟩ := List.mem_map.mp member
    exact isDigit_digit (Nat.digits_lt_base (by decide) (List.mem_reverse.mp inside))

theorem decimal_ne_nil (n : Nat) : decimal n ≠ [] := by
  rw [decimal]
  split
  · exact List.cons_ne_nil _ _
  · next positive =>
      intro empty
      have none := List.map_eq_nil_iff.mp empty
      exact Nat.digits_ne_nil_iff_ne_zero.mpr positive (List.reverse_eq_nil_iff.mp none)

theorem digitsValue_decimal (n : Nat) : digitsValue (decimal n) = n := by
  rw [decimal]
  split
  · next zero => rw [zero]; rfl
  · have value : ∀ digits : List Nat, (∀ d ∈ digits, d < 10) →
        digitsValue (digits.reverse.map fun d => UInt8.ofNat (d + 48)) = Nat.ofDigits 10 digits := by
      intro digits
      induction digits with
      | nil => exact fun _ => rfl
      | cons d rest ih =>
          intro small
          have later := ih fun x member => small x (List.mem_cons_of_mem _ member)
          have first := digit_toNat (small d List.mem_cons_self)
          simp only [digitsValue] at later
          simp only [digitsValue, List.reverse_cons, List.map_append, List.foldl_append, later,
            List.map_cons, List.map_nil, List.foldl_cons, List.foldl_nil, first,
            Nat.add_sub_cancel, Nat.ofDigits_cons]
          omega
    rw [value _ fun d member => Nat.digits_lt_base (by decide) member]
    exact Nat.ofDigits_digits 10 n

theorem not_space_of_digit {c : UInt8} (digit : isDigit c = true) : isSpace c = false := by
  simp only [isDigit, Bool.and_eq_true, decide_eq_true_eq, UInt8.le_iff_toNat_le] at digit
  have low : 48 ≤ c.toNat := digit.1
  have other : c ≠ 32 := by
    rintro rfl
    exact absurd low (by decide)
  have high : ¬ c ≤ 13 := by
    rw [UInt8.le_iff_toNat_le]
    show ¬ c.toNat ≤ 13
    omega
  simp only [isSpace, other, decide_false, high, Bool.and_false, Bool.or_false]

theorem not_sign_of_digit {c : UInt8} (digit : isDigit c = true) : c ≠ minus ∧ c ≠ plus := by
  refine ⟨?_, ?_⟩
  · rintro rfl
    exact absurd digit (by decide)
  · rintro rfl
    exact absurd digit (by decide)

/-- A printed number is read back. -/
theorem strToInt_decimal {n : Nat} (small : n < 2 ^ 31) : strToInt (some (decimal n)) = some (n : Int) := by
  have digits := decimal_digits n
  obtain ⟨first, rest, shape⟩ := List.exists_cons_of_ne_nil (decimal_ne_nil n)
  have digit : isDigit first = true := digits first (shape ▸ List.mem_cons_self)
  have start : (decimal n).dropWhile isSpace = decimal n := by
    rw [shape, List.dropWhile_cons_of_neg]
    simp only [not_space_of_digit digit, Bool.false_eq_true, not_false_eq_true]
  have head : (decimal n).head? = some first := by rw [shape, List.head?_cons]
  obtain ⟨notMinus, notPlus⟩ := not_sign_of_digit digit
  have run : strtol (decimal n) = (clampLong n, []) := by
    have all : (decimal n).takeWhile isDigit = decimal n := List.takeWhile_eq_self_iff.mpr digits
    have none : (decimal n).dropWhile isDigit = [] := List.dropWhile_eq_nil_iff.mpr digits
    simp only [strtol, start, head, Option.some.injEq, notMinus, notPlus, or_self, ↓reduceIte, all,
      decimal_ne_nil n, digitsValue_decimal, none]
  have value : truncateInt (clampLong n) = n := by
    simp only [truncateInt, clampLong, Int.bmod]
    omega
  simp only [strToInt, run, ↓reduceIte, value]

end Decimal

end PennOs.Shell
