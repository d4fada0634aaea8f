import PennOs.Shell.Numbers

set_option autoImplicit false

/- Which strings `str_to_int` accepts, and what it makes of them. -/
namespace PennOs.Shell

/-- The signs of a numeral. -/
inductive Sign where
  | unsigned | positive | negative
  deriving DecidableEq

namespace Sign

def text : Sign → List UInt8
  | .unsigned => []
  | .positive => [plus]
  | .negative => [minus]

def apply : Sign → Int → Int
  | .unsigned, n => n
  | .positive, n => n
  | .negative, n => -n

end Sign

/-- `word` is white space, an optional sign and at least one decimal digit, and `value` is the number
written. -/
def Numeral (word : List UInt8) (value : Int) : Prop :=
  ∃ (spaces digits : List UInt8) (sign : Sign), word = spaces ++ (sign.text ++ digits) ∧
    (∀ c ∈ spaces, isSpace c = true) ∧ digits ≠ [] ∧ (∀ c ∈ digits, isDigit c = true) ∧
    value = sign.apply (digitsValue digits)

/-- A value of `int`. -/
def InInt (n : Int) : Prop := -2 ^ 31 ≤ n ∧ n < 2 ^ 31

/-- The argument is a string, and the number written there fits in `int` and is `value`. -/
def WrittenAs (word : Option (List UInt8)) (value : Int) : Prop :=
  ∃ text, word = some text ∧ Numeral text value ∧ InInt value

/-- `word` is read as `value` although it writes nothing, or a number that does not fit in `int`. -/
def Narrowed (word : List UInt8) (value : Int) : Prop :=
  (word = [] ∧ value = 0) ∨ ∃ n, Numeral word n ∧ ¬ InInt n ∧ truncateInt (clampLong n) = value

variable {word : List UInt8} {value n m : Int}

/-- The number at the start of `word`, of whatever size. -/
def leadingNumber (word : List UInt8) : Int :=
  let start := word.dropWhile isSpace
  let unsigned := if start.head? = some minus ∨ start.head? = some plus then start.tail else start
  let magnitude : Int := digitsValue (unsigned.takeWhile isDigit)
  if start.head? = some minus then -magnitude else magnitude

section Scan

theorem dropWhile_of_all {p : UInt8 → Bool} {front rest : List UInt8} (all : ∀ c ∈ front, p c = true)
    (stops : ∀ c ∈ rest.head?, p c = false) : (front ++ rest).dropWhile p = rest := by
  rw [List.dropWhile_append_of_pos all]
  cases rest with
  | nil => rfl
  | cons c rest =>
      apply List.dropWhile_cons_of_neg
      simp only [stops c rfl, Bool.false_eq_true, not_false_eq_true]

/-- After the white space comes the sign, and after the sign come the digits. -/
theorem start_of_sign {digits : List UInt8} (sign : Sign) (nonempty : digits ≠ [])
    (all : ∀ c ∈ digits, isDigit c = true) :
    (∀ c ∈ (sign.text ++ digits).head?, isSpace c = false) ∧
      ((sign.text ++ digits).head? = some minus ↔ sign = .negative) ∧
      (if (sign.text ++ digits).head? = some minus ∨ (sign.text ++ digits).head? = some plus then
        (sign.text ++ digits).tail else sign.text ++ digits) = digits := by
  obtain ⟨first, rest, rfl⟩ := List.exists_cons_of_ne_nil nonempty
  have digit := all first List.mem_cons_self
  obtain ⟨notMinus, notPlus⟩ := not_sign_of_digit digit
  cases sign with
  | unsigned =>
      have space := not_space_of_digit digit
      simp [Sign.text, notMinus, notPlus, space]
  | positive =>
      have space : isSpace plus = false := by decide
      have apart : plus ≠ minus := by decide
      simp [Sign.text, space, apart]
  | negative =>
      have space : isSpace minus = false := by decide
      simp [Sign.text, space]

theorem takeWhile_digits {digits : List UInt8} (all : ∀ c ∈ digits, isDigit c = true) :
    digits.takeWhile isDigit = digits := List.takeWhile_eq_self_iff.mpr all

/-- A numeral writes one number. -/
theorem Numeral.leading (numeral : Numeral word n) : leadingNumber word = n := by
  obtain ⟨spaces, digits, sign, rfl, blank, nonempty, all, rfl⟩ := numeral
  obtain ⟨stops, isNegative, unsigned⟩ := start_of_sign sign nonempty all
  have start := dropWhile_of_all blank stops
  simp only [leadingNumber, start, unsigned, takeWhile_digits all]
  simp only [isNegative]
  cases sign <;> rfl

theorem Numeral.unique (first : Numeral word n) (second : Numeral word m) : n = m :=
  first.leading.symm.trans second.leading

/-- `strtol` reads a numeral to its end. -/
theorem Numeral.strtol (numeral : Numeral word n) : strtol word = (clampLong n, []) := by
  obtain ⟨spaces, digits, sign, rfl, blank, nonempty, all, rfl⟩ := numeral
  obtain ⟨stops, isNegative, unsigned⟩ := start_of_sign sign nonempty all
  have start := dropWhile_of_all blank stops
  have ends : digits.dropWhile isDigit = [] := List.dropWhile_eq_nil_iff.mpr all
  simp only [Shell.strtol, start, unsigned, takeWhile_digits all, nonempty, ↓reduceIte, ends]
  simp only [isNegative]
  cases sign <;> rfl

/-- Where `strtol` reads to the end there is a numeral, or nothing at all. -/
theorem numeral_of_strtol (ends : (strtol word).2 = []) : word = [] ∨ ∃ n, Numeral word n := by
  let start := word.dropWhile isSpace
  let unsigned := if start.head? = some minus ∨ start.head? = some plus then start.tail else start
  have blank : ∀ c ∈ word.takeWhile isSpace, isSpace c = true := fun c => List.mem_takeWhile_imp
  by_cases none : unsigned.takeWhile isDigit = []
  · apply Or.inl
    simpa only [strtol, start, unsigned, none, ↓reduceIte] using ends
  apply Or.inr
  have left : unsigned.dropWhile isDigit = [] := by
    simpa only [strtol, start, unsigned, none, ↓reduceIte] using ends
  have all : ∀ c ∈ unsigned, isDigit c = true := List.dropWhile_eq_nil_iff.mp left
  have nonempty : unsigned ≠ [] := by
    intro empty
    rw [empty] at none
    exact none rfl
  have split : word = word.takeWhile isSpace ++ start := List.takeWhile_append_dropWhile.symm
  have signed : ∃ sign : Sign, start = sign.text ++ unsigned := by
    by_cases first : start.head? = some minus
    · refine ⟨.negative, ?_⟩
      have rest : unsigned = start.tail := if_pos (.inl first)
      rw [rest]
      exact (List.cons_head?_tail first).symm
    by_cases second : start.head? = some plus
    · refine ⟨.positive, ?_⟩
      have rest : unsigned = start.tail := if_pos (.inr second)
      rw [rest]
      exact (List.cons_head?_tail second).symm
    · refine ⟨.unsigned, ?_⟩
      have rest : unsigned = start := if_neg (not_or.mpr ⟨first, second⟩)
      rw [rest]
      rfl
  obtain ⟨sign, shape⟩ := signed
  exact ⟨_, word.takeWhile isSpace, unsigned, sign, shape ▸ split, blank, nonempty, all, rfl⟩

end Scan

section Reading

theorem truncateInt_clampLong (fits : InInt n) : truncateInt (clampLong n) = n := by
  unfold InInt at fits
  simp only [truncateInt, clampLong, Int.bmod]
  omega

theorem Numeral.nonempty (numeral : Numeral word n) : word ≠ [] := by
  obtain ⟨spaces, digits, sign, rfl, _, nonempty, _⟩ := numeral
  intro empty
  have parts := List.append_eq_nil_iff.mp (List.append_eq_nil_iff.mp empty).2
  exact nonempty parts.2

/-- All that `str_to_int` accepts. -/
theorem strToInt_iff :
    strToInt (some word) = some value ↔ WrittenAs (some word) value ∨ Narrowed word value := by
  constructor
  · intro read
    unfold strToInt at read
    dsimp only at read
    by_cases ends : (strtol word).2 = []
    swap
    · rw [if_neg ends] at read
      cases read
    rw [if_pos ends] at read
    rcases numeral_of_strtol ends with empty | ⟨n, numeral⟩
    · subst empty
      cases read
      exact .inr (.inl ⟨rfl, by decide⟩)
    rw [numeral.strtol] at read
    by_cases fits : InInt n
    · rw [truncateInt_clampLong fits] at read
      cases read
      exact .inl ⟨word, rfl, numeral, fits⟩
    · exact .inr (.inr ⟨n, numeral, fits, Option.some.inj read⟩)
  · intro cause
    have accepts : ∀ {n}, Numeral word n →
        strToInt (some word) = some (truncateInt (clampLong n)) := by
      intro n numeral
      simp only [strToInt, numeral.strtol, ↓reduceIte]
    rcases cause with ⟨text, same, numeral, fits⟩ | ⟨rfl, rfl⟩ | ⟨n, numeral, _, narrowed⟩
    · obtain rfl := Option.some.inj same
      rw [accepts numeral, truncateInt_clampLong fits]
    · decide
    · rw [accepts numeral, narrowed]

/-- A number that is not the one written. -/
theorem Narrowed.not_written (narrowed : Narrowed word value) : ¬ WrittenAs (some word) value := by
  intro written
  obtain ⟨text, same, numeral, fits⟩ := written
  obtain rfl := Option.some.inj same
  rcases narrowed with ⟨empty, _⟩ | ⟨n, numeral', outside, _⟩
  · exact numeral.nonempty empty
  · exact outside (numeral'.unique numeral ▸ fits)

theorem strToInt_exact (argument : Option (List UInt8)) :
    (∀ value, strToInt argument = some value → WrittenAs argument value) ↔
      ∀ word value, argument = some word → ¬ Narrowed word value := by
  constructor
  · intro exact_ word value given narrowed
    have read := strToInt_iff.mpr (.inr narrowed)
    exact narrowed.not_written (given ▸ exact_ value (given ▸ read))
  · intro sound value read
    cases argument with
    | none => cases read
    | some word =>
        rcases strToInt_iff.mp read with written | narrowed
        · exact written
        · exact absurd narrowed (sound word value rfl)

end Reading

end PennOs.Shell
