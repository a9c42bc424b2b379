import SeccapBank.General.CString

set_option autoImplicit false

/- Decimal numbers in texts: what `%ld` prints, and what `strtol` and `atoi` read. -/
namespace Decimals

open CStrings (Bytes)

/-- The bytes that `isspace` accepts in the C locale. -/
def isSpace (b : UInt8) : Bool := b == 32 || (9 ≤ b && b ≤ 13)

def isDigit (b : UInt8) : Bool := 48 ≤ b && b ≤ 57

def digit (d : Nat) : UInt8 := UInt8.ofNat (48 + d)

/-- The number that digits denote, the most significant first. -/
def value (digits : Bytes) : Nat := digits.foldl (fun n b => 10 * n + (b.toNat - 48)) 0

def decimal (n : Nat) : Bytes :=
  if n = 0 then [48] else ((Nat.digits 10 n).map digit).reverse

/-- `%ld`. -/
def printLong (n : Int) : Bytes :=
  if n < 0 then 45 :: decimal n.natAbs else decimal n.natAbs

/-- The values of a signed 64-bit `long`; what lies outside is clamped. -/
def clampLong (n : Int) : Int := max (-9223372036854775808) (min n 9223372036854775807)

/-- `strtol` in base 10: white space, a sign, and as many digits as follow. -/
def strtol (text : Bytes) : Int :=
  match text.dropWhile isSpace with
  | 43 :: rest => clampLong (value (rest.takeWhile isDigit))
  | 45 :: rest => clampLong (-(value (rest.takeWhile isDigit) : Int))
  | rest => clampLong (value (rest.takeWhile isDigit))

/-- `atoi` keeps the low 32 bits of the `long`. -/
def atoi (text : Bytes) : Int32 := Int32.ofInt (strtol text)

theorem digit_toNat {d : Nat} (small : d < 10) : (digit d).toNat = 48 + d := by
  rw [digit, UInt8.toNat_ofNat']
  omega

theorem digit_isDigit {d : Nat} (small : d < 10) : isDigit (digit d) = true := by
  have low := digit_toNat small
  simp only [isDigit, Bool.and_eq_true, decide_eq_true_eq, UInt8.le_iff_toNat_le, low]
  constructor
  · exact Nat.le_add_right 48 d
  · show 48 + d ≤ 57
    omega

theorem isDigit_range {b : UInt8} (is : isDigit b = true) : 48 ≤ b.toNat ∧ b.toNat ≤ 57 := by
  simp only [isDigit, Bool.and_eq_true, decide_eq_true_eq, UInt8.le_iff_toNat_le] at is
  exact is

theorem isDigit_ne {b c : UInt8} (is : isDigit b = true) (other : isDigit c = false) : b ≠ c := by
  intro same
  rw [same, other] at is
  cases is

theorem isDigit_not_space {b : UInt8} (is : isDigit b = true) : isSpace b = false := by
  have range := isDigit_range is
  have blank : b ≠ 32 := isDigit_ne is (by decide)
  have high : ¬ b ≤ 13 := by
    rw [UInt8.le_iff_toNat_le]
    show ¬ b.toNat ≤ 13
    omega
  simp [isSpace, blank, high]

theorem value_append (front : Bytes) (b : UInt8) :
    value (front ++ [b]) = 10 * value front + (b.toNat - 48) := by
  rw [value, List.foldl_append]
  rfl

theorem value_reverse (digits : List Nat) (small : ∀ d ∈ digits, d < 10) :
    value (digits.map digit).reverse = Nat.ofDigits 10 digits := by
  induction digits with
  | nil => rfl
  | cons d digits ih =>
      have head := digit_toNat (small d (List.mem_cons_self ..))
      rw [List.map_cons, List.reverse_cons, value_append,
        ih fun e member => small e (List.mem_cons_of_mem _ member), Nat.ofDigits_cons, head]
      simp only [Nat.add_sub_cancel_left]
      omega

theorem value_decimal (n : Nat) : value (decimal n) = n := by
  unfold decimal
  split
  · rename_i zero
    rw [zero]
    rfl
  · rw [value_reverse _ fun d member => Nat.digits_lt_base (by decide) member]
    exact Nat.ofDigits_digits 10 n

theorem decimal_digits (n : Nat) : ∀ b ∈ decimal n, isDigit b = true := by
  intro b member
  unfold decimal at member
  split at member
  · rw [List.mem_singleton.mp member]
    decide
  · obtain ⟨d, inside, rfl⟩ := List.mem_map.mp (List.mem_reverse.mp member)
    exact digit_isDigit (Nat.digits_lt_base (by decide) inside)

theorem decimal_ne_nil (n : Nat) : decimal n ≠ [] := by
  unfold decimal
  split
  · exact List.cons_ne_nil _ _
  · rename_i nonzero
    rw [Ne, List.reverse_eq_nil_iff, List.map_eq_nil_iff, Nat.digits_eq_nil_iff_eq_zero]
    exact nonzero

/-- At most `k` digits are printed exactly for the numbers below `10 ^ k`. -/
theorem decimal_length_le {n k : Nat} (positive : 0 < k) :
    (decimal n).length ≤ k ↔ n < 10 ^ k := by
  unfold decimal
  split
  · rename_i zero
    subst zero
    exact iff_of_true positive (Nat.pow_pos (by decide))
  · rw [List.length_reverse, List.length_map]
    exact Nat.digits_length_le_iff (by decide) n

/-- At most `k + 1` bytes are printed exactly for the numbers between `-10 ^ k` and
`10 ^ (k + 1)`: a sign takes the place of a digit. -/
theorem printLong_length_le {n : Int} {k : Nat} (positive : 0 < k) :
    (printLong n).length ≤ k + 1 ↔ -10 ^ k < n ∧ n < 10 ^ (k + 1) := by
  have low : (10 : Int) ^ k = ((10 ^ k : Nat) : Int) := by norm_cast
  have high : (10 : Int) ^ (k + 1) = ((10 ^ (k + 1) : Nat) : Int) := by norm_cast
  have one : 0 < 10 ^ (k + 1) := Nat.pow_pos (by decide)
  unfold printLong
  split
  · rw [List.length_cons, Nat.add_le_add_iff_right, decimal_length_le positive]
    omega
  · rw [decimal_length_le (Nat.succ_pos k)]
    omega

/-- A text of digits alone is that of one number. -/
theorem printLong_eq_decimal {n : Int} {m : Nat} : printLong n = decimal m ↔ n = m := by
  unfold printLong
  split
  · rename_i negative
    apply iff_of_false
    · intro same
      have sign : (45 : UInt8) ∈ decimal m := by
        rw [← same]
        exact List.mem_cons_self ..
      have digit := decimal_digits m _ sign
      revert digit
      decide
    · omega
  · constructor
    · intro same
      have read := congrArg value same
      rw [value_decimal, value_decimal] at read
      omega
    · intro same
      rw [same, Int.natAbs_natCast]

theorem printLong_free {b : UInt8} (sign : b ≠ 45) (other : isDigit b = false) (n : Int) :
    b ∉ printLong n := by
  have digits : b ∉ decimal n.natAbs := fun member =>
    isDigit_ne (decimal_digits _ _ member) other rfl
  unfold printLong
  split
  · rw [List.mem_cons, not_or]
    exact ⟨sign, digits⟩
  · exact digits

theorem takeWhile_digits {digits : Bytes} (all : ∀ b ∈ digits, isDigit b = true) {rest : Bytes}
    (stop : ∀ b ∈ rest.head?, isDigit b = false) :
    (digits ++ rest).takeWhile isDigit = digits := by
  rw [List.takeWhile_append_of_pos all]
  cases rest with
  | nil => simp
  | cons c rest => simp [stop c rfl]

/-- Digits in front of something else are read as their number. -/
theorem strtol_digits {digits : Bytes} (all : ∀ b ∈ digits, isDigit b = true)
    (nonempty : digits ≠ []) {rest : Bytes} (stop : ∀ b ∈ rest.head?, isDigit b = false) :
    strtol (digits ++ rest) = clampLong (value digits) := by
  have taken := takeWhile_digits all stop
  cases digits with
  | nil => exact absurd rfl nonempty
  | cons b digits =>
      have first := all b (List.mem_cons_self ..)
      have kept : (b :: digits ++ rest).dropWhile isSpace = b :: (digits ++ rest) := by
        simp [isDigit_not_space first]
      have plus : b ≠ 43 := isDigit_ne first (by decide)
      have minus : b ≠ 45 := isDigit_ne first (by decide)
      unfold strtol
      rw [kept]
      split
      · rename_i same
        exact absurd (List.cons.inj same).1 plus
      · rename_i same
        exact absurd (List.cons.inj same).1 minus
      · rw [← List.cons_append, taken]

/-- The text of a `long` is read back as that number. -/
theorem strtol_printLong {n : Int} (low : -2 ^ 63 ≤ n) (high : n < 2 ^ 63) {rest : Bytes}
    (stop : ∀ b ∈ rest.head?, isDigit b = false) : strtol (printLong n ++ rest) = n := by
  have digits := decimal_digits n.natAbs
  unfold printLong
  split
  · have signed : strtol (45 :: decimal n.natAbs ++ rest) =
        clampLong (-(value ((decimal n.natAbs ++ rest).takeWhile isDigit) : Int)) := rfl
    rw [signed, takeWhile_digits digits stop, value_decimal, clampLong]
    omega
  · rw [strtol_digits digits (decimal_ne_nil _) stop, value_decimal, clampLong]
    omega

theorem atoi_printLong {n : Int} (low : -2 ^ 63 ≤ n) (high : n < 2 ^ 63) {rest : Bytes}
    (stop : ∀ b ∈ rest.head?, isDigit b = false) : atoi (printLong n ++ rest) = Int32.ofInt n := by
  rw [atoi, strtol_printLong low high stop]

/-- The number that `%ld` makes of an unsigned word. -/
theorem toInt64_toInt (word : UInt64) : word.toInt64.toInt =
    if word.toNat < 2 ^ 63 then (word.toNat : Int) else word.toNat - 2 ^ 64 := by
  have bound := word.toNat_lt
  have signed : word.toInt64.toInt = word.toBitVec.toInt := rfl
  have number : word.toBitVec.toNat = word.toNat := rfl
  rw [signed, BitVec.toInt_eq_toNat_cond, number]
  split <;> split <;> omega

end Decimals
