import Mathlib

set_option autoImplicit false

/- NUL-terminated byte strings and the comparisons of the C library on them.
A list stands for the bytes from a pointer on, with a NUL after its end. -/
namespace CStrings

abbrev Bytes := List UInt8

/-- What `strlen` and every `%s` see: the bytes before the first NUL. -/
def cstr (bytes : Bytes) : Bytes := bytes.takeWhile (· ≠ 0)

/-- A string whose terminator is its first NUL. -/
structure CString where
  bytes : Bytes
  nulFree : (0 : UInt8) ∉ bytes
  deriving DecidableEq

/-- The bytes of an ASCII literal. -/
def ascii (text : String) : Bytes := text.toList.map fun c => UInt8.ofNat c.toNat

theorem cstr_nul_free (bytes : Bytes) : (0 : UInt8) ∉ cstr bytes := by
  intro member
  simpa using List.mem_takeWhile_imp member

/-- The string a pointer to these bytes denotes. -/
def CString.ofBytes (bytes : Bytes) : CString := ⟨cstr bytes, cstr_nul_free bytes⟩

theorem cstr_of_nul_free {bytes : Bytes} (nulFree : (0 : UInt8) ∉ bytes) :
    cstr bytes = bytes := by
  rw [cstr, List.takeWhile_eq_self_iff]
  intro b member
  simpa using fun zero : b = 0 => nulFree (zero ▸ member)

theorem CString.ofBytes_nulFree {bytes : Bytes} (nulFree : (0 : UInt8) ∉ bytes) :
    CString.ofBytes bytes = ⟨bytes, nulFree⟩ := by
  simp only [CString.ofBytes, cstr_of_nul_free nulFree]

@[simp] theorem CString.cstr_bytes (s : CString) : cstr s.bytes = s.bytes :=
  cstr_of_nul_free s.nulFree

@[simp] theorem cstr_nil : cstr [] = [] := rfl

@[simp] theorem cstr_nul_cons (bytes : Bytes) : cstr (0 :: bytes) = [] := rfl

theorem cstr_cons {b : UInt8} (nonzero : b ≠ 0) (bytes : Bytes) :
    cstr (b :: bytes) = b :: cstr bytes := by
  simp [cstr, nonzero]

theorem cstr_append_nul {bytes : Bytes} (nulFree : (0 : UInt8) ∉ bytes) (rest : Bytes) :
    cstr (bytes ++ 0 :: rest) = bytes := by
  induction bytes with
  | nil => rfl
  | cons b bytes ih =>
      have nonzero : b ≠ 0 := fun zero => nulFree (by simp [zero])
      rw [List.cons_append, cstr_cons nonzero, ih fun member => nulFree (by simp [member])]

/-- `strcmp`: the difference at the first place where the strings differ. -/
def strcmp : Bytes → Bytes → Int
  | [], [] => 0
  | [], y :: _ => -(y.toNat : Int)
  | x :: _, [] => x.toNat
  | x :: xs, y :: ys => if x = y ∧ x ≠ 0 then strcmp xs ys else (x.toNat : Int) - y.toNat

/-- `strncmp`: the same over at most `n` bytes. -/
def strncmp : Nat → Bytes → Bytes → Int
  | 0, _, _ => 0
  | _ + 1, [], [] => 0
  | _ + 1, [], y :: _ => -(y.toNat : Int)
  | _ + 1, x :: _, [] => x.toNat
  | n + 1, x :: xs, y :: ys =>
      if x = y ∧ x ≠ 0 then strncmp n xs ys else (x.toNat : Int) - y.toNat

private theorem toNat_eq_zero (b : UInt8) : b.toNat = 0 ↔ b = 0 := by
  rw [← UInt8.toNat_inj]; rfl

private theorem diff_eq_zero (x y : UInt8) : (x.toNat : Int) - y.toNat = 0 ↔ x = y := by
  rw [← UInt8.toNat_inj]; omega

theorem cstr_cons_eq_nil (b : UInt8) (bytes : Bytes) : cstr (b :: bytes) = [] ↔ b = 0 := by
  by_cases zero : b = 0 <;> simp [cstr, zero]

/-- Strings that differ in their first byte differ in every nonempty prefix. -/
theorem cstr_take_ne {x y : UInt8} (differ : x ≠ y) (n : Nat) (xs ys : Bytes) :
    (cstr (x :: xs)).take (n + 1) ≠ (cstr (y :: ys)).take (n + 1) := by
  intro equal
  by_cases zero : x = 0
  · have empty : cstr (y :: ys) = [] := by simpa [zero] using equal.symm
    exact differ (zero.trans ((cstr_cons_eq_nil y ys).mp empty).symm)
  · by_cases zero' : y = 0
    · simp [zero', cstr_cons zero] at equal
    · rw [cstr_cons zero, cstr_cons zero', List.take_succ_cons, List.take_succ_cons] at equal
      exact differ (List.cons.inj equal).1

/-- `strncmp` answers zero exactly when the first `n` bytes of the strings agree. -/
theorem strncmp_eq_zero (n : Nat) (xs ys : Bytes) :
    strncmp n xs ys = 0 ↔ (cstr xs).take n = (cstr ys).take n := by
  induction n generalizing xs ys with
  | zero => simp [strncmp]
  | succ n ih =>
      match xs, ys with
      | [], [] => simp [strncmp]
      | [], y :: ys =>
          rw [strncmp, neg_eq_zero, Int.natCast_eq_zero, toNat_eq_zero, ← cstr_cons_eq_nil y ys,
            eq_comm (a := (cstr []).take (n + 1))]
          simp
      | x :: xs, [] =>
          rw [strncmp, Int.natCast_eq_zero, toNat_eq_zero, ← cstr_cons_eq_nil x xs]
          simp
      | x :: xs, y :: ys =>
          by_cases same : x = y
          · subst same
            by_cases zero : x = 0 <;> simp [strncmp, zero, ih, cstr_cons]
          · refine iff_of_false ?_ (cstr_take_ne same n xs ys)
            simpa [strncmp, same] using (diff_eq_zero x y).not.mpr same

theorem prefix_cstr {keyword bytes : Bytes} (nulFree : (0 : UInt8) ∉ keyword) :
    keyword <+: cstr bytes ↔ keyword <+: bytes := by
  constructor
  · intro begins
    exact begins.trans (List.takeWhile_prefix _)
  · rintro ⟨rest, rfl⟩
    have all : ∀ b ∈ keyword, decide (b ≠ 0) = true := fun b member =>
      decide_eq_true fun zero => nulFree (zero ▸ member)
    rw [cstr, List.takeWhile_append_of_pos all]
    exact List.prefix_append _ _

/-- Compared over its own length, a keyword is found exactly where a string begins with it. -/
theorem strncmp_keyword {keyword bytes : Bytes} (nulFree : (0 : UInt8) ∉ keyword) :
    strncmp keyword.length keyword bytes = 0 ↔ keyword <+: bytes := by
  rw [strncmp_eq_zero, cstr_of_nul_free nulFree, List.take_length, ← prefix_cstr nulFree,
    List.prefix_iff_eq_take]

/-- No text begins with two keywords of which neither begins with the other. -/
theorem keywords_apart {bytes one other : Bytes} (found : one <+: bytes)
    (apart : ¬ one <+: other ∧ ¬ other <+: one) : ¬ other <+: bytes := by
  intro again
  rcases List.prefix_or_prefix_of_prefix found again with inside | inside
  · exact apart.1 inside
  · exact apart.2 inside

theorem strncmp_symm (n : Nat) (xs ys : Bytes) : strncmp n xs ys = 0 ↔ strncmp n ys xs = 0 := by
  rw [strncmp_eq_zero, strncmp_eq_zero, eq_comm]

/-- `strcmp` answers zero exactly on equal strings. -/
theorem strcmp_eq_zero (xs ys : Bytes) : strcmp xs ys = 0 ↔ cstr xs = cstr ys := by
  induction xs generalizing ys with
  | nil =>
      cases ys with
      | nil => simp [strcmp]
      | cons y ys =>
          rw [strcmp, neg_eq_zero, Int.natCast_eq_zero, toNat_eq_zero, ← cstr_cons_eq_nil y ys]
          exact eq_comm
  | cons x xs ih =>
      cases ys with
      | nil =>
          rw [strcmp, Int.natCast_eq_zero, toNat_eq_zero, ← cstr_cons_eq_nil x xs]
          simp
      | cons y ys =>
          by_cases same : x = y
          · subst same
            by_cases zero : x = 0 <;> simp [strcmp, zero, ih, cstr_cons]
          · refine iff_of_false ?_ fun equal => cstr_take_ne same 0 xs ys (by rw [equal])
            simpa [strcmp, same] using (diff_eq_zero x y).not.mpr same

end CStrings
