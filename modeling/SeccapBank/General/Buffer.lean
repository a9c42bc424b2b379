import SeccapBank.General.CString

set_option autoImplicit false

/- Bounds-checked writes into a fixed byte buffer, writes over the front of an
existing content, and fixed-width little-endian words. -/
namespace Buffers

open CStrings

/-- A zeroed allocation. -/
def calloc (size : Nat) : Bytes := List.replicate size 0

/-- Copy into a buffer at an offset; no result when the copy leaves it. -/
def memcpy (buf : Bytes) (offset : Nat) (bytes : Bytes) : Option Bytes :=
  if offset + bytes.length ≤ buf.length then
    some (buf.take offset ++ bytes ++ buf.drop (offset + bytes.length))
  else
    none

/-- Add to the byte at an offset; no result outside the buffer. -/
def addAt (buf : Bytes) (offset : Nat) (b : UInt8) : Option Bytes :=
  match buf[offset]? with
  | some old => some (buf.set offset (old + b))
  | none => none

/-- Overwrite the front of a content; what lies behind the new bytes stays. -/
def blit (old bytes : Bytes) : Bytes := bytes ++ old.drop bytes.length

/-- Print a text and its NUL over the front of a fixed buffer. -/
def sprintf (buf text : Bytes) : Option Bytes :=
  if text.length < buf.length then some (blit buf (text ++ [0])) else none

/-- `strncpy`: so many bytes of the string, with zeros where it is shorter. -/
def strncpy (buf src : Bytes) (n : Nat) : Option Bytes :=
  memcpy buf 0 ((cstr src ++ calloc n).take n)

/-- `strncat`: at most so many bytes of the string, and a NUL, from the end of the string in
the buffer on. -/
def strncat (buf src : Bytes) (n : Nat) : Option Bytes :=
  memcpy buf (cstr buf).length ((cstr src).take n ++ [0])

@[simp] theorem calloc_length (size : Nat) : (calloc size).length = size :=
  List.length_replicate

theorem calloc_add (m n : Nat) : calloc (m + n) = calloc m ++ calloc n :=
  List.replicate_add ..

theorem calloc_succ (n : Nat) : calloc (n + 1) = 0 :: calloc n :=
  List.replicate_succ

theorem mem_calloc {b : UInt8} {size : Nat} (member : b ∈ calloc size) : b = 0 :=
  List.eq_of_mem_replicate member

/-- A copy at the end of what has been written consumes exactly its own zeros. -/
theorem memcpy_front (front bytes : Bytes) (room : Nat) :
    memcpy (front ++ calloc (bytes.length + room)) front.length bytes =
      some (front ++ bytes ++ calloc room) := by
  have fits : front.length + bytes.length ≤ (front ++ calloc (bytes.length + room)).length := by
    simp only [List.length_append, calloc_length]
    omega
  have behind : front.length + bytes.length = (front ++ calloc bytes.length).length := by
    rw [List.length_append, calloc_length]
  rw [memcpy, if_pos fits, calloc_add, List.take_left, ← List.append_assoc, behind,
    List.drop_left]

theorem cstr_calloc {front : Bytes} (nulFree : (0 : UInt8) ∉ front) (room : Nat) :
    cstr (front ++ calloc (1 + room)) = front := by
  rw [Nat.add_comm, calloc_succ, cstr_append_nul nulFree]

theorem strncpy_front {src : Bytes} (nulFree : (0 : UInt8) ∉ src) {n : Nat}
    (whole : src.length ≤ n) (room : Nat) :
    strncpy (calloc (n + room)) src n = some (src ++ calloc (n - src.length + room)) := by
  have padded : (cstr src ++ calloc n).take n = src ++ calloc (n - src.length) := by
    rw [cstr_of_nul_free nulFree, List.take_append, List.take_of_length_le whole, calloc,
      List.take_replicate, calloc]
    congr 2
    omega
  have size : (src ++ calloc (n - src.length)).length = n := by
    rw [List.length_append, calloc_length]
    omega
  have copied := memcpy_front [] (src ++ calloc (n - src.length)) room
  rw [size, List.nil_append, List.nil_append, List.append_assoc, ← calloc_add] at copied
  rw [strncpy, padded]
  exact copied

theorem strncat_front {front src : Bytes} (frontFree : (0 : UInt8) ∉ front)
    (srcFree : (0 : UInt8) ∉ src) {n : Nat} (whole : src.length ≤ n) (room : Nat) :
    strncat (front ++ calloc (src.length + 1 + room)) src n =
      some (front ++ src ++ calloc (1 + room)) := by
  have start : cstr (front ++ calloc (src.length + 1 + room)) = front := by
    rw [show src.length + 1 + room = 1 + (src.length + room) by omega]
    exact cstr_calloc frontFree _
  have copied := memcpy_front front (src ++ [0]) room
  rw [List.length_append, List.length_singleton] at copied
  rw [strncat, start, cstr_of_nul_free srcFree, List.take_of_length_le whole, copied, calloc_add]
  simp [calloc]

/-- On a byte that is still zero, adding is assigning. -/
theorem addAt_front (front : Bytes) (b : UInt8) (room : Nat) :
    addAt (front ++ calloc (1 + room)) front.length b = some (front ++ [b] ++ calloc room) := by
  rw [Nat.add_comm, calloc_succ, addAt]
  simp

theorem blit_length_of_le {old bytes : Bytes} (covers : old.length ≤ bytes.length) :
    blit old bytes = bytes := by
  rw [blit, List.drop_eq_nil_of_le covers, List.append_nil]

theorem blit_length (old bytes : Bytes) :
    (blit old bytes).length = max bytes.length old.length := by
  simp only [blit, List.length_append, List.length_drop]
  omega

/-- The low `width` bytes of a number, least significant first. -/
def littleEndian : Nat → Nat → Bytes
  | 0, _ => []
  | width + 1, n => UInt8.ofNat n :: littleEndian width (n / 256)

def ofLittleEndian : Bytes → Nat
  | [] => 0
  | b :: bytes => b.toNat + 256 * ofLittleEndian bytes

@[simp] theorem littleEndian_length (width n : Nat) : (littleEndian width n).length = width := by
  induction width generalizing n with
  | zero => rfl
  | succ width ih => simp [littleEndian, ih]

theorem ofLittleEndian_littleEndian (width n : Nat) (bound : n < 256 ^ width) :
    ofLittleEndian (littleEndian width n) = n := by
  induction width generalizing n with
  | zero => simp only [Nat.pow_zero] at bound; simp [littleEndian, ofLittleEndian]; omega
  | succ width ih =>
      have rest : n / 256 < 256 ^ width := by
        rw [Nat.pow_succ] at bound
        omega
      simp only [littleEndian, ofLittleEndian, ih _ rest, UInt8.toNat_ofNat']
      omega

theorem ofLittleEndian_lt (bytes : Bytes) : ofLittleEndian bytes < 256 ^ bytes.length := by
  induction bytes with
  | nil => simp [ofLittleEndian]
  | cons b bytes ih =>
      have low := b.toNat_lt
      simp only [ofLittleEndian, List.length_cons, Nat.pow_succ]
      omega

theorem littleEndian_ofLittleEndian (bytes : Bytes) :
    littleEndian bytes.length (ofLittleEndian bytes) = bytes := by
  induction bytes with
  | nil => rfl
  | cons b bytes ih =>
      have low := b.toNat_lt
      have head : UInt8.ofNat (b.toNat + 256 * ofLittleEndian bytes) = b := by
        rw [← UInt8.toNat_inj, UInt8.toNat_ofNat']
        omega
      have tail : (b.toNat + 256 * ofLittleEndian bytes) / 256 = ofLittleEndian bytes := by omega
      simp only [ofLittleEndian, List.length_cons, littleEndian, head, tail, ih]

end Buffers
