import SeccapBank.AccountListFormat
import SeccapBank.General.Decimal

set_option autoImplicit false

/- What the server makes of one received buffer: the split at commas and the chain of
comparisons behind it. -/
namespace SeccapBank

open CStrings Buffers Fallible Decimals

def receiveBufSize : Nat := 1024

/-- The entries of `data` and `data_size` that are filled. There are as many as
`data_iter` says; the others of the three are NULL. -/
structure Split where
  data : List Bytes
  dataSize : List Nat
  startIter : Nat
  deriving DecidableEq

/-- One pass of the splitting loop. A fourth comma writes behind both arrays. -/
def splitStep (buf : Bytes) (s : Split) (i : Nat) : Except Fault Split :=
  if buf[i]? = some comma then
    if s.data.length < 3 then
      let size := i - s.startIter
      return ⟨s.data ++ [(buf.drop s.startIter).take size], s.dataSize ++ [size], i + 1⟩
    else
      throw .outOfBounds
  else
    return s

def splitReceived (buf : Bytes) : Except Fault Split :=
  (List.range receiveBufSize).foldlM (splitStep buf) ⟨[], [], 0⟩

/-- What the server is asked to do. -/
inductive Request where
  | login (name password : CString)
  | deposit (amount : UInt64)
  | withdraw (amount : UInt64)
  | stop
  | other
  deriving DecidableEq

/-- `uint64_t amount = atoi(field)`. -/
def amountOf (field : Bytes) : UInt64 := (atoi field).toInt64.toUInt64

/-- The comparisons and the fields that each branch reads. A field that the split did
not fill is a NULL pointer; the last comparison is with the buffer itself. -/
def dispatch (buf : Bytes) (data : List Bytes) : Except Fault Request := do
  let field (j : Nat) := orFault Fault.nullPointer data[j]?
  if strncmp 5 (ascii "login") (← field 0) = 0 then
    return .login (.ofBytes (← field 1)) (.ofBytes (← field 2))
  else if strncmp 7 (ascii "deposit") (← field 0) = 0 then
    return .deposit (amountOf (← field 1))
  else if strncmp 8 (ascii "withdraw") (← field 0) = 0 then
    return .withdraw (amountOf (← field 1))
  else if strncmp 3 (ascii "end") buf = 0 then
    return .stop
  else
    return .other

def requestOf (buf : Bytes) : Except Fault Request := do
  dispatch buf (← splitReceived buf).data

/-- The fields that the branch of a request reads. -/
def Request.fields : Request → Nat
  | .login .. => 3
  | .deposit _ => 2
  | .withdraw _ => 2
  | .stop => 1
  | .other => 1

/-- The split after these bytes have been scanned. -/
def Split.scanned (front : Bytes) : Split :=
  ⟨Delimited.segments comma front, (Delimited.segments comma front).map List.length,
    front.length - (Delimited.residue comma front).length⟩

theorem scanned_field (front rest : Bytes) :
    ((front ++ rest).drop (Split.scanned front).startIter).take
      (front.length - (Split.scanned front).startIter) = Delimited.residue comma front := by
  obtain ⟨closed, whole⟩ := Delimited.residue_suffix (d := comma) front
  have length := congrArg List.length whole
  rw [List.length_append] at length
  have start : (Split.scanned front).startIter = closed.length := by
    show front.length - (Delimited.residue comma front).length = _
    omega
  have size : front.length - closed.length = (Delimited.residue comma front).length := by omega
  have parts : front ++ rest = closed ++ (Delimited.residue comma front ++ rest) := by
    rw [← List.append_assoc, whole]
  rw [start, size, parts, List.drop_left, List.take_left]

theorem scanned_comma (front : Bytes) : Split.scanned (front ++ [comma]) =
    ⟨(Split.scanned front).data ++ [Delimited.residue comma front],
      (Split.scanned front).dataSize ++ [(Delimited.residue comma front).length],
      front.length + 1⟩ := by
  simp only [Split.scanned, Delimited.segments_concat, Delimited.residue_concat, List.map_append,
    List.map_cons, List.map_nil, List.length_append, List.length_singleton, List.length_nil,
    Nat.sub_zero]

theorem scanned_other {b : UInt8} (other : b ≠ comma) (front : Bytes) :
    Split.scanned (front ++ [b]) = Split.scanned front := by
  have suffix := (Delimited.residue_suffix (d := comma) front).length_le
  simp only [Split.scanned, Delimited.segments_concat_ne other, Delimited.residue_concat_ne other,
    List.length_append, List.length_singleton, Split.mk.injEq, true_and]
  omega

theorem splitStep_scanned (front : Bytes) (b : UInt8) (rest : Bytes) :
    splitStep (front ++ b :: rest) (.scanned front) front.length =
      if b = comma ∧ 3 ≤ front.count comma then .error .outOfBounds
      else .ok (.scanned (front ++ [b])) := by
  have read : (front ++ b :: rest)[front.length]? = some b := by simp
  have filled : (Split.scanned front).data.length = front.count comma :=
    Delimited.segments_length front
  unfold splitStep
  rw [read, filled]
  by_cases found : b = comma
  · subst found
    have start : (Split.scanned front).startIter ≤ front.length := Nat.sub_le _ _
    have field := scanned_field front (comma :: rest)
    have size : front.length - (Split.scanned front).startIter =
        (Delimited.residue comma front).length := by
      have suffix := (Delimited.residue_suffix (d := comma) front).length_le
      show front.length - (front.length - _) = _
      omega
    by_cases room : front.count comma < 3
    · rw [if_pos rfl, if_pos room, if_neg (by omega), scanned_comma]
      dsimp only
      rw [field, size]
      rfl
    · rw [if_pos rfl, if_neg room, if_pos ⟨rfl, by omega⟩]
      rfl
  · rw [if_neg (by simpa using found), if_neg (fun both => found both.1), scanned_other found]
    rfl

/-- The passes over the first `n` bytes stay in the arrays exactly while these have at
most three commas. -/
theorem splitReceived_prefix (buf : Bytes) (n : Nat) (inside : n ≤ buf.length) :
    (List.range n).foldlM (splitStep buf) ⟨[], [], 0⟩ =
      if (buf.take n).count comma ≤ 3 then .ok (.scanned (buf.take n))
      else .error .outOfBounds := by
  induction n with
  | zero => rfl
  | succ n ih =>
      have here : n < buf.length := inside
      have next : buf.take (n + 1) = buf.take n ++ [buf[n]] := List.take_succ_eq_append_getElem here
      have whole : buf = buf.take n ++ buf[n] :: buf.drop (n + 1) := by
        rw [← List.drop_eq_getElem_cons here, List.take_append_drop]
      have long : (buf.take n).length = n := by
        rw [List.length_take]
        omega
      have pass : splitStep buf (.scanned (buf.take n)) n =
          if buf[n] = comma ∧ 3 ≤ (buf.take n).count comma then .error .outOfBounds
          else .ok (.scanned (buf.take (n + 1))) := by
        have step := splitStep_scanned (buf.take n) buf[n] (buf.drop (n + 1))
        rwa [← whole, long, ← next] at step
      rw [List.range_succ, List.foldlM_append, ih (Nat.le_of_lt here)]
      by_cases early : (buf.take n).count comma ≤ 3
      · rw [if_pos early, ok_bind, List.foldlM_cons, pass]
        by_cases fourth : buf[n] = comma ∧ 3 ≤ (buf.take n).count comma
        · have beyond : ¬ (buf.take (n + 1)).count comma ≤ 3 := by
            rw [next, fourth.1, List.count_append, List.count_singleton_self]
            omega
          rw [if_pos fourth, if_neg beyond]
          rfl
        · have fits : (buf.take (n + 1)).count comma ≤ 3 := by
            rw [next, List.count_append]
            by_cases found : buf[n] = comma
            · have room : ¬ 3 ≤ (buf.take n).count comma := fun full => fourth ⟨found, full⟩
              rw [found, List.count_singleton_self]
              omega
            · rw [List.count_singleton, if_neg (by simpa using found)]
              exact early
          rw [if_neg fourth, if_pos fits]
          rfl
      · have beyond : ¬ (buf.take (n + 1)).count comma ≤ 3 := by
          rw [next, List.count_append]
          omega
        rw [if_neg early, if_neg beyond]
        rfl

/-- The split finds the fields of a whole buffer, and leaves its arrays exactly when
there are more than three commas. -/
theorem splitReceived_eq {buf : Bytes} (whole : buf.length = receiveBufSize) :
    splitReceived buf =
      if buf.count comma ≤ 3 then .ok (.scanned buf) else .error .outOfBounds := by
  have split := splitReceived_prefix buf receiveBufSize (Nat.le_of_eq whole.symm)
  rwa [List.take_of_length_le (Nat.le_of_eq whole)] at split

theorem requestOf_eq {buf : Bytes} (whole : buf.length = receiveBufSize)
    (fits : buf.count comma ≤ 3) :
    requestOf buf = dispatch buf (Delimited.segments comma buf) := by
  rw [requestOf, splitReceived_eq whole, if_pos fits]
  rfl

theorem requestOf_overflow {buf : Bytes} (whole : buf.length = receiveBufSize)
    (beyond : 3 < buf.count comma) : requestOf buf = .error .outOfBounds := by
  rw [requestOf, splitReceived_eq whole, if_neg (by omega)]
  rfl

theorem requestOf_no_comma {buf : Bytes} (whole : buf.length = receiveBufSize)
    (clean : comma ∉ buf) : requestOf buf = .error .nullPointer := by
  have none : buf.count comma = 0 := List.count_eq_zero.mpr clean
  rw [requestOf_eq whole (by omega), Delimited.segments_clean clean]
  rfl

/-- The branches of the dispatcher, each with the comparisons that lead to it and the
fields that it finds. -/
inductive Dispatched (buf : Bytes) : List Bytes → Request → Prop where
  | login {first name password : Bytes} {rest : List Bytes}
      (keyword : strncmp 5 (ascii "login") first = 0) :
      Dispatched buf (first :: name :: password :: rest)
        (.login (.ofBytes name) (.ofBytes password))
  | deposit {first amount : Bytes} {rest : List Bytes}
      (notLogin : strncmp 5 (ascii "login") first ≠ 0)
      (keyword : strncmp 7 (ascii "deposit") first = 0) :
      Dispatched buf (first :: amount :: rest) (.deposit (amountOf amount))
  | withdraw {first amount : Bytes} {rest : List Bytes}
      (notLogin : strncmp 5 (ascii "login") first ≠ 0)
      (notDeposit : strncmp 7 (ascii "deposit") first ≠ 0)
      (keyword : strncmp 8 (ascii "withdraw") first = 0) :
      Dispatched buf (first :: amount :: rest) (.withdraw (amountOf amount))
  | stop {first : Bytes} {rest : List Bytes}
      (notLogin : strncmp 5 (ascii "login") first ≠ 0)
      (notDeposit : strncmp 7 (ascii "deposit") first ≠ 0)
      (notWithdraw : strncmp 8 (ascii "withdraw") first ≠ 0)
      (keyword : strncmp 3 (ascii "end") buf = 0) :
      Dispatched buf (first :: rest) .stop
  | other {first : Bytes} {rest : List Bytes}
      (notLogin : strncmp 5 (ascii "login") first ≠ 0)
      (notDeposit : strncmp 7 (ascii "deposit") first ≠ 0)
      (notWithdraw : strncmp 8 (ascii "withdraw") first ≠ 0)
      (notEnd : strncmp 3 (ascii "end") buf ≠ 0) :
      Dispatched buf (first :: rest) .other

theorem dispatch_cases {buf : Bytes} {data : List Bytes} {request : Request}
    (taken : dispatch buf data = .ok request) : Dispatched buf data request := by
  match data with
  | [] => cases taken
  | first :: rest =>
      simp only [dispatch, List.getElem?_cons_zero, orFault_some, ok_bind] at taken
      split at taken
      · rename_i login
        match rest with
        | [] => cases taken
        | [_] => cases taken
        | _ :: _ :: _ =>
            cases taken
            exact .login login
      · rename_i notLogin
        split at taken
        · rename_i deposit
          match rest with
          | [] => cases taken
          | _ :: _ =>
              cases taken
              exact .deposit notLogin deposit
        · rename_i notDeposit
          split at taken
          · rename_i withdraw
            match rest with
            | [] => cases taken
            | _ :: _ =>
                cases taken
                exact .withdraw notLogin notDeposit withdraw
          · rename_i notWithdraw
            split at taken
            · rename_i stop
              cases taken
              exact .stop notLogin notDeposit notWithdraw stop
            · rename_i notEnd
              cases taken
              exact .other notLogin notDeposit notWithdraw notEnd

theorem Dispatched.fields {buf : Bytes} {data : List Bytes} {request : Request}
    (dispatched : Dispatched buf data request) : request.fields ≤ data.length := by
  cases dispatched with
  | login => exact Nat.le_add_left 3 _
  | deposit => exact Nat.le_add_left 2 _
  | withdraw => exact Nat.le_add_left 2 _
  | stop => exact Nat.le_add_left 1 _
  | other => exact Nat.le_add_left 1 _

/-- Behind a buffer that yields a request lie at least the commas of its fields, and at
most three. -/
theorem requestOf_commas {buf : Bytes} (whole : buf.length = receiveBufSize) {request : Request}
    (taken : requestOf buf = .ok request) :
    request.fields ≤ buf.count comma ∧ buf.count comma ≤ 3 := by
  by_cases fits : buf.count comma ≤ 3
  · rw [requestOf_eq whole fits] at taken
    have fields := (dispatch_cases taken).fields
    rw [Delimited.segments_length] at fields
    exact ⟨fields, fits⟩
  · rw [requestOf_overflow whole (by omega)] at taken
    cases taken

theorem dispatch_login (buf name password : Bytes) (rest : List Bytes) :
    dispatch buf (ascii "login" :: name :: password :: rest) =
      .ok (.login (.ofBytes name) (.ofBytes password)) := rfl

theorem dispatch_deposit (buf amount : Bytes) (rest : List Bytes) :
    dispatch buf (ascii "deposit" :: amount :: rest) = .ok (.deposit (amountOf amount)) := rfl

theorem dispatch_withdraw (buf amount : Bytes) (rest : List Bytes) :
    dispatch buf (ascii "withdraw" :: amount :: rest) = .ok (.withdraw (amountOf amount)) := rfl

end SeccapBank
