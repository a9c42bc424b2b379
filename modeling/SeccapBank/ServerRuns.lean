import SeccapBank.Durability
import SeccapBank.Server

set_option autoImplicit false

/- The server as a whole: whatever it receives, it makes a run of ecalls under names and
passwords without separators, so that its accounts survive a restart. -/
namespace SeccapBank

open CStrings Buffers Fallible Runs

variable {sgx : Sgx} {stack : Stack} {s s' : Server} {received : List Received} {stopped : Bool}

def Request.Separated : Request → Prop
  | .login name password => comma ∉ name.bytes ∧ comma ∉ password.bytes
  | _ => True

theorem ofBytes_comma {field : Bytes} (clean : comma ∉ field) :
    comma ∉ (CString.ofBytes field).bytes :=
  fun member => clean ((List.takeWhile_sublist _).subset member)

theorem requestOf_separated {buf : Bytes} (whole : buf.length = receiveBufSize) {request : Request}
    (taken : requestOf buf = .ok request) : request.Separated := by
  rw [requestOf_eq whole (requestOf_commas whole taken).2] at taken
  have clean := Delimited.segments_free (d := comma) buf
  generalize Delimited.segments comma buf = data at taken clean
  cases dispatch_cases taken with
  | login keyword =>
      exact ⟨ofBytes_comma (clean _ (by simp)), ofBytes_comma (clean _ (by simp))⟩
  | deposit notLogin keyword => trivial
  | withdraw notLogin notDeposit keyword => trivial
  | stop notLogin notDeposit notWithdraw keyword => trivial
  | other notLogin notDeposit notWithdraw notEnd => trivial

/-- The entries of the two arrays are the segments of the buffer that its commas end: as
many as it has commas, each without one, with their lengths, and with a comma behind each
they are the buffer up to its last comma. -/
structure Splits (buf : Bytes) (s : Split) : Prop where
  filled : s.data.length = buf.count comma
  free : ∀ field ∈ s.data, comma ∉ field
  sizes : s.dataSize = s.data.map List.length
  joined : ∃ rest, comma ∉ rest ∧ s.data.flatMap (· ++ [comma]) ++ rest = buf

theorem scanned_splits (buf : Bytes) : Splits buf (.scanned buf) where
  filled := Delimited.segments_length buf
  free := Delimited.segments_free buf
  sizes := rfl
  joined := ⟨_, Delimited.residue_free buf, Delimited.fields_residue buf⟩

/-- The tokenizer is a split, so no name or password that is handed to the enclave has a
comma. -/
theorem received_splits {buf : Bytes} (whole : buf.length = receiveBufSize)
    (few : buf.count comma ≤ 3) :
    (∃ s, splitReceived buf = .ok s ∧ Splits buf s) ∧
      ∀ name password, requestOf buf = .ok (.login name password) →
        comma ∉ name.bytes ∧ comma ∉ password.bytes := by
  constructor
  · refine ⟨.scanned buf, ?_, scanned_splits buf⟩
    rw [splitReceived_eq whole, if_pos few]
  · intro name password taken
    exact requestOf_separated whole taken

/-- A buffer with an empty field, adjacent commas and a comma in its last byte. -/
def crowdedBuf : Bytes := ascii "login,," ++ calloc 1016 ++ [comma]

theorem received_splits_crowded :
    (∃ s, splitReceived crowdedBuf = .ok s ∧ Splits crowdedBuf s) ∧
      ∀ name password, requestOf crowdedBuf = .ok (.login name password) →
        comma ∉ name.bytes ∧ comma ∉ password.bytes :=
  received_splits (by decide +kernel) (by decide +kernel)

theorem Request.Makes.separated {request : Request} {calls : List Ecall}
    (makes : request.Makes calls) (separated : request.Separated) :
    ∀ call ∈ calls, call.CommaFree := by
  cases request with
  | login name password =>
      rcases makes with rfl | rfl
      · intro call member
        rw [List.mem_singleton.mp member]
        exact separated
      · intro call member
        rcases List.mem_pair.mp member with rfl | rfl
        · exact separated
        · trivial
  | deposit amount =>
      obtain rfl : calls = _ := makes
      intro call member
      rw [List.mem_singleton.mp member]
      trivial
  | withdraw amount =>
      obtain rfl : calls = _ := makes
      intro call member
      rw [List.mem_singleton.mp member]
      trivial
  | stop =>
      obtain rfl : calls = _ := makes
      exact nofun
  | other =>
      obtain rfl : calls = _ := makes
      exact nofun

theorem receive_served {result : Received}
    (returned : (receive sgx stack result).run s = .ok (stopped, s')) :
    ∃ calls replies, Served sgx s calls replies s' ∧ ∀ call ∈ calls, call.CommaFree := by
  cases result with
  | closed =>
      cases returned
      exact ⟨[], 0, .refl sgx s, nofun⟩
  | failed =>
      cases returned
      exact ⟨[], 0, .refl sgx s, nofun⟩
  | data chunk =>
      obtain ⟨request, found, performed⟩ := receive_data.mp returned
      obtain ⟨_, calls, makes, served⟩ := perform_served performed
      have separated := requestOf_separated chunk.buf_length found
      exact ⟨calls, _, served, makes.separated separated⟩

theorem serve_served (returned : (serve sgx stack received).run s = .ok (stopped, s')) :
    ∃ calls replies, Served sgx s calls replies s' ∧ ∀ call ∈ calls, call.CommaFree := by
  induction received generalizing s with
  | nil =>
      cases returned
      exact ⟨[], 0, .refl sgx _, nofun⟩
  | cons first rest ih =>
      obtain ⟨stop, s1, head, tail⟩ := run_bind_ok.mp returned
      obtain ⟨calls, replies, served, separated⟩ := receive_served head
      cases stop with
      | true =>
          cases tail
          exact ⟨calls, replies, served, separated⟩
      | false =>
          obtain ⟨calls', replies', served', separated'⟩ := ih tail
          refine ⟨_, _, served.trans served', fun call member => ?_⟩
          rcases List.mem_append.mp member with earlier | later
          · exact separated call earlier
          · exact separated' call later

/-- A server process that is started on this account file. -/
def Server.boot (content : Bytes) : Server := ⟨.boot content, [], [], []⟩

/-- From its start on an empty file, the server makes one run of separated ecalls behind
the initialisation. While its stores fit, a restart brings back its accounts. -/
theorem serverMain_durable (doc : sgx.Documented) (reliable : sgx.Reliable)
    (returned : (serverMain sgx stack received).run (.boot []) = .ok (stopped, s')) :
    ∃ start history, EcallStep sgx (.boot []) (.initManager, .result .processSuccess) start ∧
      EcallRun sgx start history s'.bank ∧
        s'.calls = .initManager :: history.map (·.label.1) ∧
          ((∀ move ∈ history, StoresWithin sgx 65535 move) → Restarts sgx s'.bank) := by
  obtain ⟨result, s1, opened, rest⟩ := run_bind_ok.mp returned
  obtain ⟨start, ran, rfl⟩ := callEnclave_ok.mp opened
  obtain ⟨rfl, _⟩ := initManager_cases sgx ran
  have opening : EcallStep sgx (.boot []) (.initManager, .result .processSuccess) start :=
    run_map_ok.mpr ⟨_, ran, rfl⟩
  obtain ⟨calls, _, served, separated⟩ := serve_served rest
  obtain ⟨history, run, made⟩ := served.ecalls
  refine ⟨start, history, opening, run, ?_, fun fits => ?_⟩
  · rw [made]
    exact served.logged
  · have synced := (synced_opening sgx rfl opening).1
    have commaFree := made_all Ecall.CommaFree made separated
    exact synced_restarts sgx doc (synced_run sgx doc reliable synced commaFree fits run).1

end SeccapBank
