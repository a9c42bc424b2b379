import SeccapBank.General.Buffer
import SeccapBank.General.Decimal
import SeccapBank.General.Run

set_option autoImplicit false

/- The start of the server's process: the path of the launch token, the token that is read
there, handed to the SGX library and written back, and the port of both programs. -/
namespace SeccapBank

open CStrings Buffers Decimals Runs

/-- `FILENAME_MAX`. -/
def maxPath : Nat := 4096

def tokenFilename : Bytes := ascii "enclave.token"

/-- The size of the array, with its NUL. -/
def sizeofTokenFilename : Nat := tokenFilename.length + 1

/-- The path in `token_path`. The home directory is NULL where there is none. -/
def tokenPath (homeDir : Option CString) : Option Bytes :=
  match homeDir.filter fun home =>
      home.bytes.length + (ascii "/").length + sizeofTokenFilename + 1 ≤ maxPath with
  | some home => do
      let path ← strncpy (calloc maxPath) home.bytes home.bytes.length
      let path ← strncat path (ascii "/") (ascii "/").length
      strncat path tokenFilename (sizeofTokenFilename + 1)
  | none => strncpy (calloc maxPath) tokenFilename sizeofTokenFilename

/-- `sizeof(sgx_launch_token_t)`. -/
def tokenSize : Nat := 1024

/-- The results of the SGX library that have a message of their own, and the others. -/
inductive SgxStatus where
  | success
  | unexpected
  | invalidParameter
  | outOfMemory
  | enclaveLost
  | invalidEnclave
  | invalidEnclaveId
  | invalidSignature
  | outOfEpc
  | noDevice
  | memoryMapConflict
  | invalidMetadata
  | deviceBusy
  | invalidVersion
  | invalidAttribute
  | enclaveFileAccess
  | other (code : UInt32)
  deriving DecidableEq

structure SgxErrlist where
  err : SgxStatus
  msg : String
  sug : Option String

def sgxErrlist : List SgxErrlist :=
  [⟨.unexpected, "Unexpected error occurred.", none⟩,
    ⟨.invalidParameter, "Invalid parameter.", none⟩,
    ⟨.outOfMemory, "Out of memory.", none⟩,
    ⟨.enclaveLost, "Power transition occurred.",
      some "Please refer to the sample \"PowerTransition\" for details."⟩,
    ⟨.invalidEnclave, "Invalid enclave image.", none⟩,
    ⟨.invalidEnclaveId, "Invalid enclave identification.", none⟩,
    ⟨.invalidSignature, "Invalid enclave signature.", none⟩,
    ⟨.outOfEpc, "Out of EPC memory.", none⟩,
    ⟨.noDevice, "Invalid SGX device.",
      some ("Please make sure SGX module is enabled in the BIOS, and install SGX " ++
        "driver afterwards.")⟩,
    ⟨.memoryMapConflict, "Memory map conflicted.", none⟩,
    ⟨.invalidMetadata, "Invalid enclave metadata.", none⟩,
    ⟨.deviceBusy, "SGX device was busy.", none⟩,
    ⟨.invalidVersion, "Enclave version was invalid.", none⟩,
    ⟨.invalidAttribute, "Enclave was not authorized.", none⟩,
    ⟨.enclaveFileAccess, "Can't open enclave file.", none⟩]

/-- The digits that `%X` prints. -/
def printHex (code : Nat) : String := String.ofList ((Nat.toDigits 16 code).map Char.toUpper)

/-- Only printed of a result that is not in the list. -/
def SgxStatus.code : SgxStatus → Nat
  | .other code => code.toNat
  | _ => 0

/-- The first message for the result, with its suggestion before it. -/
def printErrorMessage (ret : SgxStatus) : List Bytes :=
  match sgxErrlist.find? fun entry => ret = entry.err with
  | some entry => (entry.sug.map fun sug => ascii ("Info: " ++ sug ++ "\n")).toList ++
      [ascii ("Error: " ++ entry.msg ++ "\n")]
  | none => [ascii ("Error code is 0x" ++ printHex ret.code ++
      ". Please refer to the \"Intel SGX SDK Developer Reference\" for more details.\n")]

/-- What `sgx_create_enclave` leaves: its result, the token, and whether that is new. -/
structure Created where
  status : SgxStatus
  token : Bytes
  sized : token.length = tokenSize
  updated : Bool

/-- What one launch meets: which opens succeed, how many bytes a read or a write gets on to
at most, and the SGX library. -/
structure Launch where
  opensRead : Bool
  opensWrite : Bool
  readLimit : Nat
  sgxCreateEnclave : Bytes → Created
  reopens : Bool
  writeLimit : Nat

/-- The stream with what there is to read in it, and the file behind the opening. A file that
cannot be read is opened for writing, and is empty then. -/
def Launch.openToken (launch : Launch) (file : Option Bytes) : Option Bytes × Option Bytes :=
  match file.filter fun _ => launch.opensRead with
  | some content => (some content, file)
  | none => if launch.opensWrite then (some [], some []) else (none, file)

/-- The token as it is read, cleared where it is not whole. -/
def Launch.readToken (launch : Launch) (path : Bytes) : Option Bytes → Bytes × List Bytes
  | none => (calloc tokenSize,
      [ascii "Warning: Failed to create/open the launch token file \"" ++ path ++ ascii "\".\n"])
  | some content =>
      let read := content.take (min tokenSize launch.readLimit)
      if read.length ≠ 0 ∧ read.length ≠ tokenSize then
        (calloc tokenSize,
          [ascii "Warning: Invalid launch token read from \"" ++ path ++ ascii "\".\n"])
      else
        (blit (calloc tokenSize) read, [])

/-- The file behind the saving of a token, which is not saved unless it is new and there is a
stream that can be reopened. -/
def Launch.saveToken (launch : Launch) (path : Bytes) (opened : Option Bytes × Option Bytes)
    (created : Created) : Option Bytes × List Bytes :=
  if created.updated = false ∨ opened.1 = none then
    (opened.2, [])
  else if launch.reopens = false then
    (opened.2, [])
  else
    let written := created.token.take launch.writeLimit
    (some written, if written.length ≠ tokenSize then
      [ascii "Warning: Failed to save launch token to \"" ++ path ++ ascii "\".\n"] else [])

/-- What a launch returns, the token file behind it, the token that it handed to the SGX
library, and what it printed. -/
structure Launched where
  result : Int
  tokenFile : Option Bytes
  token : Bytes
  printed : List Bytes

/-- `initialize_enclave`, on the token file. -/
def initializeEnclave (launch : Launch) (path : Bytes) (file : Option Bytes) : Launched :=
  let opened := launch.openToken file
  let read := launch.readToken path opened.1
  let created := launch.sgxCreateEnclave read.1
  if created.status ≠ .success then
    ⟨-1, opened.2, read.1, read.2 ++ printErrorMessage created.status⟩
  else
    let saved := launch.saveToken path opened created
    ⟨0, saved.1, read.1, read.2 ++ saved.2⟩

section Path

/-- The text of the path: in the home directory, where that leaves room for it. -/
def tokenPathText (homeDir : Option CString) : Bytes :=
  match homeDir.filter fun home =>
      home.bytes.length + (ascii "/").length + sizeofTokenFilename + 1 ≤ maxPath with
  | some home => home.bytes ++ ascii "/" ++ tokenFilename
  | none => tokenFilename

/-- The path never leaves its array, and is never cut. -/
theorem tokenPath_text (homeDir : Option CString) :
    ∃ path, tokenPath homeDir = some path ∧ path.length = maxPath ∧
      cstr path = tokenPathText homeDir := by
  have name : (0 : UInt8) ∉ tokenFilename ∧ tokenFilename.length = 13 := by decide
  have slash : (0 : UInt8) ∉ ascii "/" ∧ (ascii "/").length = 1 := by decide
  have sized : sizeofTokenFilename = 14 := rfl
  unfold tokenPath tokenPathText
  cases chosen : homeDir.filter fun home =>
      home.bytes.length + (ascii "/").length + sizeofTokenFilename + 1 ≤ maxPath with
  | none =>
      have copied := strncpy_front name.1 (n := 14) (by omega) 4082
      refine ⟨_, copied, ?_, ?_⟩
      · rw [List.length_append, calloc_length, name.2]
        rfl
      · rw [name.2]
        exact cstr_calloc name.1 _
  | some home =>
      have fits := of_decide_eq_true (Option.filter_eq_some_iff.mp chosen).2
      rw [slash.2, sized, maxPath] at fits
      have homeFree := home.nulFree
      obtain ⟨room, whole⟩ : ∃ room, maxPath = home.bytes.length + (1 + 1 + (13 + room)) :=
        ⟨4096 - 15 - home.bytes.length, by rw [maxPath]; omega⟩
      have first := strncpy_front homeFree (Nat.le_refl _) (1 + 1 + (13 + room))
      have second := strncat_front homeFree slash.1 (Nat.le_refl _) (13 + room)
      have folderFree : (0 : UInt8) ∉ home.bytes ++ ascii "/" := by
        rw [List.mem_append, not_or]
        exact ⟨homeFree, slash.1⟩
      have third := strncat_front folderFree name.1 (n := 15) (by omega) room
      rw [slash.2] at second
      rw [name.2, show 13 + 1 + room = 1 + (13 + room) by omega] at third
      rw [Nat.sub_self, Nat.zero_add, ← whole] at first
      have composed : (do
          let path ← strncpy (calloc maxPath) home.bytes home.bytes.length
          let path ← strncat path (ascii "/") (ascii "/").length
          strncat path tokenFilename (sizeofTokenFilename + 1)) =
            some (home.bytes ++ ascii "/" ++ tokenFilename ++ calloc (1 + room)) := by
        rw [first, Option.bind_eq_bind, Option.bind_some, slash.2, second, Option.bind_some]
        exact third
      refine ⟨_, composed, ?_, ?_⟩
      · rw [List.length_append, List.length_append, List.length_append, calloc_length, slash.2,
          name.2]
        omega
      · apply cstr_calloc
        rw [List.mem_append, not_or]
        exact ⟨folderFree, name.1⟩

end Path

section Launches

variable {path : Bytes} {launch : Launch} {file file' : Option Bytes}

/-- One launch after the other, on one token file. -/
def LaunchStep (path : Bytes) (file : Option Bytes) (launch : Launch) (file' : Option Bytes) :
    Prop :=
  (initializeEnclave launch path file).tokenFile = file'

abbrev LaunchMove := Transition (Option Bytes) Launch

/-- The token that the launch handed to the SGX library. -/
def handedToken (path : Bytes) (move : LaunchMove) : Bytes :=
  (initializeEnclave move.label path move.pre).token

/-- The SGX library made this token in the launch. -/
def MadeToken (path : Bytes) (move : LaunchMove) (token : Bytes) : Prop :=
  let created := move.label.sgxCreateEnclave (handedToken path move)
  created.status = .success ∧ created.updated = true ∧ created.token = token

theorem handedToken_read (move : LaunchMove) :
    handedToken path move = (move.label.readToken path (move.label.openToken move.pre).1).1 := by
  unfold handedToken initializeEnclave
  dsimp only
  split <;> rfl

theorem readToken_cases (launch : Launch) (path content : Bytes) :
    (launch.readToken path (some content)).1 = calloc tokenSize ∨
      tokenSize ≤ content.length ∧
        (launch.readToken path (some content)).1 = content.take tokenSize := by
  unfold Launch.readToken
  dsimp only
  split
  · exact .inl rfl
  · rename_i whole
    rw [not_and_or, not_not, not_not] at whole
    rcases whole with nothing | all
    · rw [List.length_eq_zero_iff.mp nothing]
      exact .inl rfl
    · have size := all
      rw [List.length_take] at size
      have limit : min tokenSize launch.readLimit = tokenSize := by omega
      rw [limit] at all ⊢
      refine .inr ⟨by omega, blit_length_of_le ?_⟩
      rw [calloc_length, all]

theorem openToken_cases (launch : Launch) (file : Option Bytes) :
    ((launch.openToken file).2 = file ∧
        ((launch.openToken file).1 = none ∨ (launch.openToken file).1 = file)) ∨
      launch.openToken file = (some [], some []) := by
  unfold Launch.openToken
  split
  · rename_i content readable
    exact .inl ⟨rfl, .inr (Option.filter_eq_some_iff.mp readable).1.symm⟩
  · split
    · exact .inr rfl
    · exact .inl ⟨rfl, .inl rfl⟩

/-- A launch hands on nothing, or a whole token that is in the file. -/
theorem handedToken_cases (move : LaunchMove) :
    handedToken path move = calloc tokenSize ∨
      ∃ content ∈ move.pre, tokenSize ≤ content.length ∧
        handedToken path move = content.take tokenSize := by
  rw [handedToken_read]
  rcases openToken_cases move.label move.pre with ⟨_, none | same⟩ | emptied
  · rw [none]
    exact .inl rfl
  · rw [same]
    cases file : move.pre with
    | none => exact .inl rfl
    | some content =>
        exact (readToken_cases move.label path content).imp_right
          fun ⟨long, read⟩ => ⟨content, rfl, long, read⟩
  · rw [emptied]
    rcases readToken_cases move.label path [] with nothing | ⟨long, _⟩
    · exact .inl nothing
    · exact absurd long (by decide)

/-- Behind a launch the file is what it was, or holds no whole token, or the one that the SGX
library has made. -/
theorem launch_file (move : LaunchMove) (step : LaunchStep path move.pre move.label move.post) :
    move.post = move.pre ∨ ∃ content, move.post = some content ∧
      (tokenSize ≤ content.length → MadeToken path move content) := by
  have kept (same : move.post = (move.label.openToken move.pre).2) :
      move.post = move.pre ∨ ∃ content, move.post = some content ∧
        (tokenSize ≤ content.length → MadeToken path move content) := by
    rcases openToken_cases move.label move.pre with ⟨old, _⟩ | emptied
    · exact .inl (same.trans old)
    · rw [emptied] at same
      exact .inr ⟨[], same, fun long => absurd long (by decide)⟩
  rw [LaunchStep, initializeEnclave, ← handedToken_read] at step
  dsimp only at step
  generalize made : move.label.sgxCreateEnclave (handedToken path move) = created at step
  split at step
  · exact kept step.symm
  · rename_i success
    unfold Launch.saveToken at step
    dsimp only at step
    split at step
    · exact kept step.symm
    · rename_i written
      split at step
      · exact kept step.symm
      · refine .inr ⟨_, step.symm, fun long => ?_⟩
        rw [not_or, Bool.not_eq_false] at written
        have size := created.sized
        rw [List.length_take] at long
        rw [MadeToken, made, List.take_of_length_le (by omega)]
        exact ⟨not_not.mp success, written.1, rfl⟩

/-- Every whole token in the file was made in the run. -/
theorem tokens_made {history : List LaunchMove}
    (without : ∀ content ∈ file, content.length < tokenSize)
    (run : Run (LaunchStep path) file history file') :
    ∀ content ∈ file', tokenSize ≤ content.length →
      ∃ maker ∈ history, MadeToken path maker content := by
  induction run with
  | nil =>
      intro content present long
      exact absurd long (Nat.not_le.mpr (without content present))
  | @snoc history before after launch _ last ih =>
      intro content present long
      rcases launch_file ⟨before, launch, after⟩ last with same | ⟨other, now, made⟩
      · obtain rfl : after = before := same
        obtain ⟨maker, member, made⟩ := ih content present long
        exact ⟨maker, List.mem_append_left _ member, made⟩
      · cases present.symm.trans now
        exact ⟨_, List.mem_append_right _ (List.mem_singleton_self _), made long⟩

/-- A torn token is never used: from no token file, or one without a whole token, every
launch hands to the SGX library nothing but zeros, or a token that the library itself made in
an earlier launch, to its last byte. -/
theorem launches_hand_whole {history : List LaunchMove}
    (without : ∀ content ∈ file, content.length < tokenSize)
    (run : Run (LaunchStep path) file history file') {earlier later : List LaunchMove}
    {move : LaunchMove} (whole : history = earlier ++ move :: later) :
    handedToken path move = calloc tokenSize ∨
      ∃ maker ∈ earlier, MadeToken path maker (handedToken path move) := by
  subst whole
  obtain ⟨_, before, _⟩ := run.cut
  rcases handedToken_cases move with zeros | ⟨content, present, long, handed⟩
  · exact .inl zeros
  · obtain ⟨maker, member, made⟩ := tokens_made without before content present long
    have size : content.length = tokenSize := by
      rw [← made.2.2]
      exact Created.sized _
    rw [handed, List.take_of_length_le (Nat.le_of_eq size)]
    exact .inr ⟨maker, member, made⟩

theorem token_returns {saver next : LaunchMove} {token : Bytes}
    (step : LaunchStep path saver.pre saver.label saver.post) (made : MadeToken path saver token)
    (opened : (saver.label.openToken saver.pre).1 ≠ none) (reopens : saver.label.reopens = true)
    (written : tokenSize ≤ saver.label.writeLimit) (behind : next.pre = saver.post)
    (opens : next.label.opensRead = true) (reads : tokenSize ≤ next.label.readLimit) :
    handedToken path next = token := by
  obtain ⟨success, updated, rfl⟩ := made
  have size := (saver.label.sgxCreateEnclave (handedToken path saver)).sized
  have saved : saver.post =
      some (saver.label.sgxCreateEnclave (handedToken path saver)).token := by
    rw [← step, initializeEnclave, ← handedToken_read]
    simp only [success, ne_eq, not_true_eq_false, ↓reduceIte, Launch.saveToken, updated,
      Bool.true_eq_false, opened, or_self, reopens]
    rw [List.take_of_length_le (by omega)]
  have readable : next.label.openToken next.pre = (saver.post, saver.post) := by
    rw [behind, saved, Launch.openToken, opens]
    rfl
  rw [handedToken_read, readable, saved, Launch.readToken]
  rw [Nat.min_eq_left reads, List.take_of_length_le (Nat.le_of_eq size), if_neg (by omega)]
  exact blit_length_of_le (by rw [calloc_length, size])

/-- A launch whose system refuses nothing, with a library that makes one token. -/
def easyLaunch : Launch where
  opensRead := true
  opensWrite := true
  readLimit := 4096
  sgxCreateEnclave _ := ⟨.success, List.replicate tokenSize 7, List.length_replicate, true⟩
  reopens := true
  writeLimit := 4096

theorem launches_hand_whole_again : ∃ maker move : LaunchMove,
    Run (LaunchStep tokenFilename) none [maker, move] move.post ∧
      handedToken tokenFilename move = List.replicate tokenSize 7 ∧
        (handedToken tokenFilename move = calloc tokenSize ∨ ∃ first ∈ [maker],
          MadeToken tokenFilename first (handedToken tokenFilename move)) := by
  let first : LaunchMove := ⟨none, easyLaunch,
    (initializeEnclave easyLaunch tokenFilename none).tokenFile⟩
  let second : LaunchMove := ⟨first.post, easyLaunch,
    (initializeEnclave easyLaunch tokenFilename first.post).tokenFile⟩
  have opening : LaunchStep tokenFilename none easyLaunch first.post := rfl
  have again : LaunchStep tokenFilename first.post easyLaunch second.post := rfl
  have made : MadeToken tokenFilename first (List.replicate tokenSize 7) := ⟨rfl, rfl, rfl⟩
  have run : Run (LaunchStep tokenFilename) none ([first] ++ [second]) second.post :=
    (Run.nil.snoc opening).snoc again
  have without : ∀ content ∈ (none : Option Bytes), content.length < tokenSize :=
    fun _ absent => by cases absent
  refine ⟨first, second, run, ?_, launches_hand_whole without run rfl⟩
  exact token_returns opening made (Option.some_ne_none _) rfl (by decide) rfl rfl (by decide)

end Launches

section Addresses

/-- The port that the server listens on, and that the client connects to. -/
def port (argument : CString) : UInt16 := UInt16.ofInt (1230 + (atoi argument.bytes).toInt)

/-- What the client connects to. Its address is printed into nine bytes of the stack. -/
def connectTo (stack : Fin 9 → UInt8) (argument : CString) : Option (Bytes × UInt16) :=
  (sprintf (List.ofFn stack) (ascii "127.0." ++ argument.bytes ++ ascii ".1")).map fun address =>
    (address, port argument)

/-- The client stays in its array for no argument but the empty one, which makes no address. -/
theorem connectTo_some (stack : Fin 9 → UInt8) (argument : CString) (peer : Bytes × UInt16) :
    connectTo stack argument = some peer ↔
      argument.bytes = [] ∧ peer = (ascii "127.0..1" ++ [0], 1230) := by
  have parts : (ascii "127.0.").length = 6 ∧ (ascii ".1").length = 2 := by decide
  rw [connectTo, sprintf]
  simp only [List.length_append, List.length_ofFn, parts]
  by_cases empty : argument.bytes = []
  · have printed : blit (List.ofFn stack) (ascii "127.0." ++ argument.bytes ++ ascii ".1" ++ [0]) =
        ascii "127.0..1" ++ [0] := by
      rw [empty]
      exact blit_length_of_le (by rw [List.length_ofFn]; decide)
    have number : port argument = 1230 := by
      rw [port, empty]
      decide
    rw [if_pos (by rw [empty]; decide), Option.map_some, printed, number]
    simp [empty, eq_comm]
  · have long := List.length_pos_iff.mpr empty
    rw [if_neg (by omega)]
    simp [empty]

end Addresses

end SeccapBank
