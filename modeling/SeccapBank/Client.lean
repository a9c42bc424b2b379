import SeccapBank.Account
import SeccapBank.General.Buffer
import SeccapBank.General.Decimal
import SeccapBank.General.Fallible

set_option autoImplicit false

/- The client's main: the input loop, the request it formats into one buffer for all
operations, and what it makes of the replies. -/
namespace SeccapBank

open CStrings Buffers Fallible Decimals

/-- A word as `std::cin >> char*` reads it. -/
structure Word where
  bytes : Bytes
  nonempty : bytes ≠ []
  nulFree : (0 : UInt8) ∉ bytes
  blankFree : ∀ b ∈ bytes, isSpace b = false

/-- What the user enters in one pass of the loop: an opcode, and the arguments that the
client asks for behind it. -/
inductive MenuEntry where
  | authentication (name password : Word)
  | deposit (amount : UInt64)
  | withdrawal (amount : UInt64)
  | quit
  | other (opcode : Int) (unknown : opcode ∉ [1, 2, 3, 4])

def MenuEntry.opcode : MenuEntry → Int
  | .authentication .. => 1
  | .deposit _ => 2
  | .withdrawal _ => 3
  | .quit => 4
  | .other opcode _ => opcode

/-- The opcode is in the range of `int`. -/
def MenuEntry.Fits (entry : MenuEntry) : Prop := -2 ^ 31 ≤ entry.opcode ∧ entry.opcode < 2 ^ 31

instance (entry : MenuEntry) : Decidable entry.Fits := inferInstanceAs (Decidable (_ ∧ _))

/-- What `std::cin >> opcode` makes of an entry. From a stream that has failed nothing is
read any more, and `opcode` keeps the 0 that it was set to. -/
def MenuEntry.read (good : Bool) (entry : MenuEntry) : MenuEntry :=
  if good then entry else .other 0 (by decide)

def transferSize : Nat := 1024

/-- The outcome of `send`, and where it succeeds that of the `recv` behind it. A closed
connection and a failed `recv` bring no byte. -/
inductive Exchange where
  | sendFailed
  | received (bytes : Bytes) (bound : bytes.length ≤ transferSize)

structure Client where
  sendInfo : Bytes
  receiveData : Bytes
  login : Bool
  preAmount : UInt64
  -- every buffer handed to send(), in order
  sends : List Bytes
  console : List String

abbrev Session := Exec Client Fault

def display (line : String) : Session Unit :=
  modify fun c => { c with console := c.console ++ [line] }

/-- `std::cin >> account_name` with `char account_name[100]`. -/
def readWord (word : Word) : Session Bytes :=
  if word.bytes.length < 100 then return word.bytes else throw .outOfBounds

def printSendInfo (text : Bytes) : Session Unit := do
  let c ← get
  match sprintf c.sendInfo text with
  | some sendInfo => set { c with sendInfo := sendInfo }
  | none => throw .outOfBounds

def loginText (name password : Bytes) : Bytes :=
  ascii "login," ++ name ++ ascii "," ++ password ++ ascii ","

def depositText (amount : UInt64) : Bytes :=
  ascii "deposit," ++ printLong amount.toInt64.toInt ++ ascii ","

def withdrawText (amount : UInt64) : Bytes :=
  ascii "withdraw," ++ printLong amount.toInt64.toInt ++ ascii ","

/-- The branches on the opcode: `deposit_print`, or nothing where the loop is left. An
unknown opcode takes none of them. -/
def enter : MenuEntry → Session (Option Bool)
  | .authentication name password => do
      display "アカウント名及びパスワードを入力してください．\n"
      let accountName ← readWord name
      let password ← readWord password
      printSendInfo (loginText accountName password)
      modify fun c => { c with login := true }
      return some false
  | .deposit amount => do
      display "預ける金額を入力してください．\n"
      printSendInfo (depositText amount)
      return some true
  | .withdrawal amount => do
      display "引き出す金額を入力してください．\n"
      printSendInfo (withdrawText amount)
      return some true
  | .quit => do
      display "取引を終了します.\n"
      return none
  | .other _ _ => return some false

def displayAmount (amount : Int) : Session Unit :=
  display s!"<<現在の合計金額>> {amount} 円\n"

def loginAmount (receiveData : Bytes) : Session Unit :=
  if strncmp 5 receiveData (ascii "login") = 0 then
    displayAmount (atoi (receiveData.drop 5)).toInt
  else
    return ()

def tooBig : Session Unit := do
  display "引き出し金額が残高を超えています．もう一度試してください．\n"
  displayAmount (← get).preAmount.toInt64.toInt
  display "\n"

def loginFail : Session Unit := do
  display "パスワードが間違っています．もう一度ログインしてください．\n"
  modify fun c => { c with login := false }
  display "\n"

def depositAmount (receiveData : Bytes) : Session Unit := do
  displayAmount (atoi receiveData).toInt
  modify fun c => { c with preAmount := (atoi receiveData).toInt64.toUInt64 }
  display "\n"

/-- The comparisons with the receive buffer. A reply that begins with "login" is shown
as an amount also when it is a refusal. -/
def answer (depositPrint : Bool) : Session Unit := do
  let receiveData := (← get).receiveData
  loginAmount receiveData
  if strncmp 8 receiveData (ascii "too big.") = 0 then
    tooBig
  else if strncmp 11 receiveData (ascii "login fail.") = 0 ∧ depositPrint = false then
    loginFail
  else if depositPrint then
    depositAmount receiveData
  else
    return ()

/-- `send`, `recv` over the front of the receive buffer, and the answer. -/
def exchange (depositPrint : Bool) (outcome : Exchange) : Session Unit := do
  modify fun c => { c with sends := c.sends ++ [c.sendInfo] }
  match outcome with
  | .sendFailed => display "\n"
  | .received bytes _ =>
      modify fun c => { c with receiveData := blit c.receiveData bytes }
      answer depositPrint

def prompt : Session Unit := do
  display "操作番号を入力してください．\n"
  if (← get).login then
    display "[2] 預金 [3] 引き出し [4] 取引終了\n"
  else
    display "[1] 認証 [2] 預金 [3] 引き出し [4] 取引終了\n"

/-- The input loop, and whether the user left it. An opcode beyond `int` fails the
stream, and leaves a limit of `int` in `opcode` that takes none of the branches. -/
def inputLoop : Bool → List (MenuEntry × Exchange) → Session Bool
  | _, [] => return false
  | good, (entry, outcome) :: rest => do
      prompt
      match ← enter (entry.read good) with
      | none => return true
      | some depositPrint =>
          exchange depositPrint outcome
          inputLoop (good && entry.Fits) rest

def clientMain (steps : List (MenuEntry × Exchange)) : Session Bool := inputLoop true steps

end SeccapBank
