import RestaurantOrder.Schemes.Process
import RestaurantOrder.Wire.Codec

/-! What the client programs have in common: client_util.cpp, fd_guard.h, and the frame of their `main`.

    A program reads lines, writes to `cout` and `cerr`, and has one connection, which it opens, sends
    and receives on, and closes. Each of these is one action. The `FdGuard` of the connection is the
    scope of `leaving`, so the connection is closed before a handler of `main` reports an exception.

        open ──▶ prompts ──▶ send LOGIN ──▶ receive OK ──▶ the loop of the program ──▶ close -/

namespace Restaurant
open Schemes

/-- `what()`. -/
def Exception.what : Exception → Bytes
  | .invalidMessage what => what
  | .ioException what => what
  | .protocolError what => what
  | .semanticError what => what
  | .std what => what

namespace Program
open Process

/-- What a client program does with its surroundings. -/
inductive Act where
  | openClientfd (hostname port : Bytes)
  | getline
  | print (text : Bytes)
  | complain (text : Bytes)
  | send (text : Bytes)
  | receive
  | close
  deriving DecidableEq, Repr

/-- What an action returns: whether there is a descriptor, the line if there is one, and what a
    transfer ends with. -/
abbrev Act.Answer : Act → Type
  | .openClientfd .. => Bool
  | .getline => Option Bytes
  | .print _ => Unit
  | .complain _ => Unit
  | .send _ => Except Exception Unit
  | .receive => Except Exception Bytes
  | .close => Unit

abbrev Proc (α : Type) := Process Act Act.Answer Exception α

/-- A value is returned and an exception thrown. -/
def answered {α : Type} : Except Exception α → Cpp α
  | .ok a => .ok a
  | .error e => raise e

/-- `throw ProtocolError(what)`. -/
def protocolError {α : Type} (what : Bytes) : Cpp α := raise (.protocolError what)

def openClientfd (hostname port : Bytes) : Proc Bool := perform (Act.openClientfd hostname port)

/-- `std::getline` into an empty string, which stays empty if there is no line. -/
def getline : Proc Bytes := act .getline fun line => done (.ok (line.getD []))

def cout (text : Bytes) : Proc Unit := perform (Act.print text)

def cerr (text : Bytes) : Proc Unit := perform (Act.complain text)

/-- `IO::send`. -/
def send (s : Bytes) : Proc Unit := act (.send s) fun r => done (answered r)

/-- `IO::receive`. -/
def receive : Proc Bytes := act .receive fun r => done (answered r)

def close : Proc Unit := perform Act.close

/-- `std::getline` on what is left of the input: the next line, unless there is nothing left. -/
def nextLine (stdin : Bytes) : Option Bytes × Bytes :=
  if stdin.isEmpty then (none, [])
  else (some (stdin.takeWhile (· != 10)), (stdin.dropWhile (· != 10)).drop 1)

def unexpectedType {α : Type} : Cpp α := protocolError (ascii "Unexpected response type")

end Program

namespace ClientUtil
open Process Program

def connectToServer (hostname port : Bytes) : Proc Unit := do
  let fd ← openClientfd hostname port
  if !fd then raise (Exception.ioException (ascii "could not connect to server"))

def promptForCredentials : Proc Bytes := do
  cout (ascii "username: ")
  let username ← getline
  cout (ascii "password: ")
  let password ← getline
  return username ++ ascii "/" ++ password

def sendMessage (msg : Message) : Proc Unit := do
  let encoded ← runOn [] (Wire.encode msg)
  send encoded

def receiveMessage : Proc Message := do
  let encoded ← receive
  runOn {} (Wire.decode encoded)

/-- `parse_positive_int` of client_util.cpp. -/
def parsePositiveInt (s fieldName : Bytes) : Cpp Int32 :=
  match stoi s with
  | .error (.throws _) => protocolError (ascii "invalid integer for " ++ fieldName)
  | .error .undefined => .error .undefined
  | .ok (value, pos) =>
    if pos ≠ s.length ∨ value ≤ 0 then protocolError (ascii "invalid integer for " ++ fieldName)
    else .ok value

/-- It accepts the same texts as the one of wire.cpp. -/
theorem parsePositiveInt_iff {s f : Bytes} {n : Int32} :
    parsePositiveInt s f = .ok n ↔ 0 < n ∧ Spelled n s := by
  rw [← Restaurant.parsePositiveInt_iff (f := f), parsePositiveInt, Restaurant.parsePositiveInt]
  rcases stoi s with (e | _) | ⟨value, pos⟩
  · simp [protocolError, raise]
  · exact Iff.rfl
  · simp only
    split
    · simp [protocolError, raise]
    · exact Iff.rfl

/-- Any other text is reported with the name of its field. -/
theorem parsePositiveInt_cases (s f : Bytes) :
    (∃ n, parsePositiveInt s f = .ok n ∧ 0 < n ∧ Spelled n s) ∨
      parsePositiveInt s f = protocolError (ascii "invalid integer for " ++ f) := by
  cases h : parsePositiveInt s f with
  | ok n => exact Or.inl ⟨n, rfl, parsePositiveInt_iff.mp h⟩
  | error e =>
    rw [parsePositiveInt] at h
    split at h
    · exact Or.inr h.symm
    · next hu => exact absurd hu (stoi_defined s)
    · split at h
      · exact Or.inr h.symm
      · cases h

end ClientUtil

namespace Program
open Process ClientUtil

/-- `send_request_receive_response`, which both programs define. -/
def sendRequestReceiveResponse (request : Message) : Proc Message := do
  sendMessage request
  receiveMessage

/-- What `main` does while its connection is open: log in with a mode, and run the rest of the
    program. -/
def loggedIn (mode : ClientMode) (rest : Proc Unit) : Proc Int32 := do
  let credentials ← promptForCredentials
  let loginResponse ← sendRequestReceiveResponse (.ofLogin .login mode credentials)
  if loginResponse.type = .error then
    cerr (ascii "Error: " ++ loginResponse.str ++ ascii "\n")
    return 1
  if loginResponse.type ≠ .ok then unexpectedType
  rest
  return 0

/-- The `try` block of `main`. -/
def connected (mode : ClientMode) (hostname port : Bytes) (rest : Proc Unit) : Proc Int32 := do
  connectToServer hostname port
  leaving close (loggedIn mode rest)

/-- The handlers of `main`. -/
def reportError (e : Exception) : Proc Int32 := do
  cerr (ascii "Error: " ++ e.what ++ ascii "\n")
  return 1

/-- `main`, but for what follows the login. -/
def clientMain (mode : ClientMode) (argv : List Bytes) (rest : Proc Unit) : Proc Int32 :=
  match argv with
  | [_, hostname, port] => handle reportError (connected mode hostname port rest)
  | program :: _ => do
    cerr (ascii "Usage: " ++ program ++ ascii " <hostname> <port>\n")
    return 1
  | [] => done (.error .undefined)

end Program

end Restaurant
