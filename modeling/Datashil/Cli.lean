import Datashil.Client
import Datashil.Server

/-! The prompt of the client: what is printed for the lines that a user types, over any client and
over one that is connected to the server. -/

namespace Datashil
open Library

/-- What a turn of the loop in `UseCLI` finds: `failed` is a line that cannot be read, as at the end
of the input, `interrupted` the same where `client_running` has been unset, `stopped` that it is
unset before the turn. -/
inductive Input
  | line (text : List Byte)
  | failed
  | interrupted
  | stopped
  deriving DecidableEq, Repr

/-- How `SendCommandAndFetchReply` ends, if it does. -/
inductive Fetched
  | waiting
  | exception (what : List Byte)
  | response (statusCode : Nat) (payload : List Byte)
  deriving DecidableEq, Repr

/-- A response that is rejected comes back as a failed one. -/
def Client.Reply.fetched : Client.Reply → Fetched
  | .rejected => .response 4 []
  | .response header payload => .response header.statusCode payload

namespace CLI

def PROMPT : List Byte := ascii "datashil> "

def to_string (n : Nat) : List Byte := ascii (toString n)

/-- The last part is a string of `payload.size() - sizeof(Key)` characters, which throws an
exception if the difference wraps around. -/
def parseResponsePayload (payload : List Byte) : Option (List (List Byte)) :=
  let consumed := if SIZEOF_KEY ≤ payload.length then SIZEOF_KEY else 0
  let parsedPayload := if SIZEOF_KEY ≤ payload.length then
    [to_string (LittleEndian.decode (payload.take SIZEOF_KEY))] else []
  if consumed ≤ payload.length then
    if payload.length < SIZEOF_KEY then none
    else some (parsedPayload ++ [payload.drop SIZEOF_KEY])
  else some parsedPayload

def printStatus (statusCode : Nat) : List Byte := ascii "Status Code: " ++ to_string statusCode ++ ascii "\n"

def printParts : (i : Nat) → List (List Byte) → List Byte
  | _, [] => []
  | i, part :: parts => to_string i ++ ascii ": " ++ part ++ ascii "\n" ++ printParts (i + 1) parts

def printPayload (parsedPayload : List (List Byte)) : List Byte :=
  ascii "======= RESPONSE ========\n" ++ printParts 1 parsedPayload ++ ascii "=========================\n\n"

/-- What is printed for a response, and whether the prompt comes back. `lengthError` is what the
exception of a string says that would be too long. -/
def printResponse (lengthError : List Byte) (statusCode : Nat) (payload : List Byte) : List Byte × Bool :=
  if statusCode = 1 then
    match parseResponsePayload payload with
    | none => (printStatus statusCode ++ ascii "[CLI] Error: " ++ lengthError, false)
    | some parsedPayload => (printStatus statusCode ++ printPayload parsedPayload, true)
  else (printStatus statusCode ++ ascii "Query failed!\n", true)

def useCLI {m : Type → Type} [Monad m] (lengthError : List Byte)
    (sendCommandAndFetchReply : Query → m Fetched) : List Input → m (List Byte)
  | [] => return PROMPT
  | .stopped :: _ => return []
  | .interrupted :: _ => return PROMPT ++ ascii "[Client] Connection interrupted, closing client.\n"
  | .failed :: inputs => do
    let printed ← useCLI lengthError sendCommandAndFetchReply inputs
    return PROMPT ++ printed
  | .line text :: inputs => do
    let query := Parser.make.parseQuery text
    if !query.valid then
      let printed ← useCLI lengthError sendCommandAndFetchReply inputs
      return PROMPT ++ ascii "Invalid Query\n" ++ printed
    else
      match ← sendCommandAndFetchReply query with
      | .waiting => return PROMPT
      | .exception what => return PROMPT ++ ascii "[CLI] Error: " ++ what
      | .response statusCode payload =>
        let response := printResponse lengthError statusCode payload
        if response.2 then
          let printed ← useCLI lengthError sendCommandAndFetchReply inputs
          return PROMPT ++ response.1 ++ printed
        else return PROMPT ++ response.1

end CLI

/-! ### A connected client -/

/-- How the bytes of a call come in: those of the request at the server, those that the server has
sent at the client. -/
structure Network where
  deliveries : (call : Nat) → (request : List Byte) → List Delivery
  reads : (call : Nat) → (stream : List Byte) → List Nat

/-- Both ends of a connection, with the number of calls so far and of the bytes that the client has
read. A server that has returned does not read from the connection any more. -/
structure Dialogue where
  server : Server
  exit : Exit
  calls : Nat
  received : Nat

/-- The server runs until it waits again, then the client reads. Writes of the client succeed. -/
def Dialogue.sendCommandAndFetchReply (environment : Environment) (network : Network) (fuel : Nat)
    (query : Query) : EStateM Stop Dialogue Fetched :=
  fun dialogue =>
    let deliveries := network.deliveries dialogue.calls (Client.encode query)
    match (if dialogue.exit = .waiting then Server.readLoop environment fuel deliveries else return .returned)
        dialogue.server with
    | .error stop server => .error stop { dialogue with server }
    | .ok exit server =>
      let stream := server.sent.drop dialogue.received
      match Client.receive query (network.reads dialogue.calls stream) stream with
      | none => .ok .waiting { server, exit, calls := dialogue.calls + 1, received := dialogue.received }
      | some result =>
        .ok result.1.fetched
          { server, exit, calls := dialogue.calls + 1, received := server.sent.length - result.2.2.length }

end Datashil
