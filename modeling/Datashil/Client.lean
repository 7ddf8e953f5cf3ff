import Datashil.Wire

/-! The client: from the text of a query to the bytes of a request, and from the bytes
of a response to what is shown. Text is bytes here, as in a `std::string`. -/

namespace Datashil
open Library

/-- `key` has no value before it is parsed. -/
structure Query where
  valid : Bool
  command : Command
  key : Nat
  payload : List (List Byte)
  deriving DecidableEq, Repr

def ascii (text : String) : List Byte := text.toList.map fun c => UInt8.ofNat c.toNat

def isalpha (c : Byte) : Bool := (65 ≤ c ∧ c ≤ 90) ∨ (97 ≤ c ∧ c ≤ 122)

def isdigit (c : Byte) : Bool := 48 ≤ c ∧ c ≤ 57

def tolower (c : Byte) : Byte := if 65 ≤ c ∧ c ≤ 90 then c + 32 else c

/-- The number some digits spell, if it fits into 64 bits. -/
def stoull (digits : List Byte) : Option Nat :=
  let value := digits.foldl (fun value digit => 10 * value + (digit.toNat - 48)) 0
  if value < 18446744073709551616 then some value else none

inductive ParserState
  | expectCommand | readCommand | expectKey | readKey | expectPayload | readPayload
  deriving DecidableEq, Repr

structure Parser where
  currentState : ParserState
  tempBuffer : List Byte
  queryObject : Query
  deriving DecidableEq, Repr

namespace Parser

def make : Parser := ⟨.expectCommand, [], ⟨false, .invalid, 0, []⟩⟩

def commandOf (name : List Byte) : Option Command :=
  if name = ascii "search" then some .search
  else if name = ascii "insert" then some .insert
  else if name = ascii "delete" then some .delete
  else if name = ascii "quit" then some .quit
  else none

/-- In the states that read something, what `ParseQuery` does with a character. Where it
returns, the query comes back as an error. -/
def readCommand (parser : Parser) (c : Byte) : Except Query Parser :=
  if isalpha c then .ok { parser with tempBuffer := parser.tempBuffer ++ [tolower c] }
  else if c = 32 then
    match commandOf parser.tempBuffer with
    | some command => .ok ⟨.expectKey, [], { parser.queryObject with command }⟩
    | none => .error parser.queryObject
  else .error parser.queryObject

def readKey (parser : Parser) (c : Byte) : Except Query Parser :=
  if isdigit c then .ok { parser with tempBuffer := parser.tempBuffer ++ [c] }
  else if c = 32 then
    match stoull parser.tempBuffer with
    | some key => .ok ⟨.expectPayload, [], { parser.queryObject with key }⟩
    | none => .error parser.queryObject
  else if c = 59 then
    match stoull parser.tempBuffer with
    | some key => .error { parser.queryObject with key, valid := true }
    | none => .error parser.queryObject
  else .error parser.queryObject

/-- A character that begins a command or a key is looked at again in the next state. -/
def step (parser : Parser) (c : Byte) : Except Query Parser :=
  match parser.currentState with
  | .expectCommand =>
    if c = 32 ∨ c = 10 then .ok parser
    else if isalpha c then { parser with currentState := .readCommand }.readCommand c
    else .error parser.queryObject
  | .readCommand => parser.readCommand c
  | .expectKey =>
    if c = 32 then .ok parser
    else if isdigit c then { parser with currentState := .readKey }.readKey c
    else .error parser.queryObject
  | .readKey => parser.readKey c
  | .expectPayload =>
    if c = 32 then .ok parser
    else if c = 34 then .ok { parser with currentState := .readPayload }
    else if c = 59 then .error { parser.queryObject with valid := true }
    else .error parser.queryObject
  | .readPayload =>
    if c = 34 then
      .ok ⟨.expectPayload, [],
        { parser.queryObject with payload := parser.queryObject.payload ++ [parser.tempBuffer] }⟩
    else .ok { parser with tempBuffer := parser.tempBuffer ++ [c] }

/-- A backslash in a payload takes the next character as it is. -/
def parseQuery : Parser → List Byte → Query
  | parser, [] => parser.queryObject
  | parser, c :: rest =>
    if parser.currentState = .readPayload ∧ c = 92 then
      match rest with
      | [] => parser.queryObject
      | escaped :: rest => parseQuery { parser with tempBuffer := parser.tempBuffer ++ [escaped] } rest
    else
      match parser.step c with
      | .ok parser => parseQuery parser rest
      | .error queryObject => queryObject

end Parser

namespace Client

/-- The length field of a request is counted up in 32 bits. -/
def totalLength (query : Query) : Nat :=
  query.payload.foldl (fun total part => u32 (total + part.length)) (u32 (REQUEST_HEADER_SIZE + SIZEOF_KEY))

/-- Everything `SendCommandAndFetchReply` writes. -/
def encode (query : Query) : List Byte :=
  Utils.setChecksum (RequestHeader.encode ⟨NETWORK_MAGIC_NUMBER, totalLength query,
    query.command.toByte, 0⟩) ++
    LittleEndian.encode SIZEOF_KEY query.key ++ query.payload.flatten

/-- How `SendCommandAndFetchReply` ends when a response has come back. A rejected one is shown
as a failed query. -/
inductive Reply
  | rejected
  | response (header : ResponseHeader) (payload : List Byte)
  deriving DecidableEq, Repr

/-! ### Reading from the socket -/

/-- The loop of `ReadExactlyNBytes`. `reads` is how many bytes each call of `read` returns at most,
0 where it is interrupted. The result comes with the calls and the bytes that are left. -/
def readExactlyNBytes : (reads : List Nat) → (n : Nat) → (stream : List Byte) →
    Option (List Byte × List Nat × List Byte)
  | reads, 0, stream => some ([], reads, stream)
  | [], _ + 1, _ => none
  | count :: reads, n + 1, stream =>
    let chunk := stream.take (min count (min (n + 1) 1024))
    (readExactlyNBytes reads (n + 1 - chunk.length) (stream.drop chunk.length)).map fun (bytes, rest) =>
      (chunk ++ bytes, rest)

/-- The second half of `SendCommandAndFetchReply`, on a stream that may go on behind the response. -/
def receive (query : Query) (reads : List Nat) (stream : List Byte) :
    Option (Reply × List Nat × List Byte) :=
  do
  let (header, reads, stream) ← readExactlyNBytes reads RESPONSE_HEADER_SIZE stream
  let responseHeader := ResponseHeader.decode header
  if responseHeader.magicNumber ≠ NETWORK_MAGIC_NUMBER ∨
    responseHeader.echoCommand ≠ query.command.toByte then return (.rejected, reads, stream)
  else if !Utils.verifyChecksum header then return (.rejected, reads, stream)
  else
    let bytesToRead := (responseHeader.totalLength + (18446744073709551616 - RESPONSE_HEADER_SIZE)) %
      18446744073709551616
    let (payload, reads, stream) ← readExactlyNBytes reads bytesToRead stream
    return (.response responseHeader payload, reads, stream)

def receiveAll : List Query → (reads : List Nat) → (stream : List Byte) →
    Option (List Reply × List Nat × List Byte)
  | [], reads, stream => some ([], reads, stream)
  | query :: queries, reads, stream => do
    let (reply, reads, stream) ← receive query reads stream
    let (replies, rest) ← receiveAll queries reads stream
    return (reply :: replies, rest)

end Client
end Datashil
