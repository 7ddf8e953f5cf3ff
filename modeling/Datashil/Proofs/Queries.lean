import Datashil.Client
import Datashil.Server

/-! The agreement between client and server: what the parser accepts, how a request
begins, and which responses the client takes. -/

namespace Datashil
open Library

def Accepted (query : Query) : Prop := query.valid = true ∧ ∃ text, Parser.parseQuery .make text = query

namespace Parser

structure Ready (query : Query) : Prop where
  command : query.command ≠ .invalid
  key : query.key < 18446744073709551616

/-- While characters are left to be read, the query is not valid yet. -/
structure Underway (parser : Parser) : Prop where
  valid : parser.queryObject.valid = false
  command : parser.currentState = .expectCommand ∨ parser.currentState = .readCommand ∨
    parser.queryObject.command ≠ .invalid
  key : parser.queryObject.key < 18446744073709551616

def Kept : Except Query Parser → Prop
  | .ok parser => Underway parser
  | .error query => query.valid = true → Ready query

theorem kept_invalid {parser : Parser} (underway : Underway parser) : Kept (.error parser.queryObject) := by
  intro valid
  rw [underway.valid] at valid
  cases valid

theorem commandOf_ne_invalid {name : List Byte} {command : Command}
    (found : commandOf name = some command) : command ≠ .invalid := by
  simp only [commandOf] at found
  split at found
  · cases found
    decide
  split at found
  · cases found
    decide
  split at found
  · cases found
    decide
  split at found
  · cases found
    decide
  · cases found

theorem stoull_lt {digits : List Byte} {value : Nat} (found : stoull digits = some value) :
    value < 18446744073709551616 := by
  simp only [stoull] at found
  split at found
  next small =>
    cases found
    exact small
  next => cases found

theorem readCommand_kept {parser : Parser} (underway : Underway parser) (c : Byte)
    (state : parser.currentState = .readCommand) :
    Kept (parser.readCommand c) := by
  rw [readCommand]
  split
  · exact ⟨underway.valid, .inr (.inl state), underway.key⟩
  split
  · split
    next command found => exact ⟨underway.valid, .inr (.inr (commandOf_ne_invalid found)), underway.key⟩
    next => exact kept_invalid underway
  · exact kept_invalid underway

theorem readKey_kept {parser : Parser} (underway : Underway parser) (c : Byte)
    (command : parser.queryObject.command ≠ .invalid) :
    Kept (parser.readKey c) := by
  rw [readKey]
  split
  · exact ⟨underway.valid, .inr (.inr command), underway.key⟩
  split
  · split
    next key found => exact ⟨underway.valid, .inr (.inr command), stoull_lt found⟩
    next => exact kept_invalid underway
  split
  · split
    next key found => exact fun _ => ⟨command, stoull_lt found⟩
    next => exact kept_invalid underway
  · exact kept_invalid underway

theorem step_kept {parser : Parser} (underway : Underway parser) (c : Byte) : Kept (parser.step c) := by
  have command : parser.currentState ≠ .expectCommand → parser.currentState ≠ .readCommand →
      parser.queryObject.command ≠ .invalid :=
    fun first second => (underway.command.resolve_left first).resolve_left second
  rw [step]
  cases state : parser.currentState with
  | expectCommand =>
    simp only
    split
    · exact underway
    split
    · exact @readCommand_kept { parser with currentState := .readCommand }
        ⟨underway.valid, .inr (.inl rfl), underway.key⟩ c rfl
    · exact kept_invalid underway
  | readCommand => exact readCommand_kept underway c state
  | expectKey =>
    have command := command (by simp [state]) (by simp [state])
    simp only
    split
    · exact underway
    split
    · exact @readKey_kept { parser with currentState := .readKey }
        ⟨underway.valid, .inr (.inr command), underway.key⟩ c command
    · exact kept_invalid underway
  | readKey => exact readKey_kept underway c (command (by simp [state]) (by simp [state]))
  | expectPayload =>
    have command := command (by simp [state]) (by simp [state])
    simp only
    split
    · exact underway
    split
    · exact ⟨underway.valid, .inr (.inr command), underway.key⟩
    split
    · exact fun _ => ⟨command, underway.key⟩
    · exact kept_invalid underway
  | readPayload =>
    have command := command (by simp [state]) (by simp [state])
    simp only
    split <;> exact ⟨underway.valid, .inr (.inr command), underway.key⟩

theorem parseQuery_step {parser : Parser} {c : Byte} {rest : List Byte}
    (plain : ¬ (parser.currentState = .readPayload ∧ c = 92)) :
    parser.parseQuery (c :: rest) =
      match parser.step c with
      | .ok next => next.parseQuery rest
      | .error query => query := by
  rw [parseQuery.eq_def]
  cases stepped : parser.step c with
  | ok next => simp only [plain, ite_false, stepped]
  | error query => simp only [plain, ite_false, stepped]

theorem parseQuery_ready {parser : Parser} (underway : Underway parser) (text : List Byte)
    (valid : (parser.parseQuery text).valid = true) :
    Ready (parser.parseQuery text) := by
  induction parser, text using parseQuery.induct with
  | case1 parser => exact kept_invalid underway valid
  | case2 parser c escape =>
    rw [parseQuery, if_pos escape] at valid ⊢
    exact kept_invalid underway valid
  | case3 parser c escape escaped rest ih =>
    rw [parseQuery, if_pos escape] at valid ⊢
    exact ih ⟨underway.valid, underway.command, underway.key⟩ valid
  | case4 parser c rest plain next stepped ih =>
    have kept := step_kept underway c
    rw [parseQuery_step plain] at valid ⊢
    simp only [stepped] at valid kept ⊢
    exact ih kept valid
  | case5 parser c rest plain query stepped =>
    have kept := step_kept underway c
    rw [parseQuery_step plain] at valid ⊢
    simp only [stepped] at valid kept ⊢
    exact kept valid

end Parser

/-- Accepted queries have one of four commands, and a key of eight bytes. -/
theorem Accepted.ready {query : Query} (accepted : Accepted query) : Parser.Ready query := by
  obtain ⟨valid, text, rfl⟩ := accepted
  exact Parser.parseQuery_ready ⟨rfl, .inl rfl, by decide⟩ text valid

/-! ### Requests -/

theorem magicNumber_lt : NETWORK_MAGIC_NUMBER < 4294967296 := by decide

namespace Client
variable {query : Query}

def size (query : Query) : Nat := REQUEST_HEADER_SIZE + SIZEOF_KEY + query.payload.flatten.length

theorem totalLength_eq (query : Query) : totalLength query = u32 (size query) := by
  have counted : ∀ (parts : List (List Byte)) (total : Nat),
      parts.foldl (fun total part => u32 (total + part.length)) (u32 total) =
        u32 (total + parts.flatten.length) := by
    intro parts
    induction parts with
    | nil => simp
    | cons part parts ih =>
      intro total
      have wrapped : u32 (u32 total + part.length) = u32 (total + part.length) := by
        simp only [u32]
        omega
      rw [List.foldl_cons, wrapped, ih, List.flatten_cons, List.length_append, Nat.add_assoc]
  exact counted query.payload _

structure Headed (query : Query) (head : List Byte) : Prop where
  length : head.length = REQUEST_HEADER_SIZE
  request : encode query = head ++ (LittleEndian.encode SIZEOF_KEY query.key ++ query.payload.flatten)
  verified : Utils.verifyChecksum head = true
  decoded : ∃ checksum, RequestHeader.decode head =
    ⟨NETWORK_MAGIC_NUMBER, totalLength query, query.command.toByte, checksum⟩

theorem exists_headed (query : Query) : ∃ head, Headed query head := by
  have total : totalLength query < 4294967296 := by
    rw [totalLength_eq]
    exact Nat.mod_lt _ (Nat.zero_lt_succ _)
  obtain ⟨checksum, small, same⟩ :=
    RequestHeader.setChecksum_encode ⟨NETWORK_MAGIC_NUMBER, totalLength query, query.command.toByte, 0⟩
  refine ⟨_, ?_, List.append_assoc .., ?_, checksum, ?_⟩
  · rw [same, RequestHeader.length_encode]
  · apply Utils.verifyChecksum_setChecksum
    rw [RequestHeader.length_encode]
    decide
  · rw [same]
    exact RequestHeader.decode_encode magicNumber_lt total small

theorem length_encode (query : Query) : (encode query).length = size query := by
  obtain ⟨head, headed⟩ := exists_headed query
  rw [headed.request, size]
  simp only [List.length_append, headed.length, LittleEndian.length_encode, Nat.add_assoc]

end Client

/-! ### Responses -/

structure Complete (command : Command) (bytes : List Byte) : Prop where
  long : RESPONSE_HEADER_SIZE ≤ bytes.length
  magicNumber : (ResponseHeader.decode (bytes.take RESPONSE_HEADER_SIZE)).magicNumber = NETWORK_MAGIC_NUMBER
  checksum : Utils.verifyChecksum (bytes.take RESPONSE_HEADER_SIZE) = true
  echoCommand : (ResponseHeader.decode (bytes.take RESPONSE_HEADER_SIZE)).echoCommand = command.toByte
  payload : bytes.length = (ResponseHeader.decode (bytes.take RESPONSE_HEADER_SIZE)).totalLength

theorem length_responseHeader (totalLength statusCode : Nat) (command : Command) :
    (Server.responseHeader totalLength statusCode command).length = RESPONSE_HEADER_SIZE := by
  obtain ⟨checksum, -, same⟩ := ResponseHeader.setChecksum_encode
    ⟨NETWORK_MAGIC_NUMBER, totalLength, statusCode, command.toByte, 0⟩
  rw [Server.responseHeader, same, ResponseHeader.length_encode]

theorem decode_responseHeader {totalLength statusCode : Nat} (small : totalLength < 4294967296)
    (status : statusCode < 256) (command : Command) :
    ∃ checksum, ResponseHeader.decode (Server.responseHeader totalLength statusCode command) =
      ⟨NETWORK_MAGIC_NUMBER, totalLength, statusCode, command.toByte, checksum⟩ := by
  obtain ⟨checksum, checksum_lt, same⟩ :=
    ResponseHeader.setChecksum_encode ⟨NETWORK_MAGIC_NUMBER, totalLength, statusCode, command.toByte, 0⟩
  refine ⟨checksum, ?_⟩
  rw [Server.responseHeader, same]
  exact ResponseHeader.decode_encode magicNumber_lt small status checksum_lt

theorem complete_responseHeader {command : Command} {totalLength statusCode : Nat} {payload : List Byte}
    (total : totalLength = RESPONSE_HEADER_SIZE + payload.length) (small : totalLength < 4294967296)
    (status : statusCode < 256) :
    Complete command (Server.responseHeader totalLength statusCode command ++ payload) := by
  obtain ⟨checksum, decoded⟩ := decode_responseHeader small status command
  have length := length_responseHeader totalLength statusCode command
  have head : (Server.responseHeader totalLength statusCode command ++ payload).take RESPONSE_HEADER_SIZE =
      Server.responseHeader totalLength statusCode command := List.take_left' length
  constructor
  · rw [List.length_append, length]
    omega
  · rw [head, decoded]
  · rw [head]
    apply Utils.verifyChecksum_setChecksum
    rw [ResponseHeader.length_encode]
    decide
  · rw [head, decoded]
  · rw [head, decoded, List.length_append, length, total]

theorem Complete.bytesToRead {command : Command} {bytes : List Byte} (complete : Complete command bytes)
    (small : bytes.length < 18446744073709551616) :
    ((ResponseHeader.decode (bytes.take RESPONSE_HEADER_SIZE)).totalLength +
      (18446744073709551616 - RESPONSE_HEADER_SIZE)) %
      18446744073709551616 = bytes.length - RESPONSE_HEADER_SIZE := by
  have long := complete.long
  rw [← complete.payload]
  simp only [RESPONSE_HEADER_SIZE] at long ⊢
  omega

end Datashil
