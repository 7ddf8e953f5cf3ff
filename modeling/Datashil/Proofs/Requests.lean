import Datashil.Proofs.Draining
import Datashil.Proofs.Passes
import Datashil.Proofs.Queries

/-! Requests of the client on the server: how they arrive, what is done with the tree, and what goes
back. The tree may be any whose operations return. -/

namespace Datashil
open Library Server

/-- Calls of `read` that return some bytes, in pieces of any sizes up to that of the buffer. -/
inductive Delivers : List Delivery → List Byte → Prop
  | nil : Delivers [] []
  | interrupted {deliveries : List Delivery} {bytes : List Byte} (delivers : Delivers deliveries bytes) :
      Delivers (.interrupted :: deliveries) bytes
  | bytes {deliveries : List Delivery} {chunk rest : List Byte} (some_bytes : chunk ≠ [])
      (fits : chunk.length ≤ 1024)
      (delivers : Delivers deliveries rest) : Delivers (.bytes chunk :: deliveries) (chunk ++ rest)

variable {environment : Environment} {server : Server} {query : Query} {fuel : Nat}

/-! ### Arrival -/

def requestHeader (query : Query) : RequestHeader :=
  RequestHeader.decode ((Client.encode query).take REQUEST_HEADER_SIZE)

theorem command_requestHeader (query : Query) : (requestHeader query).command = query.command.toByte := by
  obtain ⟨head, headed⟩ := Client.exists_headed query
  obtain ⟨checksum, decoded⟩ := headed.decoded
  rw [requestHeader, headed.request, List.take_left' headed.length, decoded]

/-- While a request is not complete, nothing happens. -/
theorem innerLoop_underway {rest : List Byte} (counted : Client.size query < 4294967296)
    (parts : server.streamBuffer ++ rest = Client.encode query)
    (missing : rest ≠ []) {post : Except Stop Bool → Server → Prop} :
    After (innerLoop environment (fuel + 1)) server post ↔ post (.ok false) server := by
  obtain ⟨head, headed⟩ := Client.exists_headed query
  obtain ⟨checksum, decoded⟩ := headed.decoded
  have positive := List.length_pos_iff.mpr missing
  have length := congrArg List.length parts
  rw [List.length_append, Client.length_encode] at length
  rw [innerLoop, after_bind, after_get]
  simp only
  by_cases short : server.streamBuffer.length < REQUEST_HEADER_SIZE
  · rw [if_pos short, after_pure]
  · have first : server.streamBuffer.take REQUEST_HEADER_SIZE = head := by
      have same := congrArg (List.take REQUEST_HEADER_SIZE) parts
      rw [List.take_append_of_le_length (Nat.le_of_not_lt short), headed.request,
        List.take_left' headed.length] at same
      exact same
    have total : server.streamBuffer.length < Client.totalLength query := by
      rw [Client.totalLength_eq, u32_eq counted]
      omega
    simp only [if_neg short, first, decoded, headed.verified, ne_eq, not_true_eq_false, ite_false,
      Bool.not_true, Bool.false_eq_true, total, ite_true,
      after_pure]

theorem innerLoop_request (counted : Client.size query < 4294967296) {tail : List Byte}
    (whole : server.streamBuffer = Client.encode query ++ tail)
    {post : Except Stop Bool → Server → Prop} :
    After (innerLoop environment (fuel + 1)) server post ↔
      After (dispatch environment (requestHeader query) >>= fun ended =>
        if ended then pure true else innerLoop environment fuel) server post := by
  obtain ⟨head, headed⟩ := Client.exists_headed query
  obtain ⟨checksum, decoded⟩ := headed.decoded
  have first : (Client.encode query).take REQUEST_HEADER_SIZE = head := by
    rw [headed.request, List.take_left' headed.length]
  have same : (Client.encode query ++ tail).take REQUEST_HEADER_SIZE = head := by
    rw [headed.request, List.append_assoc, List.take_left' headed.length]
  have long : ¬ Client.size query + tail.length < REQUEST_HEADER_SIZE := by
    rw [Client.size]
    omega
  have complete : ¬ Client.size query + tail.length < Client.size query := by omega
  rw [innerLoop, after_bind, after_get, requestHeader]
  simp only [whole, List.length_append, Client.length_encode, first, same, decoded, headed.verified,
    Client.totalLength_eq, u32_eq counted, long,
    complete, ne_eq, not_true_eq_false, ite_false, Bool.not_true, Bool.false_eq_true]

/-! ### Writing -/

/-- `write` does what it does on a connection to a client that reads: it takes some bytes, or
is interrupted by a signal that does not stop the server. -/
def Responsive (environment : Environment) : Prop :=
  ∀ call, ∀ result ∈ environment.write call, result = .interrupted true ∨ ∃ count, 0 < count ∧
    result = .wrote count

structure Sends (bytes : List Byte) (server final : Server) : Prop where
  sent : final.sent = server.sent ++ bytes
  connected : final.connected = server.connected
  streamBuffer : final.streamBuffer = server.streamBuffer

theorem Sends.trans {first second : List Byte} {middle final : Server}
    (before : Sends first server middle) (after : Sends second middle final) :
    Sends (first ++ second) server final :=
  ⟨by rw [after.sent, before.sent, List.append_assoc], after.connected.trans before.connected,
    after.streamBuffer.trans before.streamBuffer⟩

theorem writeLoop_sends {results : List WriteResult}
    (responsive : ∀ result ∈ results, result = .interrupted true ∨ ∃ count, 0 < count ∧
      result = .wrote count) (buffer : List Byte) (count : Nat)
    (server : Server) :
    Ran (writeLoop results buffer count) server fun _ final => Sends buffer server final ∧
      final.btree = server.btree := by
  induction results generalizing buffer count server with
  | nil => exact ran_modify.mpr ⟨⟨rfl, rfl, rfl⟩, rfl⟩
  | cons result results ih =>
    have later := fun other member => responsive other (.tail _ member)
    by_cases done : buffer = []
    · subst done
      simp only [writeLoop, ite_true, ran_pure]
      exact ⟨⟨(List.append_nil _).symm, rfl, rfl⟩, trivial⟩
    have positive := List.length_pos_iff.mpr done
    cases responsive result (.head _) with
    | inl interrupted =>
      subst interrupted
      simp only [writeLoop, done, ite_false, ite_true]
      exact ih later buffer 0 server
    | inr wrote =>
      obtain ⟨written, some_written, rfl⟩ := wrote
      have taken : min written buffer.length ≠ 0 := by omega
      simp only [writeLoop, done, ite_false, taken]
      apply ran_bind.mpr
      apply ran_modify.mpr
      apply (ih later (buffer.drop written) 0 _).imp
      rintro _ final ⟨sends, same⟩
      refine ⟨⟨?_, sends.connected, sends.streamBuffer⟩, same⟩
      rw [sends.sent, List.append_assoc, List.take_append_drop]

theorem writeExactlyNBytes_sends (responsive : Responsive environment) (buffer : List Byte)
    (server : Server) :
    Ran (writeExactlyNBytes environment buffer) server fun _ final => Sends buffer server final ∧
      final.btree = server.btree := by
  simp only [writeExactlyNBytes, ran_bind, ran_get, ran_modify]
  apply (writeLoop_sends (responsive server.writes) buffer 0 _).imp
  rintro _ final ⟨sends, same⟩
  exact ⟨⟨sends.sent, sends.connected, sends.streamBuffer⟩, same⟩

theorem liftTree_ran {α : Type} {program : TreeM α} {post : α → BTree → Prop}
    (ran : Ran program server.btree post) :
    Ran (liftTree program) server fun result final => post result final.btree ∧ Sends [] server final := by
  obtain ⟨result, st, ended, holds⟩ := ran
  refine ⟨result, { server with btree := st }, ?_, holds, (List.append_nil _).symm, rfl, rfl⟩
  simp only [liftTree, ended]

def Query.operation (query : Query) : Option Operation :=
  match query.command with
  | .search => some (.search query.key)
  | .insert => some (.insert (LittleEndian.encode SIZEOF_KEY query.key ++ query.payload.flatten) query.key)
  | .delete => some (.delete query.key)
  | _ => none

/-- The queries the server has an answer for. -/
def Answerable (query : Query) : Prop :=
  query.command ≠ .quit ∧ (query.command = .insert → Client.size query ≤ 20000)

theorem readStream_reads {offset count : Nat} (arrived : offset + count ≤ server.streamBuffer.length) :
    Ran (readStream environment offset count) server fun bytes final =>
      bytes = (server.streamBuffer.drop offset).take count ∧ Sends [] server final ∧
        final.btree = server.btree := by
  simp only [readStream, ran_bind, ran_get, ran_modify, ran_pure]
  exact ⟨read_arrived arrived, ⟨(List.append_nil _).symm, rfl, rfl⟩, trivial⟩

/-! ### What is done with the tree -/

structure Answer where
  statusCode : Nat
  payload : List Byte
  deriving DecidableEq, Repr

/-- What is stored for a query that inserts: the key, and all strings behind it. -/
def Query.buffer (query : Query) : List Byte :=
  LittleEndian.encode SIZEOF_KEY query.key ++ query.payload.flatten

/-- The operation of a query on a tree and its answer. A search comes with its stream, which is read
to the end in pieces and has as many bytes as it announces. -/
def Performed (st : BTree) (query : Query) (answer : Answer) (st' : BTree) : Prop :=
  match query.command with
  | .search => Ran (BTree.search query.key) st fun stream found =>
      Ran (stream.drain (.replicate stream.payloadRemaining 1024)) found fun result final =>
        result.2.isEOF = true ∧ result.1.length = stream.payloadRemaining ∧
          RESPONSE_HEADER_SIZE + result.1.length < 4294967296 ∧
          answer = ⟨if stream.isEOF then 4 else 1, result.1⟩ ∧ final = st'
  | .insert => Ran (BTree.insert query.buffer query.key) st fun result final =>
      answer = ⟨if result then 1 else 0, LittleEndian.encode SIZEOF_KEY query.key⟩ ∧ final = st'
  | .delete => Ran (BTree.delete (fun _ => 0) query.key) st fun result final =>
      answer = ⟨if result then 1 else 4, LittleEndian.encode SIZEOF_KEY query.key⟩ ∧ final = st'
  | _ => False

inductive Performs : BTree → List Query → List Answer → BTree → Prop
  | nil {st : BTree} : Performs st [] [] st
  | cons {st middle st' : BTree} {query : Query} {answer : Answer} {queries : List Query}
      {answers : List Answer}
      (performed : Performed st query answer middle) (rest : Performs middle queries answers st') :
      Performs st (query :: queries) (answer :: answers) st'

def reply (query : Query) (answer : Answer) : List Byte :=
  responseHeader (RESPONSE_HEADER_SIZE + answer.payload.length) answer.statusCode query.command ++
    answer.payload

theorem Performed.fits {st st' : BTree} {answer : Answer} (performed : Performed st query answer st') :
    RESPONSE_HEADER_SIZE + answer.payload.length < 4294967296 ∧ answer.statusCode < 256 := by
  cases command : query.command with
  | search =>
    simp only [Performed, command] at performed
    obtain ⟨stream, found, -, result, final, -, -, -, fits, rfl, -⟩ := performed
    refine ⟨fits, ?_⟩
    simp only
    split <;> decide
  | insert =>
    simp only [Performed, command] at performed
    obtain ⟨result, final, -, rfl, -⟩ := performed
    rw [LittleEndian.length_encode]
    refine ⟨by decide, ?_⟩
    simp only
    split <;> decide
  | delete =>
    simp only [Performed, command] at performed
    obtain ⟨result, final, -, rfl, -⟩ := performed
    rw [LittleEndian.length_encode]
    refine ⟨by decide, ?_⟩
    simp only
    split <;> decide
  | invalid => simp only [Performed, command] at performed
  | quit => simp only [Performed, command] at performed

theorem Performed.complete {st st' : BTree} {answer : Answer} (performed : Performed st query answer st') :
    Complete query.command (reply query answer) :=
  complete_responseHeader rfl performed.fits.1 performed.fits.2

/-- Queries that clients send and that have an answer. -/
structure Sendable (query : Query) : Prop where
  ready : Parser.Ready query
  counted : Client.size query < 4294967296
  answerable : Answerable query

/-- The server has answered a query; what had arrived behind it is left. -/
structure Replied (query : Query) (answer : Answer) (st' : BTree) (tail : List Byte)
    (server final : Server) : Prop where
  sent : final.sent = server.sent ++ reply query answer
  connected : final.connected = server.connected
  streamBuffer : final.streamBuffer = tail
  btree : final.btree = st'

/-! ### Handlers -/

/-- A stream is sent to its end. -/
theorem sendPayload_sends (responsive : Responsive environment) (turns : Nat) {stream : PayloadStream}
    (post : List Byte → BTree → Prop)
    (server : Server) (drained : Ran (stream.drain (.replicate turns 1024)) server.btree fun result final =>
      result.2.isEOF = true ∧ post result.1 final) :
    Ran (sendPayload environment turns stream) server fun _ final => ∃ bytes, Sends bytes server final ∧
      post bytes final.btree := by
  induction turns generalizing stream server post with
  | zero =>
    rw [List.replicate_zero, PayloadStream.drain, ran_pure] at drained
    rw [sendPayload, if_pos drained.1, ran_pure]
    exact ⟨[], ⟨(List.append_nil _).symm, rfl, rfl⟩, drained.2⟩
  | succ turns ih =>
    rw [List.replicate_succ, PayloadStream.drain] at drained
    rw [sendPayload]
    by_cases ended : stream.isEOF = true
    · rw [if_pos ended, ran_pure] at drained
      rw [if_pos ended, ran_pure]
      exact ⟨[], ⟨(List.append_nil _).symm, rfl, rfl⟩, drained.2⟩
    rw [if_neg ended, ran_bind] at drained
    rw [if_neg ended, ran_bind]
    apply (liftTree_ran drained).imp
    intro result middle holds
    obtain ⟨rest, quiet⟩ := holds
    obtain ⟨piece, stream⟩ := result
    rw [ran_bind] at rest ⊢
    apply (writeExactlyNBytes_sends responsive piece middle).imp
    intro _ later holds
    obtain ⟨sends, kept⟩ := holds
    rw [← kept] at rest
    have drained : Ran (stream.drain (.replicate turns 1024)) later.btree fun result final =>
        result.2.isEOF = true ∧ post (piece ++ result.1) final := by
      apply rest.imp
      intro result final holds
      obtain ⟨bytes, stream⟩ := result
      simp only [ran_pure] at holds
      exact holds
    apply (ih (fun bytes final => post (piece ++ bytes) final) later drained).imp
    intro _ final holds
    obtain ⟨bytes, sends', holds⟩ := holds
    exact ⟨piece ++ bytes, by simpa using quiet.trans (sends.trans sends'), holds⟩

section Handlers
variable {tail : List Byte} {answer : Answer} {st' : BTree}
  (whole : server.streamBuffer = Client.encode query ++ tail) (counted : Client.size query < 4294967296)

include whole counted in
theorem ran_first_reads {next : List Byte → List Byte → ServerM Unit} {post : Unit → Server → Prop}
    (continues : ∀ header final, (RequestHeader.decode header).totalLength = Client.size query →
      Sends [] server final →
      final.btree = server.btree → Ran (next header (LittleEndian.encode SIZEOF_KEY query.key)) final post) :
    Ran (readStream environment 0 REQUEST_HEADER_SIZE >>= fun header =>
      readStream environment REQUEST_HEADER_SIZE SIZEOF_KEY >>= fun key => next header key) server post := by
  obtain ⟨head, headed⟩ := Client.exists_headed query
  obtain ⟨checksum, decoded⟩ := headed.decoded
  have length := congrArg List.length whole
  rw [List.length_append, Client.length_encode, Client.size] at length
  apply ran_bind.mpr
  apply (readStream_reads (by omega)).imp
  rintro header middle ⟨rfl, first, kept⟩
  apply ran_bind.mpr
  apply (readStream_reads (by rw [first.streamBuffer]; omega)).imp
  rintro key final ⟨rfl, second, kept'⟩
  rw [first.streamBuffer, whole, headed.request, List.append_assoc, List.append_assoc,
    List.drop_left' headed.length,
    List.take_left' (LittleEndian.length_encode _ _)]
  apply continues
  · rw [List.drop_zero, List.take_left' headed.length, decoded, Client.totalLength_eq, u32_eq counted]
  · exact first.trans second
  · exact kept'.trans kept

include whole in
theorem erase_replied {middle : Server} (sends : Sends (reply query answer) server middle)
    (btree : middle.btree = st') :
    Ran (erase (Client.size query)) middle fun _ final => Replied query answer st' tail server final := by
  apply ran_modify.mpr
  refine ⟨sends.sent, sends.connected, ?_, btree⟩
  simp only
  rw [sends.streamBuffer, whole, List.drop_left' (Client.length_encode query)]

theorem acknowledge_sends (responsive : Responsive environment) (statusCode : Nat) (server : Server) :
    Ran (acknowledge environment statusCode query.command (LittleEndian.encode SIZEOF_KEY query.key))
      server fun _ final =>
      Sends (reply query ⟨statusCode, LittleEndian.encode SIZEOF_KEY query.key⟩) server final ∧
        final.btree = server.btree := by
  apply ran_bind.mpr
  apply (writeExactlyNBytes_sends responsive _ _).imp
  rintro _ middle ⟨first, kept⟩
  apply (writeExactlyNBytes_sends responsive _ _).imp
  rintro _ final ⟨second, kept'⟩
  refine ⟨?_, kept'.trans kept⟩
  rw [reply, LittleEndian.length_encode]
  exact first.trans second

variable (responsive : Responsive environment) (ready : Parser.Ready query)
    (performed : Performed server.btree query answer st')
include whole counted responsive ready performed

theorem handleSearch_replied (command : query.command = .search) :
    Ran (handleSearch environment) server fun _ final => Replied query answer st' tail server final := by
  apply ran_first_reads whole counted
  intro header start total before kept
  rw [← kept] at performed
  simp only [Performed, command] at performed
  have decoded : LittleEndian.decode (LittleEndian.encode SIZEOF_KEY query.key) = query.key :=
    LittleEndian.decode_encode_of_lt ready.key
  simp only [total, decoded]
  apply ran_bind.mpr
  apply (liftTree_ran performed).imp
  intro stream found holds
  obtain ⟨drained, quiet⟩ := holds
  apply ran_bind.mpr
  apply (writeExactlyNBytes_sends responsive _ found).imp
  intro _ headed holds
  obtain ⟨sends, same⟩ := holds
  rw [← same] at drained
  apply ran_bind.mpr
  apply (sendPayload_sends responsive _ (fun bytes final => bytes.length = stream.payloadRemaining ∧
    RESPONSE_HEADER_SIZE + bytes.length < 4294967296 ∧ answer = ⟨if stream.isEOF then 4 else 1, bytes⟩ ∧
      final = st') headed drained).imp
  intro _ final holds
  obtain ⟨bytes, sends', length, fits, answered, btree⟩ := holds
  apply erase_replied whole _ btree
  have sent := before.trans (quiet.trans (sends.trans sends'))
  rw [List.nil_append, List.nil_append, ← length, u32_eq fits] at sent
  rw [answered, reply, command]
  exact sent

theorem handleInsert_replied (command : query.command = .insert) (bounded : Client.size query ≤ 20000) :
    Ran (handleInsert environment) server fun _ final => Replied query answer st' tail server final := by
  apply ran_first_reads whole counted
  intro header start total before kept
  have length := congrArg List.length whole
  rw [List.length_append, Client.length_encode] at length
  have small : ¬ (Client.size query > 20000 ∨ Client.size query < REQUEST_HEADER_SIZE) := by
    rw [Client.size] at bounded ⊢
    omega
  simp only [total, small, ite_false]
  apply ran_bind.mpr
  apply (readStream_reads (by rw [before.streamBuffer, length, Client.size]; omega)).imp
  intro payload middle holds
  obtain ⟨same, quiet, kept'⟩ := holds
  have taken : payload = query.buffer := by
    obtain ⟨head, headed⟩ := Client.exists_headed query
    have size : query.buffer.length = Client.size query - REQUEST_HEADER_SIZE := by
      rw [Query.buffer, List.length_append, LittleEndian.length_encode, Client.size]
      omega
    rw [same, before.streamBuffer, whole, headed.request, List.append_assoc, List.drop_left' headed.length]
    exact List.take_left' size
  have decoded : LittleEndian.decode (LittleEndian.encode SIZEOF_KEY query.key) = query.key :=
    LittleEndian.decode_encode_of_lt ready.key
  rw [← kept, ← kept'] at performed
  simp only [Performed, command] at performed
  rw [taken, decoded]
  apply ran_bind.mpr
  apply (liftTree_ran performed).imp
  intro insertResult written holds
  obtain ⟨⟨answered, btree⟩, quiet'⟩ := holds
  apply ran_bind.mpr
  rw [← command]
  apply (acknowledge_sends responsive _ written).imp
  intro _ final holds
  obtain ⟨sends, same⟩ := holds
  apply erase_replied whole _ (same.trans btree)
  have sent := before.trans (quiet.trans (quiet'.trans sends))
  rw [List.nil_append, List.nil_append, List.nil_append] at sent
  rw [answered]
  exact sent

theorem handleDelete_replied (command : query.command = .delete) :
    Ran (handleDelete environment) server fun _ final => Replied query answer st' tail server final := by
  apply ran_first_reads whole counted
  intro header start total before kept
  rw [← kept] at performed
  simp only [Performed, command] at performed
  have decoded : LittleEndian.decode (LittleEndian.encode SIZEOF_KEY query.key) = query.key :=
    LittleEndian.decode_encode_of_lt ready.key
  simp only [total, decoded]
  apply ran_bind.mpr
  apply (liftTree_ran performed).imp
  intro deleteResult deleted holds
  obtain ⟨⟨answered, btree⟩, quiet⟩ := holds
  apply ran_bind.mpr
  rw [← command]
  apply (acknowledge_sends responsive _ deleted).imp
  intro _ final holds
  obtain ⟨sends, same⟩ := holds
  apply erase_replied whole _ (same.trans btree)
  have sent := before.trans (quiet.trans sends)
  rw [List.nil_append, List.nil_append] at sent
  rw [answered]
  exact sent

end Handlers

/-- A handler that comes to its end lets `HandleClient` go on. -/
theorem caught_ran {handler : ServerM Unit} {post : Server → Prop}
    (ran : Ran handler server fun _ final => post final) :
    Ran (caught handler) server fun ended final => ended = false ∧ post final := by
  obtain ⟨⟨⟩, final, ended, holds⟩ := ran
  refine ⟨false, final, ?_, rfl, holds⟩
  simp only [caught, tryCatch, tryCatchThe, MonadExceptOf.tryCatch, EStateM.tryCatch, Bind.bind,
    EStateM.bind, ended]
  rfl

theorem dispatch_replied {tail : List Byte} {answer : Answer} {st' : BTree}
    (whole : server.streamBuffer = Client.encode query ++ tail)
    (sendable : Sendable query) (responsive : Responsive environment)
    (performed : Performed server.btree query answer st') :
    Ran (dispatch environment (requestHeader query)) server fun ended final => ended = false ∧
      Replied query answer st' tail server final := by
  obtain ⟨ready, counted, answerable⟩ := sendable
  apply ran_bind.mpr
  apply ran_modify.mpr
  rw [command_requestHeader, Command.ofByte_toByte]
  have kept : ∀ {passes : List Pass},
    (fun final => Replied query answer st' tail { server with passes } final) =
      fun final => Replied query answer st' tail server final := by
    intro passes
    funext final
    exact propext ⟨fun replied => ⟨replied.sent, replied.connected, replied.streamBuffer, replied.btree⟩,
      fun replied => ⟨replied.sent, replied.connected, replied.streamBuffer, replied.btree⟩⟩
  cases command : query.command with
  | invalid => exact absurd command ready.command
  | quit => exact absurd command answerable.1
  | search => exact caught_ran (kept ▸ handleSearch_replied whole counted responsive ready performed command)
  | insert =>
    exact caught_ran (kept ▸ handleInsert_replied whole counted responsive ready performed command
      (answerable.2 command))
  | delete => exact caught_ran (kept ▸ handleDelete_replied whole counted responsive ready performed command)

end Datashil
