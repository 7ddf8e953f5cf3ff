import Datashil.Proofs.Sending
import Datashil.Proofs.Service

/-! Requests on a server whose writes may fail. A failed write ends the connection, but not before the
operation is complete, and all that has been written is the beginning of the response. -/

namespace Datashil
open Library Server BTree

variable {environment : Environment} {server : Server} {query : Query} {answer : Answer}
    {contents : Contents} {st st' : BTree} {α β : Type}
  {bytes more tail : List Byte} {failed : BTree → Prop}

/-! ### Handlers -/

theorem acknowledge_sending (environment : Environment) (query : Query) (statusCode : Nat)
    (server : Server) (fails : failed server.btree) :
    Sending (acknowledge environment statusCode query.command
      (LittleEndian.encode SIZEOF_KEY query.key)) server
      (reply query ⟨statusCode, LittleEndian.encode SIZEOF_KEY query.key⟩) failed fun _ final =>
        server.Same final := by
  rw [reply, LittleEndian.length_encode]
  apply Sending.bind
  · exact writeExactlyNBytes_sending environment _ server fails
  · intro _ middle same
    apply (writeExactlyNBytes_sending environment _ middle (same.btree ▸ fails)).imp
    intro _ final later
    exact ⟨later.btree.trans same.btree, later.streamBuffer.trans same.streamBuffer⟩

/-- Where sending stops, the stream has been read up to some point. -/
theorem sendPayload_sending (environment : Environment) {limit : Nat} {held : Multiset Nat}
    (turns : Nat) {stream : PayloadStream} (server : Server)
    (drained : Ran (stream.drain (.replicate turns 1024)) server.btree fun result final =>
      result.2.isEOF = true ∧ result.1 = bytes ∧ final = st')
    (accounted : Accounted limit st held ∅ server.btree) (agrees : st.Agrees server.btree)
    (room : held.card < limit)
    (readable : ∀ pid block, HasBytes (st.pages pid) block → st.Live pid)
    (grounded : stream.Grounded st.pages)
    (fails : ∀ st₁, Accounted limit st held ∅ st₁ → st.Agrees st₁ → failed st₁) :
    Sending (sendPayload environment turns stream) server bytes failed fun _ final =>
      final.btree = st' ∧ final.streamBuffer = server.streamBuffer := by
  induction turns generalizing stream server bytes with
  | zero =>
    rw [List.replicate_zero, PayloadStream.drain, ran_pure] at drained
    obtain ⟨ended, rfl, rfl⟩ := drained
    rw [sendPayload, if_pos ended]
    exact .pure _ ⟨rfl, rfl⟩
  | succ turns ih =>
    rw [List.replicate_succ, PayloadStream.drain] at drained
    rw [sendPayload]
    by_cases ended : stream.isEOF = true
    · rw [if_pos ended, ran_pure] at drained
      obtain ⟨-, rfl, rfl⟩ := drained
      rw [if_pos ended]
      exact .pure _ ⟨rfl, rfl⟩
    rw [if_neg ended, ran_bind] at drained
    rw [if_neg ended]
    obtain ⟨result, st₁, read, rest⟩ := drained
    obtain ⟨accounted', agrees', grounded'⟩ :=
      PayloadStream.nextBytes_accounted 1024 accounted room (agrees.pages ▸ readable)
      (agrees.pages ▸ grounded) _ _ read
    rw [agrees.pages] at grounded'
    obtain ⟨piece, stream'⟩ := result
    rw [ran_bind] at rest
    obtain ⟨⟨later, last⟩, st₂, drained, done⟩ := rest
    obtain ⟨eof, rfl, rfl⟩ := ran_pure.mp done
    have next : Ran (stream.nextBytes 1024) server.btree fun value st => value = (piece, stream') ∧
        st = st₁ :=
      ⟨_, _, read, rfl, rfl⟩
    apply (liftTree_sending next).silent
    intro value read holds
    obtain ⟨⟨rfl, here⟩, buffer⟩ := holds
    apply Sending.bind (writeExactlyNBytes_sending environment piece read
      (here ▸ fails st₁ accounted' (agrees.trans agrees')))
    intro _ wrote same
    have there : wrote.btree = st₁ := same.btree.trans here
    have left : Ran (stream'.drain (.replicate turns 1024)) wrote.btree fun result final =>
        result.2.isEOF = true ∧ result.1 = later ∧ final = st₂ :=
          ⟨(later, last), st₂, there ▸ drained, eof, rfl, rfl⟩
    apply (ih wrote left (there ▸ accounted') (there ▸ agrees.trans agrees') grounded').imp
    intro _ final holds
    exact ⟨holds.1, holds.2.trans (same.streamBuffer.trans buffer)⟩

section Handlers
variable (whole : server.streamBuffer = Client.encode query ++ tail) (sendable : Sendable query)
include whole

include sendable in
theorem sending_first_reads {next : List Byte → List Byte → ServerM Unit} {post : Unit → Server → Prop}
    (continues : ∀ header middle, (RequestHeader.decode header).totalLength = Client.size query →
      server.Same middle →
      Sending (next header (LittleEndian.encode SIZEOF_KEY query.key)) middle bytes failed post) :
    Sending (readStream environment 0 REQUEST_HEADER_SIZE >>= fun header =>
      readStream environment REQUEST_HEADER_SIZE SIZEOF_KEY >>= fun key =>
        next header key) server bytes failed post := by
  obtain ⟨head, headed⟩ := Client.exists_headed query
  obtain ⟨checksum, decoded⟩ := headed.decoded
  have length := congrArg List.length whole
  rw [List.length_append, Client.length_encode, Client.size] at length
  apply Sending.silent (readStream_sending (by omega))
  intro header first holds
  obtain ⟨rfl, same⟩ := holds
  apply Sending.silent (readStream_sending (by rw [same.streamBuffer]; omega))
  intro key second holds
  obtain ⟨rfl, same'⟩ := holds
  rw [same.streamBuffer, whole, headed.request, List.append_assoc, List.append_assoc,
    List.drop_left' headed.length,
    List.take_left' (LittleEndian.length_encode _ _)]
  apply continues
  · rw [List.drop_zero, List.take_left' headed.length, decoded, Client.totalLength_eq,
      u32_eq sendable.counted]
  · exact ⟨same'.btree.trans same.btree, same'.streamBuffer.trans same.streamBuffer⟩

theorem erase_sending {middle : Server} (buffer : middle.streamBuffer = server.streamBuffer)
    (btree : middle.btree = st') :
    Sending (erase (Client.size query)) middle [] failed fun _ final => final.btree = st' ∧
      final.streamBuffer = tail := by
  apply Sending.of_ran
  refine ran_modify.mpr ⟨rfl, (List.append_nil _).symm, btree, ?_⟩
  simp only
  rw [buffer, whole, List.drop_left' (Client.length_encode query)]

theorem acknowledge_erases {middle : Server} (buffer : middle.streamBuffer = server.streamBuffer)
    (btree : middle.btree = st') (fails : failed st')
    (statusCode : Nat) : Sending (do
        acknowledge environment statusCode query.command (LittleEndian.encode SIZEOF_KEY query.key)
        erase (Client.size query)) middle
          (reply query ⟨statusCode, LittleEndian.encode SIZEOF_KEY query.key⟩) failed
      fun _ final => final.btree = st' ∧ final.streamBuffer = tail := by
  have sent := (acknowledge_sending environment query statusCode middle (btree.symm ▸ fails)).bind
    fun _ final wrote =>
    erase_sending whole (wrote.streamBuffer.trans buffer) (wrote.btree.trans btree)
  rwa [List.append_nil] at sent

/-- A handler performs a query and sends the answer, unless the connection fails before. -/
def Handles (handler : ServerM Unit) (contents : Contents) (query : Query) (tail : List Byte)
    (server : Server) : Prop :=
  ∃ answer st', Fulfilled server.btree contents query answer st' ∧
    Sending handler server (reply query answer) (Continues 1 (contents.served [query]) server.btree)
      fun _ final =>
      final.btree = st' ∧ final.streamBuffer = tail

variable (upholds : Upholds server.btree contents) (addressable : Addressable server.btree)
include sendable upholds addressable

theorem handleSearch_handles (command : query.command = .search) :
    Handles (handleSearch environment) contents query tail server := by
  obtain ⟨⟨h, tree, resting⟩, small⟩ := upholds
  obtain ⟨stream, st₁, st₂, payload, reads⟩ := resting.reads addressable query.key
  have fulfilled := resting.search_fulfilled addressable small command reads
  refine ⟨_, st₂, fulfilled, ?_⟩
  have decoded : LittleEndian.decode (LittleEndian.encode SIZEOF_KEY query.key) = query.key :=
    LittleEndian.decode_encode_of_lt sendable.ready.key
  have stops : ∀ st, Accounted (h + 3) server.btree server.btree.ledger.held ∅ st → server.btree.Agrees st →
      Continues 1 (contents.served [query]) server.btree st := fun st accounted agrees =>
    resting.stops addressable small command accounted agrees
  apply sending_first_reads whole sendable
  intro header start total same
  simp only [total, decoded]
  have searched : Ran (BTree.search query.key) start.btree fun result st => result = stream ∧ st = st₁ :=
    (ran_of_eq (same.btree.symm ▸ reads.searched)).mpr ⟨rfl, rfl⟩
  apply Sending.silent (liftTree_sending searched)
  intro result found holds
  obtain ⟨⟨rfl, here⟩, buffer⟩ := holds
  have size : u32 (RESPONSE_HEADER_SIZE + payload.length) = RESPONSE_HEADER_SIZE + payload.length :=
    u32_eq fulfilled.performed.fits.1
  have response : reply query ⟨if result.isEOF then 4 else 1, payload⟩ =
      responseHeader (RESPONSE_HEADER_SIZE + payload.length) (if result.isEOF then 4 else 1) .search ++
        payload := by
    rw [reply, command]
  rw [reads.remaining, size, response]
  apply Sending.bind (writeExactlyNBytes_sending environment _ found
    (here ▸ stops st₁ reads.accounted reads.agrees))
  intro _ headed wrote
  have there : headed.btree = st₁ := wrote.btree.trans here
  have room : server.btree.ledger.held.card < h + 3 := by simp [resting.balanced.held]
  have sent := (sendPayload_sending environment payload.length headed (there ▸ reads.drained)
    (there ▸ reads.accounted)
    (there ▸ reads.agrees) room (resting.readable (.refl _))
      (reads.agrees.pages ▸ reads.grounded) stops).bind fun _ final holds =>
      erase_sending whole (holds.2.trans (wrote.streamBuffer.trans (buffer.trans same.streamBuffer))) holds.1
  rwa [List.append_nil] at sent

theorem handleInsert_handles (fresh : Fresh contents ([query].filterMap Query.operation))
    (command : query.command = .insert) :
    Handles (handleInsert environment) contents query tail server := by
  obtain ⟨answer, st', fulfilled⟩ := upholds.fulfilled addressable sendable fresh
  refine ⟨answer, st', fulfilled, ?_⟩
  have performed := fulfilled.performed
  simp only [Performed, command] at performed
  have decoded : LittleEndian.decode (LittleEndian.encode SIZEOF_KEY query.key) = query.key :=
    LittleEndian.decode_encode_of_lt sendable.ready.key
  have length := congrArg List.length whole
  rw [List.length_append, Client.length_encode] at length
  have bounded := sendable.answerable.2 command
  have small : ¬ (Client.size query > 20000 ∨ Client.size query < REQUEST_HEADER_SIZE) := by
    rw [Client.size] at bounded ⊢
    omega
  apply sending_first_reads whole sendable
  intro header start total same
  simp only [total, small, ite_false, decoded]
  apply Sending.silent (readStream_sending (by rw [same.streamBuffer, length, Client.size]; omega))
  intro payload middle holds
  obtain ⟨rfl, same'⟩ := holds
  have taken : (start.streamBuffer.drop REQUEST_HEADER_SIZE).take
      (Client.size query - REQUEST_HEADER_SIZE) = query.buffer := by
    obtain ⟨head, headed⟩ := Client.exists_headed query
    have size : query.buffer.length = Client.size query - REQUEST_HEADER_SIZE := by
      rw [Query.buffer, List.length_append, LittleEndian.length_encode, Client.size]
      omega
    rw [same.streamBuffer, whole, headed.request, List.append_assoc, List.drop_left' headed.length]
    exact List.take_left' size
  rw [taken]
  apply Sending.silent (liftTree_sending ((same'.btree.trans same.btree).symm ▸ performed))
  intro insertResult written holds
  obtain ⟨⟨rfl, here⟩, buffer⟩ := holds
  rw [← command]
  exact acknowledge_erases whole (buffer.trans (same'.streamBuffer.trans same.streamBuffer)) here
    fulfilled.continues _

theorem handleDelete_handles (command : query.command = .delete) :
    Handles (handleDelete environment) contents query tail server := by
  obtain ⟨answer, st', fulfilled⟩ :=
    upholds.fulfilled addressable sendable (by simp [Query.operation, command, Fresh, Admits])
  refine ⟨answer, st', fulfilled, ?_⟩
  have performed := fulfilled.performed
  simp only [Performed, command] at performed
  have decoded : LittleEndian.decode (LittleEndian.encode SIZEOF_KEY query.key) = query.key :=
    LittleEndian.decode_encode_of_lt sendable.ready.key
  apply sending_first_reads whole sendable
  intro header start total same
  simp only [total, decoded]
  apply Sending.silent (liftTree_sending (same.btree.symm ▸ performed))
  intro deleteResult deleted holds
  obtain ⟨⟨rfl, here⟩, buffer⟩ := holds
  rw [← command]
  exact acknowledge_erases whole (buffer.trans same.streamBuffer) here fulfilled.continues _

end Handlers

/-- What the answers to some queries are and what of them has been sent: all, or all but the end of
the last one. -/
structure Answered (whole : Prop) (contents : Contents) (queries : List Query) (st : BTree)
    (sent : List Byte) (st₁ : BTree) (answers : List Answer)
    (st' : BTree) : Prop where
  performs : Performs st queries answers st'
  expects : Expects contents queries answers
  before : sent <+: replies queries answers
  most : replies queries.dropLast answers.dropLast <+: sent
  all : whole → sent = replies queries answers ∧ st₁ = st'

/-- Some queries have been performed, and answered if the connection is whole. -/
structure Attended (whole : Prop) (contents : Contents) (queries : List Query) (server final : Server) :
    Prop where
  continues : Continues queries.length (contents.served queries) server.btree final.btree
  connected : final.connected = server.connected
  answered : ∃ sent answers st', final.sent = server.sent ++ sent ∧
    Answered whole contents queries server.btree sent final.btree answers st'

/-- Whatever a handler throws, only the connection ends. -/
theorem Handles.caught {handler : ServerM Unit} (handles : Handles handler contents query tail server) :
    Ran (caught handler) server fun ended final =>
      Attended (ended = false) contents [query] server final ∧
        (ended = false → final.streamBuffer = tail) := by
  obtain ⟨answer, st', fulfilled, sending⟩ := handles
  have performs : Performs server.btree [query] [answer] st' := .cons fulfilled.performed .nil
  have expects : Expects contents [query] [answer] := .cons fulfilled.expected .nil
  have all : replies [query] [answer] = reply query answer := by simp [replies]
  rw [ran_iff_after]
  apply after_tryCatch.mpr
  apply after_bind.mpr
  apply After.imp sending
  intro result final holds
  obtain ⟨connected, rest⟩ := holds
  cases result with
  | ok value =>
    obtain ⟨sent, rfl, buffer⟩ := rest
    refine after_pure.mpr ⟨false, rfl, ⟨fulfilled.continues, connected, ?_⟩, fun _ => buffer⟩
    exact ⟨_, _, _, all ▸ sent, performs, expects, List.prefix_refl _, List.nil_prefix, fun _ => ⟨rfl, rfl⟩⟩
  | error stop =>
    obtain ⟨continues, ⟨exception, rfl⟩, part, before, sent⟩ := rest
    refine after_pure.mpr ⟨true, rfl, ⟨continues, connected, ?_⟩, nofun⟩
    exact ⟨part, _, _, sent, performs, expects, all ▸ before, List.nil_prefix, nofun⟩

theorem dispatch_attends (whole : server.streamBuffer = Client.encode query ++ tail)
    (sendable : Sendable query)
    (upholds : Upholds server.btree contents) (addressable : Addressable server.btree)
    (fresh : Fresh contents ([query].filterMap Query.operation)) :
    Ran (dispatch environment (requestHeader query)) server fun ended final =>
      Attended (ended = false) contents [query] server final ∧
      (ended = false → final.streamBuffer = tail) ∧ (Responsive environment → ended = false) := by
  have attends : Ran (dispatch environment (requestHeader query)) server fun ended final =>
      Attended (ended = false) contents [query] server final ∧
        (ended = false → final.streamBuffer = tail) := by
    apply ran_bind.mpr
    apply ran_modify.mpr
    rw [command_requestHeader, Command.ofByte_toByte]
    have kept : ∀ {passes : List Pass} {handler : ServerM Unit},
      Handles handler contents query tail { server with passes } →
        Ran (caught handler) { server with passes } fun ended final =>
          Attended (ended = false) contents [query] server final ∧
          (ended = false → final.streamBuffer = tail) := by
      intro passes handler handles
      apply handles.caught.imp
      intro ended final both
      exact ⟨⟨both.1.continues, both.1.connected, both.1.answered⟩, both.2⟩
    cases command : query.command with
    | invalid => exact absurd command sendable.ready.command
    | quit => exact absurd command sendable.answerable.1
    | search =>
      apply kept
      exact handleSearch_handles whole sendable upholds addressable command
    | insert =>
      apply kept
      exact handleInsert_handles whole sendable upholds addressable fresh command
    | delete =>
      apply kept
      exact handleDelete_handles whole sendable upholds addressable command
  obtain ⟨ended, final, returned, attended, buffer⟩ := attends
  refine ⟨ended, final, returned, attended, buffer, fun responsive => ?_⟩
  obtain ⟨answer, st', fulfilled⟩ := upholds.fulfilled addressable sendable fresh
  exact ((dispatch_replied whole sendable responsive fulfilled.performed).elim returned).1

end Datashil
