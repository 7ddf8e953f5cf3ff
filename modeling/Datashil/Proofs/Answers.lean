import Datashil.Proofs.AnyKeys
import Datashil.Proofs.Requests

/-! Single queries on a server whose tree only requests have changed: how they arrive, and how they
are answered. -/

namespace Datashil
open Library Server

variable {environment : Environment} {server : Server} {query : Query}

/-! ### Arrival -/

section Arrival
variable {fuel : Nat}

theorem readLoop_nothing {deliveries : List Delivery} (delivers : Delivers deliveries [])
    {post : Except Stop Exit → Server → Prop} :
    After (readLoop environment fuel deliveries) server post ↔ post (.ok .waiting) server := by
  generalize none : ([] : List Byte) = bytes at delivers
  induction delivers with
  | nil => exact after_pure
  | interrupted delivers ih => exact ih none
  | bytes some_bytes fits delivers ih =>
    cases List.append_eq_nil_iff.mp none.symm |>.1
    exact absurd rfl some_bytes

/-- A request on its way, in any pieces: the server looks at it when all of it is there. -/
theorem readLoop_request {deliveries : List Delivery} {rest : List Byte}
    (counted : Client.size query < 4294967296)
    (parts : server.streamBuffer ++ rest = Client.encode query) (missing : rest ≠ [])
    (delivers : Delivers deliveries rest)
    {post : Except Stop Exit → Server → Prop}
    (arrived : After (innerLoop environment (fuel + 1))
      { server with streamBuffer := Client.encode query } fun result final =>
      match result with
      | .ok true => post (.ok .returned) final
      | .ok false => post (.ok .waiting) final
      | .error stop => post (.error stop) final) :
    After (readLoop environment (fuel + 1) deliveries) server post := by
  induction delivers generalizing server with
  | nil => exact absurd rfl missing
  | interrupted delivers ih => exact ih parts missing arrived
  | @bytes deliveries chunk rest some_bytes fits delivers ih =>
    rw [← List.append_assoc] at parts
    rw [readLoop]
    apply after_bind.mpr
    apply after_modify.mpr
    apply after_bind.mpr
    by_cases more : rest = []
    · subst more
      rw [List.append_nil] at parts
      rw [parts]
      apply arrived.imp
      intro result final holds
      cases result with
      | error stop => exact holds
      | ok ended =>
        cases ended with
        | true => exact after_pure.mpr holds
        | false => exact (readLoop_nothing delivers).mpr holds
    · exact (innerLoop_underway counted parts more).mpr (ih parts more arrived)

end Arrival

/-! ### Handlers -/

/-- A tree that requests have been made of. Its keys may be out of order, where some have been
inserted more than once. -/
def Served (st : BTree) : Prop :=
  ∃ (h : Nat) (tree : Tree h) (payloads : List (List Byte)), Stores Loose st tree payloads ∧
    ∀ payload ∈ payloads, payload.length ≤ 20000

/-- A query that the server can handle in its current state: page ids have not run out, and the
length of the request fits its field. -/
structure Manageable (st : BTree) (query : Query) : Prop where
  addressable : Addressable st
  counted : Client.size query < 4294967296

/-- The server has answered a query and is ready for the next one. -/
structure Answers (query : Query) (server final : Server) : Prop where
  reply : ∃ reply, Complete query.command reply ∧ final.sent = server.sent ++ reply
  connected : final.connected = server.connected
  emptied : final.streamBuffer = []
  served : Served final.btree

/-- A search finds a payload or nothing, and yields all of it while there are page ids. -/
theorem Served.search {st : BTree} (served : Served st) (key : Nat) :
    Ran (BTree.search key) st fun stream st' => Served st' ∧ st.Agrees st' ∧
      (Addressable st' → ∃ payload, payload.length ≤ 20000 ∧
        stream.Yields st'.pages st'.newPageOffsetIndex payload) := by
  obtain ⟨h, tree, payloads, stores, small⟩ := served
  apply (stores.searches key).imp
  intro stream st' searched
  obtain ⟨agrees, found⟩ := searched
  refine ⟨⟨h, tree, payloads, stores.agrees agrees, small⟩, agrees, ?_⟩
  rw [Addressable, agrees.pages, agrees.counter]
  intro addressable
  rcases found with ⟨_, _, _, _, nothing⟩ | ⟨payload, member, -, yields⟩
  · exact ⟨[], Nat.zero_le _, nothing⟩
  · exact ⟨payload, small payload member, yields addressable⟩

theorem Served.insert {st : BTree} (served : Served st) {buffer : List Byte} {key : Nat}
    (storable : Storable buffer key)
    (small : buffer.length ≤ 20000) : Ran (BTree.insert buffer key) st fun _ st' => Served st' := by
  obtain ⟨h, tree, payloads, stores, bounded⟩ := served
  apply (insert_any stores storable).imp
  intro _ st' inserted
  obtain ⟨-, h', tree', payloads', -, perm, stores'⟩ := inserted
  refine ⟨h', tree', payloads', stores', fun payload member => ?_⟩
  cases List.mem_cons.mp (perm.mem_iff.mp member) with
  | inl here => exact here ▸ small
  | inr before => exact bounded payload before

theorem Served.delete {st : BTree} (served : Served st) (key : Nat) :
    Ran (BTree.delete (fun _ => 0) key) st fun _ st' => Served st' := by
  obtain ⟨h, tree, payloads, stores, bounded⟩ := served
  apply (delete_any stores key).imp
  intro _ st' deleted
  obtain ⟨-, h', tree', gone, kept, -, perm, -, stores'⟩ := deleted
  exact ⟨h', tree', kept, stores', fun payload member =>
    bounded payload (perm.mem_iff.mp (List.mem_append_right _ member))⟩

theorem Served.agrees {st st' : BTree} (served : Served st) (agrees : st.Agrees st') : Served st' := by
  obtain ⟨h, tree, payloads, stores, small⟩ := served
  exact ⟨h, tree, payloads, stores.agrees agrees, small⟩

/-- What a query asks for is done, and the answer is read to its end. -/
theorem Served.performed {st : BTree} (served : Served st) (manageable : Manageable st query)
    (ready : Parser.Ready query)
    (answerable : Answerable query) : ∃ answer st', Performed st query answer st' ∧ Served st' := by
  have decoded : LittleEndian.decode (LittleEndian.encode SIZEOF_KEY query.key) = query.key :=
    LittleEndian.decode_encode_of_lt ready.key
  cases command : query.command with
  | invalid => exact absurd command ready.command
  | quit => exact absurd command answerable.1
  | search =>
    obtain ⟨stream, found, searched, served', agrees, yielding⟩ := served.search query.key
    obtain ⟨payload, small, yields⟩ :=
      yielding (Nat.le_trans (Nat.le_of_eq agrees.counter) manageable.addressable)
    have remaining : stream.payloadRemaining = payload.length := by
      rw [PayloadStream.payloadRemaining, yields.total]
      omega
    have enough : payload.length ≤ (List.replicate payload.length 1024).sum := by
      rw [List.sum_replicate_nat]
      exact Nat.le_mul_of_pos_right _ (Nat.zero_lt_succ _)
    obtain ⟨result, final, drained, kept, same, eof⟩ := PayloadStream.drain_spec _ yields enough
    refine ⟨⟨if stream.isEOF then 4 else 1, result.1⟩, final, ?_, served'.agrees kept⟩
    simp only [Performed, command]
    refine ⟨stream, found, searched, result, final, remaining ▸ drained, eof, ?_, ?_, rfl, rfl⟩
    · rw [same, remaining]
    · rw [same]
      simp only [RESPONSE_HEADER_SIZE]
      omega
  | insert =>
    have long : query.buffer.length = SIZEOF_KEY + query.payload.flatten.length := by
      rw [Query.buffer, List.length_append, LittleEndian.length_encode]
    have bounded := answerable.2 command
    have storable : Storable query.buffer query.key := by
      refine ⟨by omega, ?_, ?_⟩
      · simp only [Client.size, REQUEST_HEADER_SIZE, SLOT_SIZE, TUPLE_HEADER_SIZE] at bounded ⊢
        omega
      · rw [payloadKey, Query.buffer, List.take_left' (LittleEndian.length_encode _ _), decoded]
    have fits : query.buffer.length ≤ 20000 := by
      rw [Client.size] at bounded
      omega
    obtain ⟨result, final, inserted, served⟩ := served.insert storable fits
    refine ⟨⟨if result then 1 else 0, LittleEndian.encode SIZEOF_KEY query.key⟩, final, ?_, served⟩
    simp only [Performed, command]
    exact ⟨result, final, inserted, rfl, rfl⟩
  | delete =>
    obtain ⟨result, final, deleted, served⟩ := served.delete query.key
    refine ⟨⟨if result then 1 else 4, LittleEndian.encode SIZEOF_KEY query.key⟩, final, ?_, served⟩
    simp only [Performed, command]
    exact ⟨result, final, deleted, rfl, rfl⟩

/-! ### Dispatch -/

theorem dispatch_answers (whole : server.streamBuffer = Client.encode query)
    (manageable : Manageable server.btree query)
    (ready : Parser.Ready query) (responsive : Responsive environment) (served : Served server.btree)
    (answerable : Answerable query) :
    Ran (dispatch environment (requestHeader query)) server fun ended final => ended = false ∧
      Answers query server final := by
  obtain ⟨answer, st', performed, served⟩ := served.performed manageable ready answerable
  have alone : server.streamBuffer = Client.encode query ++ [] := whole.trans (List.append_nil _).symm
  apply (dispatch_replied alone ⟨ready, manageable.counted, answerable⟩ responsive performed).imp
  intro ended final holds
  obtain ⟨same, replied⟩ := holds
  exact ⟨same, ⟨_, performed.complete, replied.sent⟩, replied.connected, replied.streamBuffer,
    replied.btree ▸ served⟩

/-- The server has given up on a query: nothing has been sent or changed, and nothing closed. -/
structure Refuses (server final : Server) : Prop where
  sent : final.sent = server.sent
  connected : final.connected = server.connected
  btree : final.btree = server.btree

theorem dispatch_refuses (whole : server.streamBuffer = Client.encode query)
    (counted : Client.size query < 4294967296)
    (ready : Parser.Ready query) (refused : ¬ Answerable query) :
    After (dispatch environment (requestHeader query)) server fun result final => result = .ok true ∧
      Refuses server final := by
  apply after_bind.mpr
  apply after_modify.mpr
  rw [command_requestHeader, Command.ofByte_toByte]
  cases command : query.command with
  | invalid => exact absurd command ready.command
  | quit => exact after_pure.mpr ⟨rfl, rfl, rfl, rfl⟩
  | search => exact absurd ⟨by simp [command], by simp [command]⟩ refused
  | delete => exact absurd ⟨by simp [command], by simp [command]⟩ refused
  | insert =>
    have large : Client.size query > 20000 := by
      apply Nat.lt_of_not_le
      exact fun small => refused ⟨by simp [command], fun _ => small⟩
    have total : ∀ bytes : List Byte, bytes = (Client.encode query).take REQUEST_HEADER_SIZE →
        (RequestHeader.decode bytes).totalLength > 20000 := by
      obtain ⟨head, headed⟩ := Client.exists_headed query
      obtain ⟨checksum, decoded⟩ := headed.decoded
      rintro bytes rfl
      rw [headed.request, List.take_left' headed.length, decoded]
      simp only [Client.totalLength_eq, u32_eq counted]
      exact large
    have arrived : ∀ call, (List.range REQUEST_HEADER_SIZE).map (fun i =>
        server.streamBuffer.getD (0 + i) (environment.beyond call (0 + i))) =
          (Client.encode query).take REQUEST_HEADER_SIZE := by
      intro call
      rw [@read_arrived _ _ _ (environment.beyond call)
        (by rw [whole, Client.length_encode, Client.size]; omega), List.drop_zero, whole]
    apply after_tryCatch.mpr
    apply after_bind.mpr
    rw [handleInsert]
    apply after_bind.mpr
    apply after_readStream.mpr
    apply after_bind.mpr
    apply after_readStream.mpr
    simp only
    rw [if_pos (.inl (total _ (arrived _)))]
    apply after_throw.mpr
    exact after_pure.mpr ⟨rfl, rfl, rfl, rfl⟩

end Datashil
