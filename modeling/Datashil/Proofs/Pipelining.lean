import Datashil.Proofs.Serving

/-! Many requests in one stream. However the stream is cut on its way to the server and the responses on
their way back, every request is performed once, in order, and answered. -/

namespace Datashil
open Library Server

variable {environment : Environment} {server : Server} {query : Query} {queries : List Query}
    {answers : List Answer} {st st' : BTree}
  {fuel : Nat}

/-! ### The server -/

def replies (queries : List Query) (answers : List Answer) : List Byte :=
  (List.zipWith reply queries answers).flatten

/-- Some of the queries have been answered; the beginning of what is left may have arrived. -/
structure Progress (queries : List Query) (answers : List Answer) (st' : BTree) (rest : List Byte)
    (server final : Server) : Prop where
  ahead : ∃ later answers', later <:+ queries ∧ Performs final.btree later answers' st' ∧
    final.streamBuffer ++ rest = later.flatMap Client.encode ∧ (rest = [] → later = []) ∧
    ∃ sent, final.sent = server.sent ++ sent ∧ sent ++ replies later answers' = replies queries answers
  connected : final.connected = server.connected

theorem Progress.cons {answer : Answer} {rest : List Byte} {middle final : Server} {tail : List Byte}
    {next : BTree}
    (replied : Replied query answer next tail server middle)
    (progress : Progress queries answers st' rest middle final) :
    Progress (query :: queries) (answer :: answers) st' rest server final := by
  obtain ⟨⟨later, answers', suffix, performs, parts, ended, sent, whole, split⟩, connected⟩ := progress
  refine ⟨⟨later, answers', suffix.trans (List.suffix_cons _ _), performs, parts, ended,
    reply query answer ++ sent, ?_, ?_⟩,
    connected.trans replied.connected⟩
  · rw [whole, replied.sent, List.append_assoc]
  · rw [List.append_assoc, split]
    rfl

/-- The loop over the stream buffer answers every query of which all has arrived. -/
theorem innerLoop_performs {rest : List Byte} (responsive : Responsive environment)
    (sendable : ∀ query ∈ queries, Sendable query)
    (performs : Performs server.btree queries answers st')
    (parts : server.streamBuffer ++ rest = queries.flatMap Client.encode)
    (enough : queries.length < fuel) :
    Ran (innerLoop environment fuel) server fun ended final => ended = false ∧
      Progress queries answers st' rest server final := by
  induction fuel generalizing server queries answers with
  | zero => cases enough
  | succ fuel ih =>
    cases performs with
    | nil =>
      obtain ⟨empty, none⟩ := List.append_eq_nil_iff.mp parts
      rw [innerLoop, ran_bind, ran_get]
      simp only [empty, List.length_nil, REQUEST_HEADER_SIZE, Nat.zero_lt_succ, ite_true]
      refine ran_pure.mpr ⟨rfl, ⟨[], [], List.suffix_refl _, .nil, ?_, fun _ => rfl, [], ?_, rfl⟩, rfl⟩
      · rw [empty, none]
        rfl
      · exact (List.append_nil _).symm
    | @cons _ middle _ query answer queries answers performed later =>
      have here := sendable query (.head _)
      rw [List.flatMap_cons] at parts
      by_cases complete : Client.size query ≤ server.streamBuffer.length
      · obtain ⟨tail, whole, after⟩ : ∃ tail, server.streamBuffer = Client.encode query ++ tail ∧
          tail ++ rest = queries.flatMap Client.encode := by
          rw [← Client.length_encode] at complete
          cases List.append_eq_append_iff.mp parts with
          | inl short =>
            obtain ⟨missing, request, -⟩ := short
            have length := congrArg List.length request
            rw [List.length_append] at length
            have none : missing = [] := List.length_eq_zero_iff.mp (by omega)
            rw [none, List.append_nil] at request
            rw [request] at parts
            exact ⟨[], by rw [request, List.append_nil], List.append_cancel_left parts⟩
          | inr long =>
            obtain ⟨tail, whole, after⟩ := long
            exact ⟨tail, whole, after.symm⟩
        rw [ran_iff_after]
        apply (innerLoop_request here.counted whole).mpr
        apply after_bind.mpr
        apply after_of_ran
        apply (dispatch_replied whole here responsive performed).imp
        intro ended replying holds
        obtain ⟨same, replied⟩ := holds
        subst same
        simp only [Bool.false_eq_true, ite_false]
        rw [← ran_iff_after]
        rw [← replied.btree] at later
        rw [← replied.streamBuffer] at after
        apply (ih (fun query member => sendable query (.tail _ member)) later after
          (Nat.lt_of_succ_lt_succ enough)).imp
        intro ended final holds
        obtain ⟨same, progress⟩ := holds
        exact ⟨same, progress.cons replied⟩
      · obtain ⟨missing, request, after⟩ : ∃ missing, server.streamBuffer ++ missing = Client.encode query ∧
            rest = missing ++ queries.flatMap Client.encode := by
          rw [← Client.length_encode] at complete
          cases List.append_eq_append_iff.mp parts with
          | inl short =>
            obtain ⟨missing, request, after⟩ := short
            exact ⟨missing, request.symm, after⟩
          | inr long =>
            obtain ⟨tail, whole, -⟩ := long
            rw [whole, List.length_append] at complete
            exact absurd (Nat.le_add_right _ _) complete
        have some_missing : missing ≠ [] := by
          intro none
          rw [none, List.append_nil] at request
          rw [request, Client.length_encode] at complete
          exact complete (Nat.le_refl _)
        rw [ran_iff_after]
        apply (innerLoop_underway here.counted request some_missing).mpr
        refine ⟨false, rfl, rfl, ⟨query :: queries, answer :: answers, List.suffix_refl _,
          .cons performed later, parts, ?_, [], ?_, rfl⟩, rfl⟩
        · intro none
          rw [none] at after
          exact absurd (List.append_eq_nil_iff.mp after.symm).1 some_missing
        · exact (List.append_nil _).symm

theorem readLoop_performs {deliveries : List Delivery} {rest : List Byte}
    (delivers : Delivers deliveries rest) (responsive : Responsive environment)
    (sendable : ∀ query ∈ queries, Sendable query) (performs : Performs server.btree queries answers st')
    (parts : server.streamBuffer ++ rest = queries.flatMap Client.encode)
    (ended : rest = [] → queries = []) (enough : queries.length < fuel) :
    Ran (readLoop environment fuel deliveries) server fun exit final => exit = .waiting ∧
      final.btree = st' ∧ final.streamBuffer = [] ∧
      final.sent = server.sent ++ replies queries answers ∧ final.connected = server.connected := by
  induction delivers generalizing server queries answers with
  | nil =>
    have none := ended rfl
    subst none
    cases performs
    rw [readLoop, ran_pure]
    exact ⟨rfl, rfl, (List.append_eq_nil_iff.mp parts).1, (List.append_nil _).symm, rfl⟩
  | interrupted delivers ih => exact ih sendable performs parts ended enough
  | @bytes deliveries chunk rest some_bytes fits delivers ih =>
    rw [← List.append_assoc] at parts
    rw [readLoop, ran_bind, ran_modify, ran_bind]
    apply (@innerLoop_performs environment { server with streamBuffer := server.streamBuffer ++ chunk }
      queries answers st' fuel rest
      responsive sendable performs parts enough).imp
    intro stopped middle holds
    obtain ⟨same, progress⟩ := holds
    subst same
    obtain ⟨⟨later, answers', suffix, performs, parts, ended, sent, whole, split⟩, connected⟩ := progress
    simp only [Bool.false_eq_true, ite_false]
    apply (ih (fun query member => sendable query (suffix.subset member)) performs parts ended
      (Nat.lt_of_le_of_lt suffix.length_le enough)).imp
    intro exit final holds
    obtain ⟨waiting, btree, empty, sent', connected'⟩ := holds
    refine ⟨waiting, btree, empty, ?_, connected'.trans connected⟩
    rw [sent', whole, List.append_assoc, split]

theorem handleClient_performs {deliveries : List Delivery}
    (delivers : Delivers deliveries (queries.flatMap Client.encode))
    (responsive : Responsive environment) (sendable : ∀ query ∈ queries, Sendable query)
    (performs : Performs server.btree queries answers st')
    (enough : queries.length < fuel) :
    Ran (handleClient environment fuel deliveries) server fun exit final => exit = .waiting ∧
      final.btree = st' ∧ final.streamBuffer = [] ∧
      final.sent = server.sent ++ replies queries answers ∧ final.connected = server.connected := by
  have ended : queries.flatMap Client.encode = [] → queries = [] := by
    intro none
    cases queries with
    | nil => rfl
    | cons query queries =>
      have length := congrArg List.length none
      rw [List.flatMap_cons, List.length_append, Client.length_encode, Client.size, List.length_nil] at length
      simp only [REQUEST_HEADER_SIZE] at length
      omega
  rw [handleClient, ran_bind, ran_modify]
  exact @readLoop_performs environment { server with streamBuffer := [], passes := [] } queries answers
    st' fuel deliveries _ delivers responsive
    sendable performs rfl ended enough

/-! ### The client -/

/-- Calls of `read` that return bytes, as many of them as there are bytes to read. The others are
interrupted. -/
def Suffice (reads : List Nat) (n : Nat) : Prop := n ≤ reads.countP (0 < ·)

/-- However the bytes come in, the loop takes those it was asked for. -/
theorem readExactlyNBytes_spec (reads : List Nat) (n : Nat) (stream : List Byte)
    (arrived : n ≤ stream.length) (enough : Suffice reads n) :
    ∃ later, Client.readExactlyNBytes reads n stream = some (stream.take n, later, stream.drop n) ∧
      ∀ more, Suffice reads (n + more) → Suffice later more := by
  induction reads generalizing n stream with
  | nil =>
    obtain rfl : n = 0 := Nat.le_zero.mp enough
    exact ⟨[], rfl, fun more suffice => by rwa [Nat.zero_add] at suffice⟩
  | cons count reads ih =>
    cases n with
    | zero => exact ⟨count :: reads, rfl, fun more suffice => by rwa [Nat.zero_add] at suffice⟩
    | succ n =>
      have size : (stream.take (min count (min (n + 1) 1024))).length = min count (min (n + 1) 1024) := by
        rw [List.length_take]
        omega
      have left : ∀ more, Suffice (count :: reads) (n + 1 + more) →
          Suffice reads (n + 1 - min count (min (n + 1) 1024) + more) := by
        intro more suffice
        simp only [Suffice, List.countP_cons, decide_eq_true_eq] at suffice ⊢
        split at suffice <;> omega
      obtain ⟨later, read, suffice⟩ :=
        ih (n + 1 - min count (min (n + 1) 1024)) (stream.drop (min count (min (n + 1) 1024)))
        (by rw [List.length_drop]; omega) (left 0 enough)
      refine ⟨later, ?_, fun more enough => suffice more (left more enough)⟩
      have taken : min count (min (n + 1) 1024) + (n + 1 - min count (min (n + 1) 1024)) = n + 1 := by omega
      simp only [Client.readExactlyNBytes, size, read, Option.map_some, List.drop_drop, taken]
      rw [← List.take_add, taken]

/-- A complete response is taken off the stream; what follows it is left. -/
theorem Complete.receive {bytes : List Byte} (complete : Complete query.command bytes) (rest : List Byte)
    (small : bytes.length < 18446744073709551616) {reads : List Nat} (enough : Suffice reads bytes.length) :
    ∃ later, Client.receive query reads (bytes ++ rest) =
        some (.response (ResponseHeader.decode (bytes.take RESPONSE_HEADER_SIZE))
          (bytes.drop RESPONSE_HEADER_SIZE), later, rest) ∧
      ∀ more, Suffice reads (bytes.length + more) → Suffice later more := by
  have long := complete.long
  have split : RESPONSE_HEADER_SIZE + (bytes.length - RESPONSE_HEADER_SIZE) = bytes.length := by omega
  have arrived : RESPONSE_HEADER_SIZE ≤ (bytes ++ rest).length := by
    rw [List.length_append]
    omega
  obtain ⟨middle, header, left⟩ := readExactlyNBytes_spec reads _ _ arrived (Nat.le_trans long enough)
  rw [List.take_append_of_le_length long, List.drop_append_of_le_length long] at header
  have length : (bytes.drop RESPONSE_HEADER_SIZE).length = bytes.length - RESPONSE_HEADER_SIZE :=
    List.length_drop
  have arrived : bytes.length - RESPONSE_HEADER_SIZE ≤ (bytes.drop RESPONSE_HEADER_SIZE ++ rest).length := by
    rw [List.length_append, length]
    omega
  obtain ⟨later, payload, left'⟩ := readExactlyNBytes_spec middle _ _ arrived (left _ (split.symm ▸ enough))
  rw [List.take_left' length, List.drop_left' length] at payload
  refine ⟨later, ?_, fun more suffice => left' more (left _ ?_)⟩
  · simp only [Client.receive, header, Option.bind_eq_bind, Option.bind_some, complete.magicNumber,
      complete.echoCommand, complete.checksum,
      complete.bytesToRead small, payload, ne_eq, not_true_eq_false, or_self, ite_false, Bool.not_true,
        Bool.false_eq_true]
    rfl
  · rwa [← Nat.add_assoc, split]

/-- What the client shows for a query: the echo of its command, the status and the payload of its
answer. -/
def Recovers (query : Query) (answer : Answer) (reply : Client.Reply) : Prop :=
  ∃ header, reply = .response header answer.payload ∧ header.echoCommand = query.command.toByte ∧
    header.statusCode = answer.statusCode

theorem Performed.recovers {answer : Answer} (performed : Performed st query answer st') :
    Recovers query answer (.response (ResponseHeader.decode ((reply query answer).take RESPONSE_HEADER_SIZE))
      ((reply query answer).drop RESPONSE_HEADER_SIZE)) := by
  have length := length_responseHeader (RESPONSE_HEADER_SIZE + answer.payload.length) answer.statusCode
    query.command
  obtain ⟨checksum, decoded⟩ := decode_responseHeader performed.fits.1 performed.fits.2 query.command
  rw [reply, List.take_left' length, List.drop_left' length, decoded]
  exact ⟨_, rfl, rfl, rfl⟩

theorem Performs.receiveAll (performs : Performs st queries answers st') (rest : List Byte) {reads : List Nat}
    (enough : Suffice reads (replies queries answers).length) :
    ∃ shown later, Client.receiveAll queries reads (replies queries answers ++ rest) =
      some (shown, later, rest) ∧
      List.Forall₂ (fun asked reply => Recovers asked.1 asked.2 reply) (queries.zip answers) shown := by
  induction performs generalizing reads with
  | nil => exact ⟨[], reads, rfl, .nil⟩
  | @cons st middle st' query answer queries answers performed performs ih =>
    have parts : replies (query :: queries) (answer :: answers) = reply query answer ++
        replies queries answers :=
      rfl
    rw [parts, List.length_append] at enough
    have small : (reply query answer).length < 18446744073709551616 := by
      have fits := performed.fits.1
      rw [reply, List.length_append, length_responseHeader]
      omega
    obtain ⟨middle, received, left⟩ := performed.complete.receive (replies queries answers ++ rest) small
      (Nat.le_trans (Nat.le_add_right _ _) enough)
    obtain ⟨shown, later, all, recovers⟩ := ih (left _ enough)
    refine ⟨_ :: shown, later, ?_, .cons performed.recovers recovers⟩
    rw [parts, List.append_assoc]
    simp only [Client.receiveAll, received, all, Option.bind_eq_bind, Option.bind_some]
    rfl

/-! ### Both sides -/

/-- The operations of some queries return one after the other, up to one that finds no page ids. -/
theorem Served.performs (served : Served st) (queries : List Query)
    (sendable : ∀ query ∈ queries, Sendable query) :
    ∃ first later answers st', queries = first ++ later ∧ Performs st first answers st' ∧
      ∀ query ∈ later.head?, ¬ Manageable st' query := by
  induction queries generalizing st with
  | nil => exact ⟨[], [], [], st, rfl, .nil, nofun⟩
  | cons query queries ih =>
    by_cases manageable : Manageable st query
    · have here := sendable query (.head _)
      obtain ⟨answer, middle, performed, served⟩ := served.performed manageable here.ready here.answerable
      obtain ⟨first, later, answers, st', split, performs, stopped⟩ :=
        ih served fun query member => sendable query (.tail _ member)
      exact ⟨query :: first, later, answer :: answers, st', congrArg (query :: ·) split,
        .cons performed performs, stopped⟩
    · refine ⟨[], query :: queries, [], st, rfl, .nil, fun other same => ?_⟩
      cases same
      exact manageable

/-- However requests are cut on their way, the server performs them once each and in order, and is
left with an empty stream buffer. However its responses are cut, the client recovers the answers.
The operations of a new tree do return while there are page ids. -/
theorem requests_round_trip :
    (∀ environment server queries answers st' deliveries fuel, Responsive environment →
      (∀ query ∈ queries, Sendable query) →
      Performs server.btree queries answers st' → Delivers deliveries (queries.flatMap Client.encode) →
        queries.length < fuel →
        Ran (handleClient environment fuel deliveries) server fun exit final =>
          exit = .waiting ∧ final.btree = st' ∧ final.streamBuffer = [] ∧ ∃ bytes,
            final.sent = server.sent ++ bytes ∧
            ∀ reads, Suffice reads bytes.length → ∃ shown later,
              Client.receiveAll queries reads bytes = some (shown, later, []) ∧
              List.Forall₂ (fun asked reply => Recovers asked.1 asked.2 reply) (queries.zip answers) shown) ∧
    ∀ st queries, BTree.construct BTree.bootstrapped = .ok () st → (∀ query ∈ queries, Sendable query) →
      ∃ first later answers st', queries = first ++ later ∧ Performs st first answers st' ∧
        ∀ query ∈ later.head?, ¬ Manageable st' query := by
  constructor
  · intro environment server queries answers st' deliveries fuel responsive sendable performs delivers enough
    apply (handleClient_performs delivers responsive sendable performs enough).imp
    intro exit final holds
    obtain ⟨waiting, btree, empty, sent, _⟩ := holds
    refine ⟨waiting, btree, empty, replies queries answers, sent, fun reads suffice => ?_⟩
    have received := performs.receiveAll [] suffice
    rwa [List.append_nil] at received
  · intro st queries constructed sendable
    have stores := (construct_spec Loose trivial).elim constructed
    exact Served.performs ⟨0, _, [], stores, nofun⟩ queries sendable

theorem delivers_cut (bytes : List Byte) (n : Nat) (before : bytes.take n ≠ [])
    (few : (bytes.take n).length ≤ 1024) (behind : bytes.drop n ≠ [])
    (rest : (bytes.drop n).length ≤ 1024) :
    Delivers [.interrupted, .bytes (bytes.take n), .interrupted, .bytes (bytes.drop n)] bytes := by
  have pieces := Delivers.bytes before few (.interrupted (.bytes behind rest .nil))
  rw [List.append_nil, List.take_append_drop] at pieces
  exact .interrupted pieces

def deleteQuery : Query := ⟨true, .delete, 7, []⟩

set_option synthInstance.maxSize 1000 in
/-- Three requests, cut in the middle of a header: an insertion, a search that yields a payload, and
a deletion. -/
theorem requests_round_trip_three : ∃ server answers st' deliveries,
    Performs server.btree [insertQuery, searchQuery, deleteQuery] answers st' ∧
    Delivers deliveries ([insertQuery, searchQuery, deleteQuery].flatMap Client.encode) ∧
      Ran (handleClient attentive 4 deliveries) server fun exit final =>
        exit = .waiting ∧ final.btree = st' ∧ final.streamBuffer = [] ∧ ∃ bytes,
          final.sent = server.sent ++ bytes ∧
          ∀ reads, Suffice reads bytes.length → ∃ shown later,
            Client.receiveAll [insertQuery, searchQuery, deleteQuery] reads bytes = some (shown, later, []) ∧
              List.Forall₂ (fun asked reply => Recovers asked.1 asked.2 reply)
                ([insertQuery, searchQuery, deleteQuery].zip answers) shown := by
  have runs : Ran bootstrap launched fun _ server =>
    Ran (BTree.insert insertQuery.buffer 7) server.btree fun _ inserted =>
      Ran (BTree.search 7) inserted fun stream found =>
        Ran (stream.drain (.replicate stream.payloadRemaining 1024)) found fun result drained =>
        (result.2.isEOF = true ∧ result.1.length = stream.payloadRemaining ∧
          RESPONSE_HEADER_SIZE + result.1.length < 4294967296) ∧
          Ran (BTree.delete (fun _ => 0) 7) drained fun _ _ => True := by
    decide +kernel
  obtain ⟨_, server, -, _, inserted, stored, stream, found, searched, result, drained, yields, whole, _,
      st', deleted, -⟩ :=
    runs
  obtain ⟨eof, length, fits⟩ := whole
  have first : Performed server.btree insertQuery _ inserted := ⟨_, inserted, stored, rfl, rfl⟩
  have second : Performed inserted searchQuery _ drained :=
    ⟨stream, found, searched, result, drained, yields, eof, length, fits, rfl, rfl⟩
  have third : Performed drained deleteQuery _ st' := ⟨_, st', deleted, rfl, rfl⟩
  have performs := Performs.cons first (.cons second (.cons third .nil))
  have sendable : ∀ query ∈ [insertQuery, searchQuery, deleteQuery], Sendable query := by
    intro query member
    rcases (by simpa using member : query = insertQuery ∨ query = searchQuery ∨ query = deleteQuery)
      with rfl | rfl | rfl
    · exact ⟨⟨by decide, by decide⟩, by decide, by decide, fun _ => by decide⟩
    · exact ⟨⟨by decide, by decide⟩, by decide, by decide, nofun⟩
    · exact ⟨⟨by decide, by decide⟩, by decide, by decide, nofun⟩
  have delivers := delivers_cut ([insertQuery, searchQuery, deleteQuery].flatMap Client.encode) 33
    (by decide +kernel) (by decide +kernel)
    (by decide +kernel) (by decide +kernel)
  exact ⟨server, _, st', _, performs, delivers,
    requests_round_trip.1 attentive server _ _ st' _ 4 responsive_attentive sendable performs delivers
      (by decide)⟩

end Datashil
