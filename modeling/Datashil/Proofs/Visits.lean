import Datashil.Proofs.Writes

/-! One connection, from the first byte to the last. The client may leave at any time, also in the
middle of a request. -/

namespace Datashil
open Library Server

/-- What may follow the queries of a client: part of a request, bytes that do not look like a request,
or a request to quit. -/
inductive Trailing : List Byte → Prop
  | parted {query : Query} {rest missing : List Byte} (counted : Client.size query < 4294967296)
      (parts : rest ++ missing = Client.encode query)
      (unfinished : missing ≠ []) : Trailing rest
  | malformed {rest : List Byte} (long : REQUEST_HEADER_SIZE ≤ rest.length)
      (wrong : (RequestHeader.decode (rest.take REQUEST_HEADER_SIZE)).magicNumber ≠ NETWORK_MAGIC_NUMBER ∨
        Utils.verifyChecksum (rest.take REQUEST_HEADER_SIZE) = false) : Trailing rest
  | quit {query : Query} {rest : List Byte} (counted : Client.size query < 4294967296)
      (command : query.command = .quit) :
      Trailing (Client.encode query ++ rest)

/-- The queries of a client that the server gets to see as a whole, and how everything comes in. -/
structure Visit where
  queries : List Query
  deliveries : List Delivery

structure Visit.Proper (visit : Visit) : Prop where
  sendable : ∀ query ∈ visit.queries, Sendable query
  arrives : ∃ rest, Trailing rest ∧ Delivers visit.deliveries (visit.queries.flatMap Client.encode ++ rest)

variable {environment : Environment} {server : Server} {query : Query} {queries : List Query}
    {answers : List Answer} {st st' : BTree}
  {contents : Contents} {deliveries : List Delivery} {rest tail : List Byte} {fuel : Nat}

/-! ### The stream buffer -/

structure Idles (ended : Bool) (server final : Server) : Prop where
  btree : final.btree = server.btree
  sent : final.sent = server.sent
  connected : final.connected = server.connected
  streamBuffer : ended = false → final.streamBuffer = server.streamBuffer

theorem Idles.refl {ended : Bool} : Idles ended server server := ⟨rfl, rfl, rfl, fun _ => rfl⟩

theorem innerLoop_quits (counted : Client.size query < 4294967296) (command : query.command = .quit)
    (whole : server.streamBuffer = Client.encode query ++ tail) :
    Ran (innerLoop environment (fuel + 1)) server fun ended final => Idles ended server final := by
  rw [ran_iff_after]
  apply (innerLoop_request counted whole).mpr
  have named : Command.ofByte (requestHeader query).command = some .quit := by
    rw [command_requestHeader, command]
    rfl
  simp only [dispatch, named, after_bind, after_modify, after_pure, ite_true]
  exact ⟨true, rfl, rfl, rfl, rfl, nofun⟩

theorem innerLoop_malformed (known : server.streamBuffer <+: rest) (long : REQUEST_HEADER_SIZE ≤ rest.length)
    (wrong : (RequestHeader.decode (rest.take REQUEST_HEADER_SIZE)).magicNumber ≠ NETWORK_MAGIC_NUMBER ∨
      Utils.verifyChecksum (rest.take REQUEST_HEADER_SIZE) = false) :
    Ran (innerLoop environment (fuel + 1)) server fun ended final => Idles ended server final := by
  rw [innerLoop, ran_bind, ran_get]
  simp only
  by_cases short : server.streamBuffer.length < REQUEST_HEADER_SIZE
  · rw [if_pos short]
    exact ran_pure.mpr .refl
  · have first : server.streamBuffer.take REQUEST_HEADER_SIZE = rest.take REQUEST_HEADER_SIZE := by
      obtain ⟨missing, rfl⟩ := known
      exact (List.take_append_of_le_length (Nat.le_of_not_lt short)).symm
    rw [if_neg short, first]
    by_cases magic : (RequestHeader.decode (rest.take REQUEST_HEADER_SIZE)).magicNumber ≠ NETWORK_MAGIC_NUMBER
    · rw [if_pos magic]
      exact ran_pure.mpr .refl
    · have unverified := wrong.resolve_left magic
      simp only [if_neg magic, unverified, Bool.not_false, ite_true]
      exact ran_pure.mpr .refl

/-- Whatever of it has arrived, the end of a stream is not a request to the tree. -/
theorem Trailing.idles (trailing : Trailing rest) (known : server.streamBuffer <+: rest) :
    Ran (innerLoop environment (fuel + 1)) server fun ended final => Idles ended server final := by
  cases trailing with
  | @parted _ _ missing counted parts unfinished =>
    obtain ⟨more, rfl⟩ := known
    rw [List.append_assoc] at parts
    rw [ran_iff_after]
    apply (innerLoop_underway counted parts (by simp [unfinished])).mpr
    exact ⟨false, rfl, .refl⟩
  | malformed long wrong => exact innerLoop_malformed known long wrong
  | @quit query tail counted command =>
    obtain ⟨more, parts⟩ := known
    cases List.append_eq_append_iff.mp parts with
    | inl short =>
      obtain ⟨missing, request, -⟩ := short
      by_cases complete : missing = []
      · rw [complete, List.append_nil] at request
        exact innerLoop_quits counted command (request.symm.trans (List.append_nil _).symm)
      · rw [ran_iff_after]
        apply (innerLoop_underway counted request.symm complete).mpr
        exact ⟨false, rfl, .refl⟩
    | inr long =>
      obtain ⟨some_tail, whole, -⟩ := long
      exact innerLoop_quits counted command whole

theorem exists_arrived (queries : List Query) {buffer coming : List Byte}
    (parts : buffer ++ coming = queries.flatMap Client.encode ++ rest) :
    ∃ first later part, queries = first ++ later ∧ buffer = first.flatMap Client.encode ++ part ∧
      part ++ coming = later.flatMap Client.encode ++ rest ∧ ∀ query ∈ later.head?,
        part.length < Client.size query := by
  induction queries generalizing buffer with
  | nil => exact ⟨[], [], buffer, rfl, rfl, parts, nofun⟩
  | cons query queries ih =>
    by_cases short : buffer.length < Client.size query
    · refine ⟨[], query :: queries, buffer, rfl, rfl, parts, fun other same => ?_⟩
      cases same
      exact short
    · rw [List.flatMap_cons, List.append_assoc] at parts
      obtain ⟨more, whole, after⟩ : ∃ more, buffer = Client.encode query ++ more ∧
          queries.flatMap Client.encode ++ rest = more ++ coming := by
        cases List.append_eq_append_iff.mp parts with
        | inl less =>
          obtain ⟨missing, request, after⟩ := less
          have length := congrArg List.length request
          rw [Client.length_encode, List.length_append] at length
          have none : missing = [] := List.length_eq_zero_iff.mp (by omega)
          subst none
          exact ⟨[], by rw [request, List.append_nil, List.append_nil], after.symm⟩
        | inr more => exact more
      obtain ⟨first, later, part, split, arrived, left, waits⟩ := ih after.symm
      refine ⟨query :: first, later, part, congrArg (query :: ·) split, ?_, left, waits⟩
      rw [whole, arrived, List.flatMap_cons, List.append_assoc]

theorem innerLoop_idles {coming part : List Byte} (trailing : Trailing rest)
    (sendable : ∀ query ∈ queries, Sendable query)
    (left : part ++ coming = queries.flatMap Client.encode ++ rest)
    (waits : ∀ query ∈ queries.head?, part.length < Client.size query)
    (same : server.streamBuffer = part) :
    Ran (innerLoop environment (fuel + 1)) server fun ended final => Idles ended server final ∧
      (ended = true → queries = []) := by
  cases queries with
  | nil =>
    have known : server.streamBuffer <+: rest := ⟨coming, by rw [same]; exact left⟩
    exact (trailing.idles known).imp fun ended final idle => ⟨idle, fun _ => rfl⟩
  | cons query later =>
    have short := waits query rfl
    obtain ⟨missing, request⟩ : ∃ missing, part ++ missing = Client.encode query := by
      rw [List.flatMap_cons, List.append_assoc] at left
      cases List.append_eq_append_iff.mp left with
      | inl less =>
        obtain ⟨missing, request, -⟩ := less
        exact ⟨missing, request.symm⟩
      | inr more =>
        obtain ⟨tail, whole, -⟩ := more
        rw [whole, List.length_append, Client.length_encode] at short
        exact absurd short (Nat.not_lt_of_le (Nat.le_add_right _ _))
    have unfinished : missing ≠ [] := by
      intro none
      rw [none, List.append_nil] at request
      rw [request, Client.length_encode] at short
      exact Nat.lt_irrefl _ short
    rw [ran_iff_after]
    apply (innerLoop_underway (sendable query (.head _)).counted (same ▸ request) unfinished).mpr
    exact ⟨false, rfl, .refl, nofun⟩

/-! ### Queries one after the other -/

theorem Performs.length (performs : Performs st queries answers st') : queries.length = answers.length := by
  induction performs with
  | nil => rfl
  | cons _ _ ih => exact congrArg (· + 1) ih

theorem replies_append {first later : List Query} {before after : List Answer}
    (same : first.length = before.length) :
    replies (first ++ later) (before ++ after) = replies first before ++ replies later after := by
  rw [replies, List.zipWith_append same, List.flatten_append]
  rfl

theorem Performs.append {first later : List Query} {before after : List Answer} {middle : BTree}
    (performs : Performs st first before middle)
    (rest : Performs middle later after st') : Performs st (first ++ later) (before ++ after) st' := by
  induction performs with
  | nil => exact rest
  | cons performed _ ih => exact .cons performed (ih rest)

theorem Expects.append {first later : List Query} {before after : List Answer}
    (expects : Expects contents first before)
    (rest : Expects (contents.served first) later after) :
    Expects contents (first ++ later) (before ++ after) := by
  induction expects with
  | nil => exact rest
  | cons expected _ ih =>
    rw [Contents.served_cons] at rest
    exact .cons expected (ih rest)

theorem Contents.served_append {first later : List Query} :
    contents.served (first ++ later) = (contents.served first).served later := by
  simp only [Contents.served, List.filterMap_append, Contents.applyAll, List.foldl_append]

theorem Answered.append {first later : List Query} {whole : Prop} {middle st₁ st₂ : BTree}
    {sent more : List Byte} {before after : List Answer}
    (left : Answered True contents first st sent middle before st₁)
    (right : Answered whole (contents.served first) later middle more st₂ after st') :
    Answered whole contents (first ++ later) st (sent ++ more) st₂ (before ++ after) st' := by
  obtain ⟨all, rfl⟩ := left.all trivial
  have parts : replies (first ++ later) (before ++ after) = sent ++ replies later after := by
    rw [replies_append left.performs.length, all]
  refine ⟨left.performs.append right.performs, left.expects.append right.expects, ?_, ?_, fun intact => ?_⟩
  · rw [parts]
    exact (List.prefix_append_right_inj sent).mpr right.before
  · cases later with
    | nil =>
      cases right.expects
      rw [List.append_nil, List.append_nil]
      exact left.most.trans (List.prefix_append _ _)
    | cons query later =>
      cases after with
      | nil => cases right.expects
      | cons answer after =>
        rw [List.dropLast_append_of_ne_nil (List.cons_ne_nil _ _),
          List.dropLast_append_of_ne_nil (List.cons_ne_nil _ _),
          replies_append left.performs.length, ← all]
        exact (List.prefix_append_right_inj sent).mpr right.most
  · obtain ⟨sent', same⟩ := right.all intact
    exact ⟨by rw [parts, sent'], same⟩

namespace Attended
variable {whole weaker : Prop} {middle final : Server} {first later : List Query}

theorem nil (upholds : Upholds server.btree contents) : Attended whole contents [] server server :=
  ⟨.refl upholds, rfl, [], [], server.btree, (List.append_nil _).symm, .nil, .nil, List.prefix_refl _,
    List.prefix_refl _, fun _ => ⟨rfl, rfl⟩⟩

theorem append (left : Attended True contents first server middle)
    (right : Attended whole (contents.served first) later middle final) :
    Attended whole contents (first ++ later) server final := by
  obtain ⟨sent, before, st₁, grows, answered⟩ := left.answered
  obtain ⟨more, after, st₂, grows', answered'⟩ := right.answered
  refine ⟨?_, right.connected.trans left.connected, sent ++ more, before ++ after, st₂, ?_,
    answered.append answered'⟩
  · rw [List.length_append, Contents.served_append]
    exact left.continues.trans right.continues
  · rw [grows', grows, List.append_assoc]

theorem weaken (attended : Attended whole contents queries server final) (implies : weaker → whole) :
    Attended weaker contents queries server final := by
  obtain ⟨continues, connected, sent, answers, st', grows, answered⟩ := attended
  exact ⟨continues, connected, sent, answers, st', grows,
    { answered with all := fun intact => answered.all (implies intact) }⟩

theorem idle {ended : Bool} (attended : Attended whole contents queries server middle)
    (idles : Idles ended middle final) :
    Attended whole contents queries server final := by
  obtain ⟨continues, connected, sent, answers, st', grows, answered⟩ := attended
  rw [← idles.btree] at continues answered
  exact ⟨continues, idles.connected.trans connected, sent, answers, st', idles.sent.trans grows, answered⟩

theorem room (attended : Attended whole contents first server middle) {count : Nat}
    (room : server.btree.newPageOffsetIndex + MOST_PAGES * (first.length + count) ≤ 18446744073709551616) :
    middle.btree.newPageOffsetIndex + MOST_PAGES * count ≤ 18446744073709551616 := by
  have grows := attended.continues.grows
  rw [Nat.mul_add] at room
  omega

end Attended

/-! ### The connection -/

/-- Complete requests at the start of the stream buffer take a turn each, up to one for which a
write fails. -/
theorem innerLoop_attends {post : Bool → Server → Prop} (sendable : ∀ query ∈ queries, Sendable query)
    (upholds : Upholds server.btree contents)
    (fresh : Fresh contents (queries.filterMap Query.operation))
    (room : server.btree.newPageOffsetIndex + MOST_PAGES * queries.length ≤ 18446744073709551616)
    (whole : server.streamBuffer = queries.flatMap Client.encode ++ tail)
    (later : ∀ middle, Attended True contents queries server middle → middle.streamBuffer = tail →
      Ran (innerLoop environment fuel) middle post)
    (broken : ¬ Responsive environment → ∀ performed final, performed <+: queries →
      Attended False contents performed server final →
      post true final) : Ran (innerLoop environment (fuel + queries.length)) server post := by
  induction queries generalizing server contents with
  | nil => exact later server (.nil upholds) whole
  | cons query queries ih =>
    have here := sendable query (.head _)
    rw [List.flatMap_cons, List.append_assoc] at whole
    rw [← List.singleton_append, List.filterMap_append] at fresh
    obtain ⟨first, rest⟩ := fresh_append.mp fresh
    have addressable : Addressable server.btree := Nat.le_trans (Nat.le_add_right _ _) room
    rw [List.length_cons, ← Nat.add_assoc, ran_iff_after]
    apply (innerLoop_request here.counted whole).mpr
    rw [← ran_iff_after, ran_bind]
    apply (dispatch_attends whole here upholds addressable first).imp
    intro ended middle holds
    obtain ⟨attended, buffer, responds⟩ := holds
    cases ended with
    | true =>
      have unresponsive : ¬ Responsive environment := fun responsive => Bool.noConfusion (responds responsive)
      exact ran_pure.mpr (broken unresponsive [query] middle (by simp) (attended.weaken False.elim))
    | false =>
      have attended : Attended True contents [query] server middle := attended.weaken fun _ => rfl
      apply ih (fun query member => sendable query (.tail _ member)) attended.continues.upholds rest
        (attended.room (by rwa [List.length_singleton, Nat.add_comm 1])) (buffer rfl)
      · exact fun final more => later final (attended.append more)
      · intro unresponsive performed final before more
        exact broken unresponsive (query :: performed) final (List.cons_prefix_cons.mpr ⟨rfl, before⟩)
          (attended.append more)

/-- What is performed of some queries: the first ones, and all if the connection is reliable. -/
structure Achieves (reliable : Prop) (asked performed : List Query) : Prop where
  first : performed <+: asked
  all : reliable → performed = asked

/-- All that has arrived has been looked at when all deliveries are in. -/
theorem readLoop_attends {bytes : List Byte} (delivers : Delivers deliveries bytes) (trailing : Trailing rest)
    (sendable : ∀ query ∈ queries, Sendable query) (upholds : Upholds server.btree contents)
    (fresh : Fresh contents (queries.filterMap Query.operation))
    (room : server.btree.newPageOffsetIndex + MOST_PAGES * queries.length ≤ 18446744073709551616)
    (parts : server.streamBuffer ++ bytes = queries.flatMap Client.encode ++ rest)
    (waits : ∀ query ∈ queries.head?, server.streamBuffer.length < Client.size query)
    (enough : queries.length < fuel) :
    Ran (readLoop environment fuel deliveries) server fun _ final =>
      ∃ performed, Achieves (Responsive environment) queries performed ∧
        Attended (Responsive environment) contents performed server final := by
  induction delivers generalizing server queries contents with
  | nil =>
    cases queries with
    | nil => exact ran_pure.mpr ⟨[], ⟨List.prefix_refl _, fun _ => rfl⟩, .nil upholds⟩
    | cons query queries =>
      have short := waits query rfl
      rw [List.append_nil] at parts
      rw [parts, List.flatMap_cons, List.append_assoc, List.length_append, Client.length_encode] at short
      exact absurd short (Nat.not_lt_of_le (Nat.le_add_right _ _))
  | interrupted delivers ih => exact ih sendable upholds fresh room parts waits enough
  | @bytes deliveries chunk coming some_bytes fits delivers ih =>
    rw [← List.append_assoc] at parts
    obtain ⟨first, later, part, rfl, arrived, left, waits'⟩ := exists_arrived queries parts
    rw [List.filterMap_append] at fresh
    obtain ⟨fresh, fresh'⟩ := fresh_append.mp fresh
    rw [List.length_append] at enough room
    obtain ⟨turns, rfl⟩ : ∃ turns, fuel = turns + 1 + first.length := ⟨fuel - 1 - first.length, by omega⟩
    rw [readLoop, ran_bind, ran_modify, ran_bind]
    have here : server.btree.newPageOffsetIndex + MOST_PAGES * first.length ≤ 18446744073709551616 := by
      rw [Nat.mul_add] at room
      omega
    apply @innerLoop_attends environment { server with streamBuffer := server.streamBuffer ++ chunk }
      first contents part _ _
      (fun query member => sendable query (List.mem_append_left _ member)) upholds fresh here arrived
    · intro caught attended same
      have attended : Attended True contents first server caught :=
        ⟨attended.continues, attended.connected, attended.answered⟩
      apply (innerLoop_idles trailing (fun query member =>
        sendable query (List.mem_append_right _ member)) left waits' same).imp
      intro ended final holds
      obtain ⟨idle, stopped⟩ := holds
      have attended := attended.idle idle
      cases ended with
      | true =>
        obtain rfl := stopped rfl
        rw [List.append_nil]
        exact ran_pure.mpr ⟨first, ⟨List.prefix_refl _, fun _ => rfl⟩, attended.weaken fun _ => trivial⟩
      | false =>
        have buffer := (idle.streamBuffer rfl).trans same
        simp only [Bool.false_eq_true, ite_false]
        apply (ih (fun query member => sendable query (List.mem_append_right _ member))
          attended.continues.upholds fresh' (attended.room room)
          (buffer ▸ left) (buffer ▸ waits') (by omega)).imp
        intro _ last holds
        obtain ⟨performed, achieves, more⟩ := holds
        refine ⟨first ++ performed,
          ⟨(List.prefix_append_right_inj first).mpr achieves.first, fun responsive => ?_⟩,
          attended.append more⟩
        rw [achieves.all responsive]
    · intro unresponsive performed final before attended
      have attended : Attended False contents performed server final :=
        ⟨attended.continues, attended.connected, attended.answered⟩
      exact ran_pure.mpr ⟨performed,
        ⟨before.trans (List.prefix_append _ _), fun responsive => absurd responsive unresponsive⟩,
        attended.weaken fun responsive => absurd responsive unresponsive⟩

theorem readLoop_left {delivery : Delivery} {post : Server → Prop} (ends : delivery.Ends)
    (ran : Ran (readLoop environment fuel deliveries) server fun _ final => post final) :
    Ran (readLoop environment fuel (deliveries ++ [delivery])) server fun exit final =>
      exit = .returned ∧ post final := by
  induction deliveries generalizing server with
  | nil =>
    have here := ran_pure.mp ran
    rcases ends with rfl | rfl | rfl <;> exact ran_pure.mpr ⟨rfl, here⟩
  | cons first deliveries ih =>
    cases first with
    | closed | failed | stopped => exact ran_pure.mpr ⟨rfl, ran_pure.mp ran⟩
    | interrupted => exact ih ran
    | bytes chunk =>
      simp only [readLoop, List.cons_append, ran_bind, ran_modify] at ran ⊢
      apply ran.imp
      intro ended middle later
      cases ended with
      | true => exact ran_pure.mpr ⟨rfl, ran_pure.mp later⟩
      | false => exact ih later

theorem Visit.Proper.attended {visit : Visit} (proper : visit.Proper)
    (upholds : Upholds server.btree contents)
    (fresh : Fresh contents (visit.queries.filterMap Query.operation))
    (room : server.btree.newPageOffsetIndex + MOST_PAGES * visit.queries.length ≤ 18446744073709551616)
    (enough : visit.queries.length < fuel) :
    Ran (handleClient environment fuel visit.deliveries) server fun _ final =>
      ∃ performed, Achieves (Responsive environment) visit.queries performed ∧
        Attended (Responsive environment) contents performed server final := by
  obtain ⟨rest, trailing, delivers⟩ := proper.arrives
  rw [handleClient, ran_bind, ran_modify]
  refine (@readLoop_attends environment { server with streamBuffer := [], passes := [] } visit.queries
    contents _ rest fuel _ delivers trailing
    proper.sendable upholds fresh room rfl (fun query _ => ?_) enough).imp fun _ final holds => ?_
  · rw [Client.size]
    simp [REQUEST_HEADER_SIZE]
  · obtain ⟨performed, achieves, attended⟩ := holds
    exact ⟨performed, achieves, attended.continues, attended.connected, attended.answered⟩

end Datashil
