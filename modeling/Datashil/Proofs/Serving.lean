import Datashil.Proofs.Visitors

/-! A server in use: connections one after the other, each with queries of the client, and
which of these get an answer. -/

namespace Datashil
open Library Server

variable {environment : Environment} {server : Server} {query : Query} {deliveries : List Delivery}
    {fuel : Nat}

/-! ### One query -/

theorem readLoop_out (rest : List Byte) (missing : rest ≠ []) (delivers : Delivers deliveries rest) :
    After (readLoop environment 0 deliveries) server fun result _ => result = .error .fuel := by
  induction delivers with
  | nil => exact absurd rfl missing
  | interrupted delivers ih => exact ih missing
  | bytes some_bytes fits delivers ih =>
    rw [readLoop]
    apply after_bind.mpr
    apply after_modify.mpr
    apply after_bind.mpr
    exact after_throw.mpr rfl

theorem encode_ne_nil (query : Query) : Client.encode query ≠ [] := by
  intro none
  have length := congrArg List.length none
  rw [Client.length_encode, Client.size] at length
  exact absurd length (by simp [REQUEST_HEADER_SIZE])

section Query
variable (empty : server.streamBuffer = []) (manageable : Manageable server.btree query)
    (ready : Parser.Ready query)
  (delivers : Delivers deliveries (Client.encode query))
include empty manageable ready delivers

/-- A query with an answer takes two turns of the loop over the stream buffer. -/
theorem readLoop_answers (responsive : Responsive environment) (served : Served server.btree)
    (answerable : Answerable query) (fuel : Nat) :
    After (readLoop environment fuel deliveries) server fun result final =>
      (result = .error .fuel ∧ fuel < 2) ∨ (result = .ok .waiting ∧ Answers query server final) := by
  cases fuel with
  | zero =>
    apply (readLoop_out _ (encode_ne_nil query) delivers).imp
    exact fun result final out => .inl ⟨out, by omega⟩
  | succ fuel =>
    apply readLoop_request manageable.counted (by rw [empty, List.nil_append]) (encode_ne_nil query) delivers
    apply (innerLoop_request manageable.counted (List.append_nil _).symm).mpr
    apply after_bind.mpr
    apply after_of_ran
    apply (@dispatch_answers environment { server with streamBuffer := Client.encode query } query rfl
      manageable ready responsive served answerable).imp
    rintro ended middle ⟨rfl, answers⟩
    simp only [Bool.false_eq_true, ite_false]
    have answers : Answers query server middle :=
      ⟨answers.reply, answers.connected, answers.emptied, answers.served⟩
    cases fuel with
    | zero => exact after_throw.mpr (.inl ⟨rfl, by omega⟩)
    | succ fuel =>
      rw [innerLoop]
      apply after_bind.mpr
      apply after_get.mpr
      simp only [answers.emptied, List.length_nil, REQUEST_HEADER_SIZE, Nat.zero_lt_succ, ite_true]
      exact after_pure.mpr (.inr ⟨trivial, answers⟩)

theorem readLoop_refuses (refused : ¬ Answerable query) (fuel : Nat) :
    After (readLoop environment fuel deliveries) server fun result final =>
      result = .error .fuel ∨ (result = .ok .returned ∧ Refuses server final) := by
  cases fuel with
  | zero =>
    apply (readLoop_out _ (encode_ne_nil query) delivers).imp
    exact fun result final out => .inl out
  | succ fuel =>
    apply readLoop_request manageable.counted (by rw [empty, List.nil_append]) (encode_ne_nil query) delivers
    apply (innerLoop_request manageable.counted (List.append_nil _).symm).mpr
    apply after_bind.mpr
    apply (@dispatch_refuses environment { server with streamBuffer := Client.encode query } query rfl
      manageable.counted ready refused).imp
    rintro result final ⟨rfl, refuses⟩
    simp only [ite_true]
    exact after_pure.mpr (.inr ⟨trivial, refuses.sent, refuses.connected, refuses.btree⟩)

end Query

/-! ### All queries -/

/-- A server that waits for a query. Clients of any kind may have visited it before; the current one
has sent queries. -/
inductive Serving (environment : Environment) : Server → Prop
  | accept {server server' : Server} {fuel : Nat} (visited : Visited server)
      (accepted : (do accept; handleClient environment fuel []) server = .ok .waiting server') :
        Serving environment server'
  | query {server server' : Server} {query : Query} {deliveries : List Delivery} {fuel : Nat}
      (serving : Serving environment server)
      (accepted : Accepted query) (manageable : Manageable server.btree query)
      (delivers : Delivers deliveries (Client.encode query))
      (handled : readLoop environment fuel deliveries server = .ok .waiting server') :
        Serving environment server'

/-- Between queries the stream buffer is empty. -/
structure Ready (server : Server) : Prop where
  served : Served server.btree
  empty : server.streamBuffer = []
  connected : server.connected = true

theorem Serving.ready (responsive : Responsive environment) (serving : Serving environment server) :
    Ready server := by
  induction serving with
  | accept visited accepted =>
    cases accepted
    exact ⟨visited.served, rfl, rfl⟩
  | @query server server' query deliveries fuel serving accepted manageable delivers handled ih =>
    by_cases answerable : Answerable query
    · have answers := (readLoop_answers ih.empty manageable accepted.ready delivers responsive ih.served
        answerable fuel).elim handled
      rcases answers with ⟨⟨⟩, -⟩ | ⟨-, answers⟩
      exact ⟨answers.served, answers.emptied, answers.connected.trans ih.connected⟩
    · have refuses := (readLoop_refuses ih.empty manageable accepted.ready delivers answerable
        fuel).elim handled
      rcases refuses with out | ⟨same, -⟩
      · cases out
      · cases same

/-- The server has written one complete response to a query, or closed the connection. -/
def Settled (query : Query) (server final : Server) : Prop :=
  (∃ reply, Complete query.command reply ∧ final.sent = server.sent ++ reply) ∨ final.connected = false

theorem Refuses.unsettled {final : Server} (refuses : Refuses server final)
    (connected : server.connected = true) : ¬ Settled query server final := by
  rintro (⟨reply, complete, sent⟩ | closed)
  · have none : reply = [] := by simpa [refuses.sent] using sent
    have long := complete.long
    rw [none] at long
    exact absurd long (by decide)
  · rw [refuses.connected, connected] at closed
    cases closed

/-- A query that reaches a server in use is answered exactly if it does not ask to quit and, if
it inserts, has no more than 20000 bytes. Otherwise the connection stays open without an answer. -/
theorem queries_answered (serving : Serving environment server) (responsive : Responsive environment)
    (accepted : Accepted query)
    (manageable : Manageable server.btree query) (delivers : Delivers deliveries (Client.encode query)) :
    (∃ fuel, Ran (readLoop environment fuel deliveries) server fun _ final =>
      Settled query server final) ↔ Answerable query := by
  have ready := serving.ready responsive
  constructor
  · rintro ⟨fuel, exit, final, ended, settled⟩
    by_contra refused
    have refuses := (readLoop_refuses ready.empty manageable accepted.ready delivers refused fuel).elim ended
    rcases refuses with out | ⟨-, refuses⟩
    · cases out
    · exact refuses.unsettled ready.connected settled
  · intro answerable
    refine ⟨2, ran_iff_after.mpr ?_⟩
    apply (readLoop_answers ready.empty manageable accepted.ready delivers responsive ready.served
      answerable 2).imp
    rintro result final (⟨-, impossible⟩ | ⟨rfl, answers⟩)
    · exact absurd impossible (by decide)
    · exact ⟨_, rfl, .inl answers.reply⟩

theorem delivers_whole (bytes : List Byte) (some_bytes : bytes ≠ []) (fits : bytes.length ≤ 1024) :
    Delivers [.bytes bytes] bytes := by
  simpa using Delivers.bytes some_bytes fits .nil

theorem responsive_attentive : Responsive attentive := nofun

theorem serving_new : Ran bootstrap launched fun _ _ => ∃ server', Serving attentive server' ∧
    Addressable server'.btree := by
  have ran : Ran bootstrap launched fun _ server =>
      server.btree.newPageOffsetIndex ≤ 18446744073709551616 := by
    decide +kernel
  obtain ⟨_, server, opened, addressable⟩ := ran
  exact ⟨_, server, opened, _, @Serving.accept _ _ _ 0 (.start opened) rfl, addressable⟩

def searchQuery : Query := ⟨true, .search, 7, []⟩

def insertQuery : Query := ⟨true, .insert, 7, [ascii "ab"]⟩

set_option synthInstance.maxSize 1000 in
/-- A client on a server that others have visited searches for the key it has inserted. -/
theorem queries_answered_search : ∃ server, Serving attentive server ∧
    ((∃ fuel, Ran (readLoop attentive fuel [.bytes (Client.encode searchQuery)]) server fun _ final =>
      Settled searchQuery server final) ↔
      Answerable searchQuery) := by
  have runs : Ran bootstrap launched fun _ first =>
    Ran (do accept; handleClient attentive 80 hurried) first fun _ second =>
      (∀ pass ∈ second.passes, pass.Admissible) ∧
        Ran (do accept; handleClient attentive 2 []) second fun exit third =>
        exit = .waiting ∧ third.btree.newPageOffsetIndex ≤ 18446744073709551616 ∧
          Ran (readLoop attentive 2 [.bytes (Client.encode insertQuery)]) third fun exit server =>
            exit = .waiting ∧ server.btree.newPageOffsetIndex ≤ 18446744073709551616 := by
    decide +kernel
  obtain ⟨_, first, opened, _, second, hurried, admissible, exit, third, accepted, rfl, counted, exit',
      server, inserted, rfl, addressable⟩ :=
    runs
  have serving : Serving attentive third := .accept (.visit (.start opened) hurried admissible) accepted
  have delivers : ∀ query : Query, Client.size query ≤ 1024 →
      Delivers [.bytes (Client.encode query)] (Client.encode query) := by
    intro query short
    apply delivers_whole _ (encode_ne_nil _)
    rwa [Client.length_encode]
  have waiting : Serving attentive server := by
    refine .query serving ⟨rfl, ascii "insert 7 \"ab\";", by decide +kernel⟩ ⟨counted, by decide⟩
      (delivers insertQuery (by decide)) inserted
  exact ⟨server, waiting, queries_answered waiting responsive_attentive
    ⟨rfl, ascii "search 7;", by decide +kernel⟩ ⟨addressable, by decide⟩
    (delivers searchQuery (by decide))⟩

def quitQuery : Query := ⟨true, .quit, 1, []⟩

/-- `quit 1;` gets no answer, and the connection is not closed. -/
theorem quit_unanswered : Accepted quitQuery ∧ ∃ server, Serving attentive server ∧
    ¬ ∃ fuel, Ran (readLoop attentive fuel [.bytes (Client.encode quitQuery)]) server fun _ final =>
      Settled quitQuery server final := by
  have accepted : Accepted quitQuery := ⟨rfl, ascii "quit 1;", by decide +kernel⟩
  obtain ⟨_, _, -, server, serving, addressable⟩ := serving_new
  have manageable : Manageable server.btree quitQuery := ⟨addressable, by decide⟩
  have ready := serving.ready responsive_attentive
  have delivers := delivers_whole (Client.encode quitQuery) (encode_ne_nil _)
    (by rw [Client.length_encode]; decide)
  refine ⟨accepted, server, serving, ?_⟩
  rintro ⟨fuel, exit, final, ended, settled⟩
  have refuses := (readLoop_refuses ready.empty manageable accepted.ready delivers
    (by simp [Answerable, quitQuery]) fuel).elim ended
  rcases refuses with out | ⟨-, refuses⟩
  · cases out
  · exact refuses.unsettled ready.connected settled

end Datashil
