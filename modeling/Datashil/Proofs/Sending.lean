import Datashil.Proofs.Requests

/-! Programs that write to a connection which may fail at any time. What fails is the connection:
the tree is in some known state, and what has been written is the beginning of what should have
been. -/

namespace Datashil
open Library Server BTree

variable {environment : Environment} {server : Server} {α β : Type} {bytes more : List Byte}
    {failed : BTree → Prop}

/-- A program that sends some bytes, or fails after the first of them. What fails is the connection. -/
def Sending (program : ServerM α) (server : Server) (bytes : List Byte) (failed : BTree → Prop)
    (post : α → Server → Prop) : Prop :=
  After program server fun result final => final.connected = server.connected ∧
    match result with
    | .ok value => final.sent = server.sent ++ bytes ∧ post value final
    | .error stop =>
      failed final.btree ∧ (∃ exception, stop = .exception exception) ∧ ∃ part, part <+: bytes ∧
        final.sent = server.sent ++ part

namespace Sending

theorem of_ran {program : ServerM α} {post : α → Server → Prop} (ran : Ran program server fun value final =>
    final.connected = server.connected ∧ final.sent = server.sent ++ bytes ∧ post value final) :
    Sending program server bytes failed post :=
  after_of_ran ran

theorem bind {first : ServerM α} {next : α → ServerM β} {middle : α → Server → Prop}
    {post : β → Server → Prop}
    (sending : Sending first server bytes failed middle)
    (later : ∀ value state, middle value state → Sending (next value) state more failed post) :
    Sending (first >>= next) server (bytes ++ more) failed post := by
  apply after_bind.mpr
  apply After.imp sending
  intro result state holds
  cases result with
  | ok value =>
    obtain ⟨connected, sent, known⟩ := holds
    apply After.imp (later value state known)
    intro result final holds
    obtain ⟨connected', rest⟩ := holds
    refine ⟨connected'.trans connected, ?_⟩
    cases result with
    | ok value => exact ⟨by rw [rest.1, sent, List.append_assoc], rest.2⟩
    | error stop =>
      obtain ⟨fails, stops, part, before, sent'⟩ := rest
      refine ⟨fails, stops, bytes ++ part, List.prefix_append_right_inj bytes |>.mpr before, ?_⟩
      rw [sent', sent, List.append_assoc]
  | error stop =>
    obtain ⟨connected, fails, stops, part, before, sent⟩ := holds
    exact ⟨connected, fails, stops, part, before.trans (List.prefix_append _ _), sent⟩

theorem silent {first : ServerM α} {next : α → ServerM β} {middle : α → Server → Prop}
    {post : β → Server → Prop}
    (sending : Sending first server [] failed middle)
    (later : ∀ value state, middle value state → Sending (next value) state bytes failed post) :
    Sending (first >>= next) server bytes failed post := sending.bind later

theorem pure (value : α) {post : α → Server → Prop} (holds : post value server) :
    Sending (Pure.pure value) server [] failed post :=
  of_ran (ran_pure.mpr ⟨rfl, (List.append_nil _).symm, holds⟩)

theorem throw (exception : ServerException) (fails : failed server.btree) {post : α → Server → Prop} :
    Sending (MonadExcept.throw (Stop.exception exception)) server bytes failed post :=
  after_throw.mpr ⟨rfl, fails, ⟨exception, rfl⟩, [], List.nil_prefix, (List.append_nil _).symm⟩

theorem imp {program : ServerM α} {post weaker : α → Server → Prop}
    (sending : Sending program server bytes failed post)
    (implies : ∀ value final, post value final → weaker value final) :
    Sending program server bytes failed weaker := by
  apply After.imp sending
  intro result final holds
  cases result with
  | ok value => exact ⟨holds.1, holds.2.1, implies value final holds.2.2⟩
  | error stop => exact holds

end Sending

structure Server.Same (server final : Server) : Prop where
  btree : final.btree = server.btree
  streamBuffer : final.streamBuffer = server.streamBuffer

theorem writeLoop_sending (results : List WriteResult) (buffer : List Byte) (count : Nat)
    (server : Server) (fails : failed server.btree) :
    Sending (writeLoop results buffer count) server buffer failed fun _ final => server.Same final := by
  induction results generalizing buffer count server with
  | nil => exact .of_ran (ran_modify.mpr ⟨rfl, rfl, rfl, rfl⟩)
  | cons result results ih =>
    by_cases done : buffer = []
    · subst done
      simp only [writeLoop, ite_true]
      exact .pure _ ⟨rfl, rfl⟩
    · cases result with
      | wrote written =>
        simp only [writeLoop, done, ite_false]
        split
        · split
          · exact .throw _ fails
          · exact ih _ _ _ fails
        · have split := List.take_append_drop written buffer
          have taken : Sending (send (buffer.take written)) server (buffer.take written) failed
              fun _ final => server.Same final :=
            .of_ran (ran_modify.mpr ⟨rfl, rfl, rfl, rfl⟩)
          have both := taken.bind fun _ state same =>
            ih (buffer.drop written) 0 state (same.btree ▸ fails) |>.imp fun _ final later =>
            (⟨later.btree.trans same.btree, later.streamBuffer.trans same.streamBuffer⟩ : server.Same final)
          rwa [split] at both
      | interrupted serverRunning =>
        simp only [writeLoop, done, ite_false]
        split
        · exact ih _ _ _ fails
        · exact .throw _ fails
      | brokenPipe =>
        simp only [writeLoop, done, ite_false]
        exact .throw _ fails
      | failed errno description =>
        simp only [writeLoop, done, ite_false]
        exact .throw _ fails

theorem writeExactlyNBytes_sending (environment : Environment) (buffer : List Byte) (server : Server)
    (fails : failed server.btree) :
    Sending (writeExactlyNBytes environment buffer) server buffer failed fun _ final =>
      server.Same final := by
  apply after_bind.mpr
  apply after_get.mpr
  apply after_bind.mpr
  apply after_modify.mpr
  apply After.imp (writeLoop_sending (environment.write server.writes) buffer 0
    { server with writes := server.writes + 1 } fails)
  intro result final holds
  cases result with
  | ok value => exact ⟨holds.1, holds.2.1, holds.2.2.btree, holds.2.2.streamBuffer⟩
  | error stop => exact holds

theorem liftTree_sending {program : TreeM α} {post : α → BTree → Prop} (ran : Ran program server.btree post) :
    Sending (liftTree program) server [] failed fun value final => post value final.btree ∧
      final.streamBuffer = server.streamBuffer := by
  apply Sending.of_ran
  apply (liftTree_ran ran).imp
  intro value final holds
  exact ⟨holds.2.connected, holds.2.sent, holds.1, holds.2.streamBuffer⟩

theorem readStream_sending {offset count : Nat} (arrived : offset + count ≤ server.streamBuffer.length) :
    Sending (readStream environment offset count) server [] failed fun bytes final =>
      bytes = (server.streamBuffer.drop offset).take count ∧ server.Same final := by
  apply Sending.of_ran
  apply (readStream_reads arrived).imp
  intro bytes final holds
  exact ⟨holds.2.1.connected, holds.2.1.sent, holds.1, holds.2.2, holds.2.1.streamBuffer⟩

end Datashil
