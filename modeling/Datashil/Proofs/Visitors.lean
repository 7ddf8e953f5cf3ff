import Datashil.Proofs.Answers
import Datashil.Proofs.Sending

/-! Clients of any kind, whatever they send and however their connections fail. As long as the
requests that reach a handler announce room for their key, the tree stays sound and every
connection comes to an end, unless page ids run out. -/

namespace Datashil
open Library Server

/-! ### Reading a stream -/

/-- A program on the tree that changes nothing but the record of accesses, also where it fails.
Reading a stream is one; a connection that breaks in between leaves the tree as it was. -/
def Still {α : Type} (program : TreeM α) : Prop := ∀ st, After program st fun _ st' => st.Agrees st'

namespace Still
variable {α β : Type}

theorem pure (value : α) : Still (Pure.pure value : TreeM α) := fun st => after_pure.mpr (.refl st)

theorem throw (failure : Failure) : Still (MonadExcept.throw failure : TreeM α) :=
  fun st => after_throw.mpr (.refl st)

theorem bind {first : TreeM α} {next : α → TreeM β} (still : Still first)
    (later : ∀ value, Still (next value)) : Still (first >>= next) := by
  intro st
  apply after_bind.mpr
  apply (still st).imp
  intro result middle agrees
  cases result with
  | error failure => exact agrees
  | ok value =>
    apply (later value middle).imp
    exact fun _ _ more => agrees.trans more

theorem requestPage (pid : Nat) : Still (BTree.requestPage pid) := fun _ => after_modify.mpr ⟨rfl, rfl, rfl⟩

theorem releasePage (pid : Nat) (isDirty : Bool) : Still (BTree.releasePage pid isDirty) :=
  fun _ => after_modify.mpr ⟨rfl, rfl, rfl⟩

theorem readPage (pid : Nat) : Still (BTree.readPage pid) := by
  intro st
  have read : Ran (BTree.readPage pid) st fun _ st' => st.Agrees st' := BTree.ran_readPage.mpr ⟨rfl, rfl, rfl⟩
  exact after_of_ran read

theorem readOverflow (pid : Nat) : Still (BTree.readOverflow pid) := by
  apply bind (readPage pid)
  intro page
  split
  · exact pure _
  · exact throw _

theorem readBytes (pid : Nat) : Still (BTree.readBytes pid) := by
  apply bind (readPage pid)
  intro page
  split
  · exact pure _
  · exact pure _
  · exact throw _

theorem nextBytesLoop (fuel : Nat) (stream : PayloadStream) (count : Nat) (buffer : List Byte) :
    Still (PayloadStream.nextBytesLoop fuel stream count buffer) := by
  induction fuel generalizing stream count buffer with
  | zero => exact pure _
  | succ fuel ih =>
    rw [PayloadStream.nextBytesLoop]
    split
    · exact pure _
    · apply bind (readBytes _)
      intro block
      simp only
      split
      · split
        · exact .bind (releasePage _ _) fun _ => .bind (requestPage _) fun _ =>
            .bind (readOverflow _) fun _ => ih _ _ _
        · exact pure _
      · exact pure _

theorem nextBytes (stream : PayloadStream) (n : Nat) : Still (stream.nextBytes n) := by
  rw [PayloadStream.nextBytes]
  simp only
  split
  · exact pure _
  · exact .bind (requestPage _) fun _ => .bind (nextBytesLoop _ _ _ _) fun _ =>
      .bind (releasePage _ _) fun _ => .pure _

end Still

/-! ### Handlers -/

/-- A handler has left a sound tree. It has failed with an exception at most, unless page ids have
run out. -/
structure Sheltered {α : Type} (result : Except Stop α) (final : Server) : Prop where
  served : Served final.btree
  stops : Addressable final.btree → ∀ stop, result = .error stop → ∃ exception, stop = .exception exception

variable {environment : Environment} {server : Server} {α β : Type}

theorem Served.sheltered {value : α} (served : Served server.btree) : Sheltered (.ok value) server :=
  ⟨served, nofun⟩

theorem sheltered_bind {first : ServerM α} {next : α → ServerM β} (sheltered : After first server Sheltered)
    (later : ∀ value middle, Served middle.btree → After (next value) middle Sheltered) :
    After (first >>= next) server Sheltered := by
  apply after_bind.mpr
  apply sheltered.imp
  intro result middle here
  cases result with
  | ok value => exact later value middle here.served
  | error stop =>
    refine ⟨here.served, fun addressable other same => ?_⟩
    cases same
    exact here.stops addressable stop rfl

theorem after_liftTree {program : TreeM α} {post : Except Stop α → Server → Prop} :
    After (liftTree program) server post ↔ After program server.btree fun result btree =>
      match result with
      | .ok value => post (.ok value) { server with btree }
      | .error failure => post (.error (stopOf failure)) { server with btree } := by
  simp only [After, liftTree]
  cases program server.btree <;> rfl

/-- Writing to the client leaves the tree alone, and fails with an exception if it does. -/
def Spares (program : ServerM α) : Prop :=
  ∀ server, After program server fun result final => final.btree = server.btree ∧ ∀ stop,
    result = .error stop → ∃ exception, stop = .exception exception

theorem spares_writes (buffer : List Byte) : Spares (writeExactlyNBytes environment buffer) := by
  intro server
  apply After.imp (@writeExactlyNBytes_sending (· = server.btree) environment buffer server rfl)
  intro result final written
  obtain ⟨-, rest⟩ := written
  cases result with
  | ok value => exact ⟨rest.2.btree, nofun⟩
  | error stop =>
    refine ⟨rest.1, fun other same => ?_⟩
    cases same
    exact rest.2.1

theorem spares_acknowledge (statusCode : Nat) (echoCommand : Command) (key : List Byte) :
    Spares (acknowledge environment statusCode echoCommand key) := by
  intro server
  apply after_bind.mpr
  apply (spares_writes _ server).imp
  intro result middle spared
  cases result with
  | error stop => exact spared
  | ok value =>
    apply (spares_writes key middle).imp
    exact fun _ _ more => ⟨more.1.trans spared.1, more.2⟩

theorem Spares.andThen {first : ServerM α} {next : α → ServerM β} (spares : Spares first)
    (served : Served server.btree)
    (later : ∀ value middle, middle.btree = server.btree → After (next value) middle Sheltered) :
    After (first >>= next) server Sheltered := by
  apply after_bind.mpr
  apply (spares server).imp
  intro result middle spared
  cases result with
  | ok value => exact later value middle spared.1
  | error stop =>
    refine ⟨spared.1 ▸ served, fun _ other same => ?_⟩
    cases same
    exact spared.2 stop rfl

theorem reads_sheltered {offset count : Nat} {next : List Byte → ServerM α}
    (arrived : offset + count ≤ server.streamBuffer.length)
    (later : ∀ middle : Server, middle.btree = server.btree → middle.streamBuffer = server.streamBuffer →
      After (next ((server.streamBuffer.drop offset).take count)) middle Sheltered) :
    After (readStream environment offset count >>= next) server Sheltered := by
  apply after_bind.mpr
  apply after_readStream.mpr
  rw [read_arrived arrived]
  exact later _ rfl rfl

theorem erase_sheltered (served : Served server.btree) (count : Nat) : After (erase count) server Sheltered :=
  after_erase.mpr ⟨served, nofun⟩

theorem acknowledge_sheltered (served : Served server.btree) (statusCode : Nat) (echoCommand : Command)
    (key : List Byte) (count : Nat) :
    After (acknowledge environment statusCode echoCommand key >>= fun _ => erase count) server Sheltered := by
  apply (spares_acknowledge _ _ _).andThen served
  intro _ middle same
  exact erase_sheltered (same ▸ served) count

/-- Sending what a stream yields, unless a write fails before its end. -/
theorem sendPayload_sheltered (turns : Nat) {stream : PayloadStream} {next : Unit → ServerM α}
    (served : Served server.btree)
    (drained : Addressable server.btree →
      Ran (stream.drain (.replicate turns 1024)) server.btree fun result _ => result.2.isEOF = true)
    (later : ∀ middle : Server, Served middle.btree → After (next ()) middle Sheltered) :
    After (sendPayload environment turns stream >>= next) server Sheltered := by
  have sent : After (sendPayload environment turns stream) server Sheltered := by
    clear later
    induction turns generalizing stream server with
    | zero =>
      rw [sendPayload]
      split
      · exact after_pure.mpr served.sheltered
      next more =>
        refine after_throw.mpr ⟨served, fun addressable => ?_⟩
        exact absurd (ran_pure.mp (drained addressable)) more
    | succ turns ih =>
      rw [sendPayload]
      split
      · exact after_pure.mpr served.sheltered
      next more =>
        apply after_bind.mpr
        apply after_liftTree.mpr
        have still := Still.nextBytes stream 1024 server.btree
        simp only [List.replicate_succ, PayloadStream.drain, more, ite_false, ran_bind,
          Bool.false_eq_true] at drained
        apply (still.and (after_ended _ _)).imp
        rintro result st ⟨agrees, ended⟩
        have before : Addressable st → Addressable server.btree :=
          Nat.le_trans (Nat.le_of_eq agrees.counter.symm)
        cases result with
        | error failure =>
          refine ⟨served.agrees agrees, fun addressable => ?_⟩
          obtain ⟨_, _, returned, -⟩ := drained (before addressable)
          rw [ended] at returned
          cases returned
        | ok piece =>
          have there : Served { server with btree := st }.btree := served.agrees agrees
          apply (spares_writes _).andThen there
          intro _ middle same
          apply ih (same ▸ there)
          intro addressable
          rw [same] at addressable ⊢
          have rest := (drained (before addressable)).elim ended
          apply rest.imp
          intro result st' holds
          rwa [ran_pure] at holds
  exact sheltered_bind sent fun _ => later

section Handlers
variable (served : Served server.btree)
    (arrived : REQUEST_HEADER_SIZE + SIZEOF_KEY ≤ server.streamBuffer.length)
include served arrived

theorem handleSearch_sheltered : After (handleSearch environment) server Sheltered := by
  apply reads_sheltered (by omega)
  intro first btree buffer
  apply reads_sheltered (buffer ▸ arrived)
  intro second btree' buffer'
  rw [← btree, ← btree'] at served
  generalize LittleEndian.decode _ = key
  apply after_bind.mpr
  apply after_of_ran
  apply (liftTree_ran (served.search key)).imp
  intro stream found searched
  obtain ⟨⟨served, -, yielding⟩, -⟩ := searched
  apply (spares_writes _).andThen served
  intro _ middle same
  rw [← same] at served yielding
  apply sendPayload_sheltered _ served
  · intro addressable
    obtain ⟨payload, -, yields⟩ := yielding addressable
    have enough : payload.length ≤ (List.replicate stream.payloadRemaining 1024).sum := by
      rw [List.sum_replicate_nat, PayloadStream.payloadRemaining, yields.total]
      omega
    obtain ⟨result, final, drained, -, -, eof⟩ := PayloadStream.drain_spec _ yields enough
    exact ⟨result, final, drained, eof⟩
  · intro last served
    exact erase_sheltered served _

theorem handleDelete_sheltered : After (handleDelete environment) server Sheltered := by
  apply reads_sheltered (by omega)
  intro first btree buffer
  apply reads_sheltered (buffer ▸ arrived)
  intro second btree' buffer'
  rw [← btree, ← btree'] at served
  apply after_bind.mpr
  apply after_of_ran
  apply (liftTree_ran (served.delete _)).imp
  intro deleteResult deleted holds
  exact acknowledge_sheltered holds.1 _ _ _ _

theorem handleInsert_sheltered {header : RequestHeader}
    (decoded : header = RequestHeader.decode (server.streamBuffer.take REQUEST_HEADER_SIZE))
    (complete : header.totalLength ≤ server.streamBuffer.length)
    (keyed : REQUEST_HEADER_SIZE + SIZEOF_KEY ≤ header.totalLength) :
    After (handleInsert environment) server Sheltered := by
  apply reads_sheltered (by omega)
  intro first btree buffer
  apply reads_sheltered (buffer ▸ arrived)
  intro second btree' buffer'
  rw [← btree, ← btree'] at served
  rw [buffer] at buffer' ⊢
  rw [List.drop_zero, ← decoded]
  split
  · exact after_throw.mpr ⟨served, fun _ stop same => by cases same; exact ⟨_, rfl⟩⟩
  next fits =>
    apply reads_sheltered (by rw [buffer']; omega)
    intro third btree'' _
    rw [← btree''] at served
    rw [buffer']
    have size : ((server.streamBuffer.drop REQUEST_HEADER_SIZE).take
      (header.totalLength - REQUEST_HEADER_SIZE)).length =
        header.totalLength - REQUEST_HEADER_SIZE := by
      rw [List.length_take, List.length_drop]
      omega
    have front : ((server.streamBuffer.drop REQUEST_HEADER_SIZE).take
      (header.totalLength - REQUEST_HEADER_SIZE)).take SIZEOF_KEY =
        (server.streamBuffer.drop REQUEST_HEADER_SIZE).take SIZEOF_KEY := by
      rw [List.take_take, Nat.min_eq_left (by omega)]
    have storable : Storable ((server.streamBuffer.drop REQUEST_HEADER_SIZE).take
      (header.totalLength - REQUEST_HEADER_SIZE))
        (LittleEndian.decode ((server.streamBuffer.drop REQUEST_HEADER_SIZE).take SIZEOF_KEY)) := by
      refine ⟨by rw [size]; omega, ?_, congrArg LittleEndian.decode front⟩
      rw [size]
      simp only [SLOT_SIZE, TUPLE_HEADER_SIZE]
      omega
    apply after_bind.mpr
    apply after_of_ran
    apply (liftTree_ran (served.insert storable (by rw [size]; omega))).imp
    intro insertResult inserted holds
    exact acknowledge_sheltered holds.1 _ _ _ _

end Handlers

/-! ### Connections -/

/-- A request that does not bring the server down: its command is known, and it has room for a key
if a handler reads one. -/
def Pass.Admissible (pass : Pass) : Prop := ¬ pass.Unknown ∧ pass.Keyed

/-- The tree is sound. Unless page ids have run out, the program has returned, or there was not
enough fuel for it. -/
structure Survives {α : Type} (result : Except Stop α) (final : Server) : Prop where
  served : Served final.btree
  returns : Addressable final.btree → result ≠ .error .fuel → ∃ value, result = .ok value

theorem Sheltered.caught {handler : ServerM Unit} (sheltered : After handler server Sheltered) :
    After (caught handler) server Survives := by
  apply after_tryCatch.mpr
  apply after_bind.mpr
  apply sheltered.imp
  intro result final here
  cases result with
  | ok value => exact after_pure.mpr ⟨here.served, fun _ _ => ⟨_, rfl⟩⟩
  | error stop =>
    cases stop with
    | exception exception => exact after_pure.mpr ⟨here.served, fun _ _ => ⟨_, rfl⟩⟩
    | _ =>
      refine after_throw.mpr ⟨here.served, fun addressable => ?_⟩
      obtain ⟨_, impossible⟩ := here.stops addressable _ rfl
      cases impossible

theorem dispatch_survives {header : RequestHeader} (served : Served server.btree)
    (decoded : header = RequestHeader.decode (server.streamBuffer.take REQUEST_HEADER_SIZE))
    (complete : header.totalLength ≤ server.streamBuffer.length)
    (admissible : ∀ pass : Pass, pass.command = header.command → pass.totalLength = header.totalLength →
      pass.Admissible) :
    After (dispatch environment header) server Survives := by
  apply after_bind.mpr
  apply after_modify.mpr
  have sound := admissible ⟨header.command, header.totalLength, server.streamBuffer.length, [], none⟩ rfl rfl
  cases command : Command.ofByte header.command with
  | none => exact absurd (.inl command) sound.1
  | some known =>
    have room : ∀ handled : known = .search ∨ known = .insert ∨ known = .delete,
        REQUEST_HEADER_SIZE + SIZEOF_KEY ≤ header.totalLength := by
      intro handled
      exact sound.2 (by rcases handled with rfl | rfl | rfl <;> simp [Pass.Handles, command])
    cases known with
    | invalid => exact absurd (.inr command) sound.1
    | quit => exact after_pure.mpr ⟨served, fun _ _ => ⟨_, rfl⟩⟩
    | search =>
      have long := Nat.le_trans (room (by simp)) complete
      exact Sheltered.caught (handleSearch_sheltered served long)
    | insert =>
      have long := Nat.le_trans (room (by simp)) complete
      exact Sheltered.caught (handleInsert_sheltered served long decoded complete (room (by simp)))
    | delete =>
      have long := Nat.le_trans (room (by simp)) complete
      exact Sheltered.caught (handleDelete_sheltered served long)

theorem Pass.Admissible.congr {pass other : Pass} (admissible : pass.Admissible)
    (command : other.command = pass.command)
    (total : other.totalLength = pass.totalLength) : other.Admissible := by
  simpa only [Pass.Admissible, Pass.Unknown, Pass.Keyed, Pass.Handles, command, total] using admissible

theorem Ends.kept {fuel bound : Nat} {result : Except Stop α} {final : Server}
    (ends : Ends server fuel bound result final) :
    ∀ pass ∈ server.passes, pass ∈ final.passes := by
  obtain ⟨new, passes, -⟩ := ends.passes
  intro pass member
  rw [passes]
  exact List.mem_append_right _ member

/-- What is known of all passes in the end is known of those of the first part. -/
theorem after_first {first : ServerM α} {next : α → ServerM β} {known : Pass → Prop}
    (all : After (first >>= next) server fun _ final => ∀ pass ∈ final.passes, known pass)
    (kept : ∀ value middle, After (next value) middle fun _ final => ∀ pass ∈ middle.passes,
      pass ∈ final.passes) :
    After first server fun _ middle => ∀ pass ∈ middle.passes, known pass := by
  apply (after_bind.mp all).imp
  intro result middle later
  cases result with
  | error stop => exact later
  | ok value =>
    obtain ⟨_, final, known, kept⟩ := (later.and (kept value middle)).exists
    exact fun pass member => known pass (kept pass member)

theorem innerLoop_kept (fuel : Nat) (server : Server) :
    After (innerLoop environment fuel) server fun _ final => ∀ pass ∈ server.passes, pass ∈ final.passes := by
  apply (innerLoop_ends fuel server).imp
  exact fun _ _ ends => ends.1.kept

theorem innerLoop_survives (fuel : Nat) (served : Served server.btree)
    (admissible : After (innerLoop environment fuel) server fun _ final => ∀ pass ∈ final.passes,
      pass.Admissible) :
    After (innerLoop environment fuel) server Survives := by
  induction fuel generalizing server with
  | zero => exact after_throw.mpr ⟨served, fun _ other => absurd rfl other⟩
  | succ fuel ih =>
    have done : ∀ value : Bool, After (pure value : ServerM Bool) server Survives :=
      fun value => after_pure.mpr ⟨served, fun _ _ => ⟨value, rfl⟩⟩
    rw [innerLoop] at admissible ⊢
    have looked := after_get.mp (after_bind.mp admissible)
    clear admissible
    apply after_bind.mpr
    apply after_get.mpr
    simp only at looked ⊢
    split at looked
    · rw [if_pos ‹_›]
      exact done false
    next arrived =>
    rw [if_neg arrived]
    split at looked
    · rw [if_pos ‹_›]
      exact done true
    next magic =>
    rw [if_neg magic]
    split at looked
    · rw [if_pos ‹_›]
      exact done true
    next verified =>
    rw [if_neg verified]
    split at looked
    · rw [if_pos ‹_›]
      exact done false
    next complete =>
    rw [if_neg complete]
    have complete := Nat.le_of_not_lt complete
    have passed := @dispatch_passed environment _ server rfl (Nat.le_of_not_lt arrived) complete
    have first := after_first looked fun ended middle => by
      cases ended with
      | true => exact after_pure.mpr fun _ member => member
      | false => exact innerLoop_kept fuel middle
    have sound : ∀ pass : Pass, pass.command =
      (RequestHeader.decode (server.streamBuffer.take REQUEST_HEADER_SIZE)).command →
        pass.totalLength =
          (RequestHeader.decode (server.streamBuffer.take REQUEST_HEADER_SIZE)).totalLength →
          pass.Admissible := by
      intro pass command total
      obtain ⟨_, middle, passed, known⟩ := (passed.and first).exists
      obtain ⟨other, passes, -, command', total', -⟩ := passed.pass
      have here := known other (by rw [passes]; exact .head _)
      exact here.congr (command.trans command'.symm) (total.trans total'.symm)
    apply after_bind.mpr
    apply ((dispatch_survives served rfl complete sound).and (after_bind.mp looked)).imp
    intro result middle both
    obtain ⟨survives, later⟩ := both
    cases result with
    | error stop =>
      refine ⟨survives.served, fun addressable other => ?_⟩
      obtain ⟨_, ended⟩ := survives.returns addressable fun same => other (by cases same; rfl)
      cases ended
    | ok ended =>
      cases ended with
      | true => exact after_pure.mpr ⟨survives.served, fun _ _ => ⟨_, rfl⟩⟩
      | false => exact ih survives.served later

/-- Calls of `read` after which `HandleClient` does not read again. -/
def Delivery.Ends (delivery : Delivery) : Prop :=
  delivery = .closed ∨ delivery = .failed ∨ delivery = .stopped

theorem readLoop_kept (fuel : Nat) (deliveries : List Delivery) (server : Server) :
    After (readLoop environment fuel deliveries) server fun _ final => ∀ pass ∈ server.passes,
      pass ∈ final.passes := by
  apply (readLoop_ends fuel deliveries server).imp
  exact fun _ _ ends => ends.kept

theorem readLoop_survives (fuel : Nat) (deliveries : List Delivery) (served : Served server.btree)
    (admissible : After (readLoop environment fuel deliveries) server fun _ final =>
      ∀ pass ∈ final.passes, pass.Admissible) :
    After (readLoop environment fuel deliveries) server Survives := by
  induction deliveries generalizing server with
  | nil => exact after_pure.mpr ⟨served, fun _ _ => ⟨_, rfl⟩⟩
  | cons delivery deliveries ih =>
    cases delivery with
    | closed => exact after_pure.mpr ⟨served, fun _ _ => ⟨_, rfl⟩⟩
    | failed => exact after_pure.mpr ⟨served, fun _ _ => ⟨_, rfl⟩⟩
    | stopped => exact after_pure.mpr ⟨served, fun _ _ => ⟨_, rfl⟩⟩
    | interrupted => exact ih served admissible
    | bytes chunk =>
      rw [readLoop] at admissible ⊢
      have appended := after_modify.mp (after_bind.mp admissible)
      simp only at appended
      have first := after_first appended fun ended middle => by
        cases ended with
        | true => exact after_pure.mpr fun _ member => member
        | false => exact readLoop_kept fuel deliveries middle
      apply after_bind.mpr
      apply after_modify.mpr
      apply after_bind.mpr
      have inside := @innerLoop_survives environment
          { server with streamBuffer := server.streamBuffer ++ chunk } fuel served first
      apply (inside.and (after_bind.mp appended)).imp
      intro result middle both
      obtain ⟨survives, later⟩ := both
      cases result with
      | error stop =>
        refine ⟨survives.served, fun addressable other => ?_⟩
        obtain ⟨_, ended⟩ := survives.returns addressable fun same => other (by cases same; rfl)
        cases ended
      | ok ended =>
        cases ended with
        | true => exact after_pure.mpr ⟨survives.served, fun _ _ => ⟨_, rfl⟩⟩
        | false => exact ih survives.served later

/-- The loop around `read` does not go on waiting on a connection that has ended. -/
theorem readLoop_leaves (fuel : Nat) (deliveries : List Delivery) (server : Server) :
    After (readLoop environment fuel deliveries) server fun result _ =>
      (∃ delivery ∈ deliveries, delivery.Ends) → result ≠ .ok .waiting := by
  induction deliveries generalizing server with
  | nil => exact after_pure.mpr fun ended => by simp at ended
  | cons delivery deliveries ih =>
    cases delivery with
    | closed => exact after_pure.mpr fun _ => nofun
    | failed => exact after_pure.mpr fun _ => nofun
    | stopped => exact after_pure.mpr fun _ => nofun
    | interrupted =>
      apply (ih server).imp
      intro result _ leaves ended
      exact leaves (by simpa [Delivery.Ends] using ended)
    | bytes chunk =>
      apply after_bind.mpr
      apply after_modify.mpr
      apply after_bind.mpr
      apply (innerLoop_ends fuel _).imp
      intro result middle _
      cases result with
      | error stop => exact fun _ => nofun
      | ok ended =>
        cases ended with
        | true => exact after_pure.mpr fun _ => nofun
        | false =>
          apply (ih middle).imp
          intro result _ leaves ended
          exact leaves (by simpa [Delivery.Ends] using ended)

/-- A server after connections of any clients. All their requests that were dispatched were
admissible. -/
inductive Visited : Server → Prop
  | start {server : Server} (opened : bootstrap launched = .ok () server) : Visited server
  | visit {environment : Environment} {fuel : Nat} {deliveries : List Delivery} {exit : Exit}
      {server server' : Server} (visited : Visited server)
      (handled : (do accept; handleClient environment fuel deliveries) server = .ok exit server')
      (admissible : ∀ pass ∈ server'.passes, pass.Admissible) : Visited server'

theorem handleClient_survives {fuel : Nat} {deliveries : List Delivery} (served : Served server.btree)
    (admissible : After (handleClient environment fuel deliveries) server fun _ final =>
      ∀ pass ∈ final.passes, pass.Admissible) :
    After (handleClient environment fuel deliveries) server Survives := by
  apply after_bind.mpr
  apply after_modify.mpr
  exact readLoop_survives fuel deliveries served (after_modify.mp (after_bind.mp admissible))

theorem Visited.served (visited : Visited server) : Served server.btree := by
  induction visited with
  | start opened =>
    have ran := (@liftTree_ran launched _ _ _ (construct_spec Loose trivial)).elim opened
    exact ⟨0, _, [], ran.1, nofun⟩
  | @visit environment fuel deliveries exit server server' visited handled admissible ih =>
    have known : After (handleClient environment fuel deliveries)
        { server with connected := true, sent := [] } fun _ final =>
        ∀ pass ∈ final.passes, pass.Admissible := after_of_ran (ran_of_eq handled |>.mpr admissible)
    have survives := @handleClient_survives environment { server with connected := true, sent := [] }
      fuel deliveries ih known
    exact (survives.elim handled).served

/-- A connection to a server that clients have visited comes to an end, if its requests are
admissible. -/
theorem handleClient_returns {fuel : Nat} {deliveries : List Delivery} (visited : Visited server)
    (enough : delivered deliveries < fuel)
    (admissible : After (handleClient environment fuel deliveries) server fun _ final =>
      ∀ pass ∈ final.passes, pass.Admissible) :
    After (handleClient environment fuel deliveries) server fun result final => Addressable final.btree →
      ∃ exit, result = .ok exit ∧ ((∃ delivery ∈ deliveries, delivery.Ends) → exit = .returned) := by
  have leaves : After (handleClient environment fuel deliveries) server fun result _ =>
      (∃ delivery ∈ deliveries, delivery.Ends) → result ≠ .ok .waiting :=
    after_bind.mpr (after_modify.mpr (readLoop_leaves fuel deliveries _))
  have ends := (handleClient_ends fuel deliveries server).and
    (handleClient_survives visited.served admissible)
  apply ((ends.and admissible).and leaves).imp
  rintro result final ⟨⟨⟨⟨-, -, fuelled⟩, survives⟩, admissible⟩, leaves⟩ addressable
  have fuelled : result ≠ .error .fuel :=
    fun out => absurd (fuelled out fun pass member => (admissible pass member).2) (by omega)
  obtain ⟨exit, rfl⟩ := survives.returns addressable fuelled
  refine ⟨exit, rfl, fun ended => ?_⟩
  cases exit with
  | returned => rfl
  | waiting => exact absurd rfl (leaves ended)

/-- No exception leaves `HandleClient` exactly if every request it dispatches has one of the
commands a client may send. On a server that clients have visited so far it returns, or waits for
more of a connection that has not ended, if requests also have room for the keys that are read; only
page ids must not run out. -/
theorem exceptions_contained (environment : Environment) (server : Server) (deliveries : List Delivery) :
    ((∀ fuel, After (handleClient environment fuel deliveries) server fun result _ => ¬ ∃ exception,
      result = .error (.exception exception)) ↔
      ∀ fuel, After (handleClient environment fuel deliveries) server fun _ final =>
        ∀ pass ∈ final.passes, ¬ pass.Unknown) ∧
    ∀ fuel, Visited server → delivered deliveries < fuel →
      After (handleClient environment fuel deliveries) server
        (fun _ final => ∀ pass ∈ final.passes, pass.Admissible) →
        After (handleClient environment fuel deliveries) server fun result final => Addressable final.btree →
          ∃ exit, result = .ok exit ∧ ((∃ delivery ∈ deliveries, delivery.Ends) → exit = .returned) := by
  refine ⟨⟨fun quiet fuel => ?_, fun known fuel => ?_⟩, fun fuel => handleClient_returns⟩
  · apply ((handleClient_ends fuel deliveries server).and (quiet fuel)).imp
    rintro result final ⟨⟨-, escapes, -⟩, quiet⟩ pass member unknown
    exact quiet (escapes.mpr ⟨pass, member, unknown⟩)
  · apply ((handleClient_ends fuel deliveries server).and (known fuel)).imp
    rintro result final ⟨⟨-, escapes, -⟩, known⟩ escaped
    obtain ⟨pass, member, unknown⟩ := escapes.mp escaped
    exact known pass member unknown

instance (pass : Pass) : Decidable pass.Handles := inferInstanceAs (Decidable (_ ∨ _ ∨ _))

instance (pass : Pass) : Decidable pass.Keyed := inferInstanceAs (Decidable (_ → _))

instance (pass : Pass) : Decidable pass.Admissible := inferInstanceAs (Decidable (_ ∧ _))

/-- A client inserts a key twice and leaves in the middle of a request. -/
def hurried : List Delivery :=
  let insertion := header 23 2 ++ LittleEndian.encode SIZEOF_KEY 7 ++ ascii "ab"
  [.bytes (insertion ++ insertion.take 5), .interrupted, .bytes (insertion.drop 5 ++ header 21 1), .closed]

/-- A client searches, deletes, and goes on with something else. -/
def confused : List Delivery :=
  [.bytes (header 21 1 ++ LittleEndian.encode SIZEOF_KEY 7 ++ header 21 3 ++
    LittleEndian.encode SIZEOF_KEY 7 ++ ascii "GET / HTTP/1.1"), .failed]

theorem exceptions_contained_confused : ∃ server, Visited server ∧
    After (handleClient attentive 80 confused) server fun result final => Addressable final.btree →
      ∃ exit, result = .ok exit ∧ ((∃ delivery ∈ confused, delivery.Ends) → exit = .returned) := by
  have runs : Ran bootstrap launched fun _ server =>
    Ran (do accept; handleClient attentive 80 hurried) server fun _ server' =>
      (∀ pass ∈ server'.passes, pass.Admissible) ∧
        After (handleClient attentive 80 confused) server' fun _ final => ∀ pass ∈ final.passes,
          pass.Admissible := by
    decide +kernel
  obtain ⟨_, server, opened, exit, server', handled, admissible, later⟩ := runs
  have visited : Visited server' := .visit (.start opened) handled admissible
  exact ⟨server', visited, (exceptions_contained attentive server' confused).2 80 visited
    (by decide +kernel) later⟩

/-- A header with a command no client may send brings the server down. -/
theorem unknown_command : Ran (do bootstrap; accept) launched fun _ server =>
    ¬ ∀ fuel, After (handleClient attentive fuel [.bytes (header 13 9)]) server fun result _ =>
      ¬ ∃ exception, result = .error (.exception exception) := by
  have escapes : Ran (do bootstrap; accept) launched fun _ server =>
      After (handleClient attentive 1 [.bytes (header 13 9)]) server fun _ final =>
        ∃ pass ∈ final.passes, pass.Unknown := by
    decide +kernel
  apply escapes.imp
  intro _ server outside quiet
  obtain ⟨result, final, ⟨⟨-, escapes, -⟩, unknown⟩, quiet⟩ :=
    (((handleClient_ends 1 _ server).and outside).and (quiet 1)).exists
  exact quiet (escapes.mpr unknown)

end Datashil
