import Datashil.Library.Parallel
import Datashil.Proofs.Serving

/-! How a stream of bytes is cut into reads makes no difference to the server, whatever the bytes
are, as long as no request for a handler is too short for its key. -/

namespace Datashil
open Library Server

/-- Two servers that differ at most in their stream buffers and in what they have recorded of their
passes. -/
structure Agree (server server' : Server) : Prop where
  btree : server'.btree = server.btree
  connected : server'.connected = server.connected
  sent : server'.sent = server.sent
  writes : server'.writes = server.writes

theorem Agree.symm {server server' : Server} (agree : Agree server server') : Agree server' server :=
  ⟨agree.btree.symm, agree.connected.symm, agree.sent.symm, agree.writes.symm⟩

theorem Agree.trans {server middle server' : Server} (left : Agree server middle)
    (right : Agree middle server') : Agree server server' :=
  ⟨right.btree.trans left.btree, right.connected.trans left.connected, right.sent.trans left.sent,
    right.writes.trans left.writes⟩

structure Ahead (buffer more : List Byte) (server server' : Server) : Prop where
  agree : Agree server server'
  received : server.streamBuffer = buffer
  further : server'.streamBuffer = buffer ++ more

variable {environment : Environment} {buffer more : List Byte}

/-! ### Handlers -/

/-- Programs that do the same whatever else has been received. -/
abbrev Unaffected {α : Type} (buffer more : List Byte) (program : ServerM α) : Prop :=
  Parallel (Ahead buffer more) Agree (fun _ => Ahead buffer more) program program

namespace Unaffected

theorem liftTree {α : Type} (program : TreeM α) : Unaffected buffer more (liftTree program) := by
  intro server server' ahead
  simp only [Server.liftTree, ahead.agree.btree]
  cases program server.btree with
  | ok result btree => exact .ok { ahead with agree := { ahead.agree with btree := rfl } }
  | error failure btree => exact .error { ahead.agree with btree := rfl }

theorem throw {α : Type} (stop : Stop) : Unaffected buffer more (MonadExcept.throw stop : ServerM α) :=
  Parallel.throw fun _ _ ahead => ahead.agree

theorem pure {α : Type} (result : α) : Unaffected buffer more (Pure.pure result) :=
  Parallel.pure fun _ _ ahead => ahead

theorem bind {α β : Type} {first : ServerM α} {next : α → ServerM β}
    (unaffected : Unaffected buffer more first)
    (continues : ∀ result, Unaffected buffer more (next result)) :
    Unaffected buffer more (first >>= next) :=
  Parallel.bind unaffected continues

theorem send (bytes : List Byte) : Unaffected buffer more (send bytes) :=
  Parallel.modify fun _ _ ahead =>
    ⟨{ ahead.agree with sent := congrArg (· ++ bytes) ahead.agree.sent }, ahead.received, ahead.further⟩

theorem writeLoop (results : List WriteResult) (bytes : List Byte) (count : Nat) :
    Unaffected buffer more (writeLoop results bytes count) := by
  induction results generalizing bytes count with
  | nil => exact send bytes
  | cons result results ih =>
    simp only [Server.writeLoop]
    split
    · exact pure _
    · cases result with
      | wrote written =>
        simp only
        split
        · split
          · exact throw _
          · exact ih _ _
        · exact bind (send _) fun _ => ih _ _
      | interrupted serverRunning =>
        simp only
        split
        · exact ih _ _
        · exact throw _
      | brokenPipe => exact throw _
      | failed errno description => exact throw _

theorem writeExactlyNBytes (bytes : List Byte) :
    Unaffected buffer more (writeExactlyNBytes environment bytes) := by
  intro server server' ahead
  have counted : Unaffected buffer more (modify fun server : Server =>
      { server with writes := server.writes + 1 }) :=
    Parallel.modify fun _ _ ahead =>
      ⟨{ ahead.agree with writes := congrArg (· + 1) ahead.agree.writes }, ahead.received,
      ahead.further⟩
  have parallel := bind counted fun _ => writeLoop (environment.write server.writes) bytes 0
  have written := parallel server server' ahead
  have same : Server.writeExactlyNBytes environment bytes server' =
      ((modify fun server : Server => { server with writes := server.writes + 1 }) >>= fun _ =>
        Server.writeLoop (environment.write server.writes) bytes 0) server' := by
    rw [← ahead.agree.writes]
    rfl
  rw [same]
  exact written

theorem sendPayload (turns : Nat) (searchResult : PayloadStream) :
    Unaffected buffer more (sendPayload environment turns searchResult) := by
  induction turns generalizing searchResult with
  | zero =>
    rw [Server.sendPayload]
    split
    · exact pure _
    · exact throw _
  | succ turns ih =>
    rw [Server.sendPayload]
    split
    · exact pure _
    · exact bind (liftTree _) fun _ => bind (writeExactlyNBytes _) fun _ => ih _

theorem acknowledge (statusCode : Nat) (echoCommand : Command) (key : List Byte) :
    Unaffected buffer more (acknowledge environment statusCode echoCommand key) :=
  bind (writeExactlyNBytes _) fun _ => writeExactlyNBytes _

end Unaffected

theorem parallel_readStream {offset count : Nat} (arrived : offset + count ≤ buffer.length) :
    Parallel (Ahead buffer more) Agree (fun bytes server server' =>
      bytes = (buffer.drop offset).take count ∧ Ahead buffer more server server')
      (readStream environment offset count) (readStream environment offset count) := by
  intro server server' ahead
  have bytes : ∀ other : Nat → Byte,
    (List.range count).map (fun i => server.streamBuffer.getD (offset + i) (other (offset + i))) =
      (buffer.drop offset).take count := fun other => by rw [ahead.received, read_arrived arrived]
  have bytes' : ∀ other : Nat → Byte,
    (List.range count).map (fun i => server'.streamBuffer.getD (offset + i) (other (offset + i))) =
      (buffer.drop offset).take count := by
    intro other
    rw [ahead.further, read_arrived (by rw [List.length_append]; omega),
      List.drop_append_of_le_length (by omega),
      List.take_append_of_le_length (by rw [List.length_drop]; omega)]
  have read := bytes (environment.beyond server.passes.length)
  have read' := bytes' (environment.beyond server'.passes.length)
  have run : ∀ server : Server, readStream environment offset count server =
      .ok ((List.range count).map fun i =>
        server.streamBuffer.getD (offset + i) (environment.beyond server.passes.length (offset + i)))
        { server with
          passes := server.passes.modifyHead fun pass => { pass with reads := pass.reads ++ [(offset, count)] } } :=
          fun _ => rfl
  rw [run, run, read, read']
  exact .ok ⟨rfl, { ahead.agree with }, ahead.received, ahead.further⟩

theorem parallel_erase {count : Nat} (arrived : count ≤ buffer.length) :
    Parallel (Ahead buffer more) Agree (fun _ => Ahead (buffer.drop count) more) (erase count)
      (erase count) := by
  refine .modify fun server server' ahead =>
    ⟨{ ahead.agree with }, congrArg (List.drop count) ahead.received, ?_⟩
  have rest := congrArg (List.drop count) ahead.further
  rw [List.drop_append_of_le_length arrived] at rest
  exact rest

section Handlers
variable {header : RequestHeader} (least : REQUEST_HEADER_SIZE + SIZEOF_KEY ≤ header.totalLength)
    (complete : header.totalLength ≤ buffer.length)
include least complete

theorem parallel_first_reads {next : List Byte → List Byte → ServerM Unit}
    (continues : Parallel (Ahead buffer more) Agree (fun _ => Ahead (buffer.drop header.totalLength) more)
      (next (buffer.take REQUEST_HEADER_SIZE) ((buffer.drop REQUEST_HEADER_SIZE).take SIZEOF_KEY))
      (next (buffer.take REQUEST_HEADER_SIZE) ((buffer.drop REQUEST_HEADER_SIZE).take SIZEOF_KEY))) :
    Parallel (Ahead buffer more) Agree (fun _ => Ahead (buffer.drop header.totalLength) more)
      (readStream environment 0 REQUEST_HEADER_SIZE >>= fun head =>
        readStream environment REQUEST_HEADER_SIZE SIZEOF_KEY >>= next head)
      (readStream environment 0 REQUEST_HEADER_SIZE >>= fun head =>
        readStream environment REQUEST_HEADER_SIZE SIZEOF_KEY >>= next head) := by
  refine .bind (parallel_readStream (by omega)) fun head server server' known => ?_
  obtain ⟨rfl, ahead⟩ := known
  refine Parallel.bind (parallel_readStream (by omega))
    (fun key server server' known => ?_) server server' ahead
  obtain ⟨rfl, ahead⟩ := known
  rw [List.drop_zero]
  exact continues server server' ahead

variable (decoded : header = RequestHeader.decode (buffer.take REQUEST_HEADER_SIZE))
include decoded

theorem parallel_handleSearch :
    Parallel (Ahead buffer more) Agree (fun _ => Ahead (buffer.drop header.totalLength) more)
    (handleSearch environment) (handleSearch environment) := by
  refine parallel_first_reads least complete ?_
  refine .bind (Unaffected.liftTree _) fun _ => .bind (Unaffected.writeExactlyNBytes _) fun _ =>
    .bind (Unaffected.sendPayload _ _) fun _ => ?_
  rw [← decoded]
  exact parallel_erase complete

theorem parallel_handleDelete :
    Parallel (Ahead buffer more) Agree (fun _ => Ahead (buffer.drop header.totalLength) more)
    (handleDelete environment) (handleDelete environment) := by
  refine parallel_first_reads least complete ?_
  refine .bind (Unaffected.liftTree _) fun _ => .bind (Unaffected.acknowledge _ _ _) fun _ => ?_
  rw [← decoded]
  exact parallel_erase complete

theorem parallel_handleInsert :
    Parallel (Ahead buffer more) Agree (fun _ => Ahead (buffer.drop header.totalLength) more)
    (handleInsert environment) (handleInsert environment) := by
  refine parallel_first_reads least complete ?_
  rw [← decoded]
  split
  · exact .throw fun _ _ ahead => ahead.agree
  · refine .bind (parallel_readStream (by omega)) fun payload server server' known => ?_
    refine Parallel.bind (Unaffected.liftTree _) (fun _ => .bind (Unaffected.acknowledge _ _ _) fun _ =>
      parallel_erase complete) server server' known.2

end Handlers

/-- What a pass leaves behind: after the last one, nothing more is read. -/
def Left (buffer more : List Byte) (ended : Bool) (server server' : Server) : Prop :=
  if ended then Agree server server' else Ahead buffer more server server'

theorem parallel_caught {handler : ServerM Unit} {rest : List Byte}
    (parallel : Parallel (Ahead buffer more) Agree (fun _ => Ahead rest more) handler handler) :
    Parallel (Ahead buffer more) Agree (Left rest more) (caught handler) (caught handler) := by
  intro server server' ahead
  have alike := parallel server server' ahead
  simp only [caught, tryCatch, tryCatchThe, MonadExceptOf.tryCatch, EStateM.tryCatch, Bind.bind, EStateM.bind]
  generalize handler server = first at alike ⊢
  generalize handler server' = second at alike ⊢
  cases alike with
  | ok ahead => exact .ok ahead
  | @error stop final final' agree =>
    cases stop with
    | exception => exact .ok agree
    | _ => exact .error agree

def RequestHeader.Handles (header : RequestHeader) : Prop :=
  Command.ofByte header.command = some .search ∨ Command.ofByte header.command = some .insert ∨
    Command.ofByte header.command = some .delete

theorem parallel_dispatch {header : RequestHeader}
    (decoded : header = RequestHeader.decode (buffer.take REQUEST_HEADER_SIZE))
    (least : header.Handles → REQUEST_HEADER_SIZE + SIZEOF_KEY ≤ header.totalLength)
    (complete : header.totalLength ≤ buffer.length) :
    Parallel (Ahead buffer more) Agree
      (fun ended server server' => (ended = false → header.Handles) ∧
        Left (buffer.drop header.totalLength) more ended server server')
      (dispatch environment header) (dispatch environment header) := by
  have recorded : Unaffected buffer more (modify fun server : Server =>
      { server with
        passes := ⟨header.command, header.totalLength, server.streamBuffer.length, [], none⟩ :: server.passes }) :=
    Parallel.modify fun _ _ ahead => ⟨{ ahead.agree with }, ahead.received, ahead.further⟩
  refine Parallel.bind recorded fun _ => ?_
  have stops : ∀ message, Parallel (Ahead buffer more) Agree
      (fun ended server server' => (ended = false → header.Handles) ∧
        Left (buffer.drop header.totalLength) more ended server server')
      (throw (.exception (.runtimeError message)) : ServerM Bool)
      (throw (.exception (.runtimeError message))) :=
    fun _ => Parallel.throw fun _ _ ahead => ahead.agree
  cases command : Command.ofByte header.command with
  | none => exact stops _
  | some known =>
    cases known with
    | invalid => exact stops _
    | search =>
      have handles : header.Handles := .inl command
      exact (parallel_caught (parallel_handleSearch (least handles) complete decoded)).imp
        fun _ _ _ left => ⟨fun _ => handles, left⟩
    | insert =>
      have handles : header.Handles := .inr (.inl command)
      exact (parallel_caught (parallel_handleInsert (least handles) complete decoded)).imp
        fun _ _ _ left => ⟨fun _ => handles, left⟩
    | delete =>
      have handles : header.Handles := .inr (.inr command)
      exact (parallel_caught (parallel_handleDelete (least handles) complete decoded)).imp
        fun _ _ _ left => ⟨fun _ => handles, left⟩
    | quit => exact Parallel.pure fun _ _ ahead => ⟨nofun, ahead.agree⟩

/-! ### The loop over the stream buffer -/

def firstHeader (bytes : List Byte) : RequestHeader := RequestHeader.decode (bytes.take REQUEST_HEADER_SIZE)

/-- Up to where the server stops reading, each request for a handler has room for a key. A shorter
one reads bytes of what happens to stand behind it, which depends on the pieces. -/
inductive Framed : List Byte → Prop
  | short {bytes : List Byte} (few : bytes.length < REQUEST_HEADER_SIZE) : Framed bytes
  | cut {bytes : List Byte} (missing : bytes.length < (firstHeader bytes).totalLength) : Framed bytes
  | garbled {bytes : List Byte}
      (wrong : (firstHeader bytes).magicNumber ≠ NETWORK_MAGIC_NUMBER ∨
        Utils.verifyChecksum (bytes.take REQUEST_HEADER_SIZE) = false) : Framed bytes
  | ended {bytes : List Byte} (other : ¬ (firstHeader bytes).Handles) : Framed bytes
  | request {bytes : List Byte} (room : REQUEST_HEADER_SIZE + SIZEOF_KEY ≤ (firstHeader bytes).totalLength)
      (later : Framed (bytes.drop (firstHeader bytes).totalLength)) : Framed bytes

/-- Bytes that are left in the stream buffer until more have been received. -/
def Waits (bytes : List Byte) : Prop :=
  bytes.length < REQUEST_HEADER_SIZE ∨ ((firstHeader bytes).magicNumber = NETWORK_MAGIC_NUMBER ∧
    Utils.verifyChecksum (bytes.take REQUEST_HEADER_SIZE) = true ∧
      bytes.length < (firstHeader bytes).totalLength)

variable {server server' : Server} {fuel fuel' : Nat}

theorem innerLoop_eq : innerLoop environment (fuel + 1) server =
    if server.streamBuffer.length < REQUEST_HEADER_SIZE then .ok false server
    else if (firstHeader server.streamBuffer).magicNumber ≠ NETWORK_MAGIC_NUMBER then .ok true server
    else if !Utils.verifyChecksum (server.streamBuffer.take REQUEST_HEADER_SIZE) then .ok true server
    else if server.streamBuffer.length < (firstHeader server.streamBuffer).totalLength then .ok false server
    else (dispatch environment (firstHeader server.streamBuffer) >>= fun ended => if ended then
      pure true else innerLoop environment fuel) server := by
  have start : innerLoop environment (fuel + 1) server =
    (if server.streamBuffer.length < REQUEST_HEADER_SIZE then pure false
    else if (firstHeader server.streamBuffer).magicNumber ≠ NETWORK_MAGIC_NUMBER then pure true
    else if !Utils.verifyChecksum (server.streamBuffer.take REQUEST_HEADER_SIZE) then pure true
    else if server.streamBuffer.length < (firstHeader server.streamBuffer).totalLength then pure false
    else dispatch environment (firstHeader server.streamBuffer) >>= fun ended => if ended then pure true
      else innerLoop environment fuel) server :=
      rfl
  rw [start]
  by_cases few : server.streamBuffer.length < REQUEST_HEADER_SIZE
  · rw [if_pos few, if_pos few]
    rfl
  by_cases other : (firstHeader server.streamBuffer).magicNumber ≠ NETWORK_MAGIC_NUMBER
  · rw [if_neg few, if_pos other, if_neg few, if_pos other]
    rfl
  by_cases wrong : (!Utils.verifyChecksum (server.streamBuffer.take REQUEST_HEADER_SIZE)) = true
  · rw [if_neg few, if_neg other, if_pos wrong, if_neg few, if_neg other, if_pos wrong]
    rfl
  by_cases missing : server.streamBuffer.length < (firstHeader server.streamBuffer).totalLength
  · rw [if_neg few, if_neg other, if_neg wrong, if_pos missing, if_neg few, if_neg other, if_neg wrong,
      if_pos missing]
    rfl
  · rw [if_neg few, if_neg other, if_neg wrong, if_neg missing, if_neg few, if_neg other, if_neg wrong,
      if_neg missing]

theorem innerLoop_waits (waits : Waits server.streamBuffer) :
    innerLoop environment (fuel + 1) server = .ok false server := by
  rw [innerLoop_eq]
  cases waits with
  | inl short => rw [if_pos short]
  | inr underway =>
    obtain ⟨magic, verified, missing⟩ := underway
    by_cases short : server.streamBuffer.length < REQUEST_HEADER_SIZE
    · rw [if_pos short]
    · rw [if_neg short, if_neg (not_not.mpr magic), if_neg (by rw [verified]; decide), if_pos missing]

/-- The loop gets through the first bytes and waits. With all of them it comes to the same place,
and goes on. -/
def GoesOn (environment : Environment) (buffer more : List Byte) (fuel fuel' : Nat)
    (server server' : Server) : Prop :=
  ∃ rest final later fuel'', innerLoop environment fuel server = .ok false final ∧
    innerLoop environment fuel' server' = innerLoop environment fuel'' later ∧
      Ahead rest more final later ∧ Waits rest ∧
      Framed (rest ++ more) ∧ rest.length ≤ buffer.length ∧ rest.length + more.length < fuel''

/-- The loop ends the connection or throws, with the first bytes and with all of them. -/
def Stops (environment : Environment) (fuel fuel' : Nat) (server server' : Server) : Prop :=
  Alike Agree (fun ended final final' => ended = true ∧ Agree final final')
    (innerLoop environment fuel server) (innerLoop environment fuel' server')

theorem innerLoop_ahead (framed : Framed (buffer ++ more)) (enough : buffer.length < fuel)
    (enough' : buffer.length + more.length < fuel')
    (ahead : Ahead buffer more server server') :
    GoesOn environment buffer more fuel fuel' server server' ∨
      Stops environment fuel fuel' server server' := by
  induction fuel generalizing fuel' buffer server server' with
  | zero => cases enough
  | succ fuel ih =>
    cases fuel' with
    | zero => cases enough'
    | succ fuel' =>
      by_cases waits : Waits buffer
      · exact .inl ⟨buffer, server, server', fuel' + 1, innerLoop_waits (ahead.received ▸ waits), rfl,
          ahead, waits, framed, Nat.le_refl _, enough'⟩
      have few : ¬ buffer.length < REQUEST_HEADER_SIZE := fun few => waits (.inl few)
      have head : (buffer ++ more).take REQUEST_HEADER_SIZE = buffer.take REQUEST_HEADER_SIZE :=
        List.take_append_of_le_length (Nat.le_of_not_lt few)
      have header : firstHeader (buffer ++ more) = firstHeader buffer := congrArg RequestHeader.decode head
      have length : (buffer ++ more).length = buffer.length + more.length := List.length_append
      have few' : ¬ (buffer ++ more).length < REQUEST_HEADER_SIZE := by omega
      rw [GoesOn, Stops, innerLoop_eq, innerLoop_eq, ahead.received, ahead.further, if_neg few,
        if_neg few', head, header]
      by_cases other : (firstHeader buffer).magicNumber ≠ NETWORK_MAGIC_NUMBER
      · rw [if_pos other, if_pos other]
        exact .inr (.ok ⟨rfl, ahead.agree⟩)
      by_cases wrong : (!Utils.verifyChecksum (buffer.take REQUEST_HEADER_SIZE)) = true
      · rw [if_neg other, if_pos wrong, if_neg other, if_pos wrong]
        exact .inr (.ok ⟨rfl, ahead.agree⟩)
      have verified : Utils.verifyChecksum (buffer.take REQUEST_HEADER_SIZE) = true := by simpa using wrong
      have complete : ¬ buffer.length < (firstHeader buffer).totalLength :=
        fun missing => waits (.inr ⟨not_not.mp other, verified, missing⟩)
      have complete' : ¬ (buffer ++ more).length < (firstHeader buffer).totalLength := by omega
      rw [if_neg other, if_neg wrong, if_neg complete, if_neg other, if_neg wrong, if_neg complete']
      have framing : (firstHeader buffer).Handles →
        REQUEST_HEADER_SIZE + SIZEOF_KEY ≤ (firstHeader buffer).totalLength ∧
          Framed ((buffer ++ more).drop (firstHeader buffer).totalLength) := by
        intro handles
        rw [← header] at handles complete' ⊢
        cases framed with
        | short few => exact absurd few few'
        | cut missing => exact absurd missing complete'
        | garbled wrong =>
          rw [header, head, verified] at wrong
          exact absurd (wrong.resolve_right nofun) other
        | ended other => exact absurd handles other
        | request room later => exact ⟨room, later⟩
      have alike := @parallel_dispatch environment buffer more (firstHeader buffer) rfl
        (fun handles => (framing handles).1) (Nat.le_of_not_lt complete)
        server server' ahead
      simp only [Bind.bind, EStateM.bind]
      generalize dispatch environment (firstHeader buffer) server = first at alike ⊢
      generalize dispatch environment (firstHeader buffer) server' = second at alike ⊢
      cases alike with
      | error agree => exact .inr (.error agree)
      | @ok result final final' holds =>
        obtain ⟨handles, left⟩ := holds
        cases result with
        | true => exact .inr (.ok ⟨rfl, left⟩)
        | false =>
          obtain ⟨room, later⟩ := framing (handles rfl)
          have shorter : (buffer.drop (firstHeader buffer).totalLength).length = buffer.length -
              (firstHeader buffer).totalLength :=
            List.length_drop
          rw [List.drop_append_of_le_length (Nat.le_of_not_lt complete)] at later
          have positive : 0 < (firstHeader buffer).totalLength := Nat.lt_of_lt_of_le (by decide) room
          have first : (buffer.drop (firstHeader buffer).totalLength).length < fuel := by omega
          have all : (buffer.drop (firstHeader buffer).totalLength).length + more.length < fuel' := by omega
          refine (ih later first all left).imp_left fun goes => ?_
          obtain ⟨rest, final, later, fuel'', ended, ended', ahead, waits, framed, less, enough⟩ := goes
          exact ⟨rest, final, later, fuel'', ended, ended', ahead, waits, framed,
            Nat.le_trans less (by omega), enough⟩

/-! ### The loop around the reads -/

def settle (environment : Environment) (fuel : Nat) (deliveries : List Delivery) : ServerM Exit := do
  if ← innerLoop environment fuel then return .returned else readLoop environment fuel deliveries

def Ended (exit : Exit) (server server' : Server) : Prop :=
  Agree server server' ∧ (exit = .waiting → server'.streamBuffer = server.streamBuffer)

theorem Stops.settle {deliveries deliveries' : List Delivery}
    (stops : Stops environment fuel fuel' server server') :
    Alike Agree Ended (Datashil.settle environment fuel deliveries server)
      (Datashil.settle environment fuel' deliveries' server') := by
  rw [Stops] at stops
  simp only [Datashil.settle, Bind.bind, EStateM.bind]
  generalize innerLoop environment fuel server = first at stops ⊢
  generalize innerLoop environment fuel' server' = second at stops ⊢
  cases stops with
  | error agree => exact .error agree
  | ok holds =>
    obtain ⟨rfl, agree⟩ := holds
    exact .ok ⟨agree, nofun⟩

theorem settle_goes_on {deliveries : List Delivery} {final : Server}
    (ended : innerLoop environment fuel server = .ok false final) :
    settle environment fuel deliveries server = readLoop environment fuel deliveries final := by
  simp only [settle, Bind.bind, EStateM.bind, ended]
  rfl

theorem settle_whole {deliveries : List Delivery} (delivers : Delivers deliveries more)
    (framed : Framed (buffer ++ more))
    (enough : buffer.length + more.length < fuel) (enough' : buffer.length + more.length < fuel')
    (ahead : Ahead buffer more server server') :
    Alike Agree Ended (settle environment fuel deliveries server) (settle environment fuel' [] server') := by
  induction delivers generalizing buffer server server' fuel' with
  | nil =>
    rcases innerLoop_ahead framed (Nat.lt_of_le_of_lt (Nat.le_add_right _ _) enough) enough' ahead with
      goes | stops
    · obtain ⟨rest, final, later, fuel'', ended, same, ahead, waits, -, -, some⟩ := goes
      have buffers : later.streamBuffer = rest := by rw [ahead.further, List.append_nil]
      cases fuel'' with
      | zero => cases some
      | succ fuel'' =>
        rw [innerLoop_waits (buffers ▸ waits)] at same
        rw [settle_goes_on ended, settle_goes_on same]
        exact .ok ⟨ahead.agree, fun _ => buffers.trans ahead.received.symm⟩
    · exact stops.settle
  | interrupted delivers ih => exact ih framed enough enough' ahead
  | @bytes deliveries chunk rest some_bytes fits delivers ih =>
    have first : buffer.length < fuel := Nat.lt_of_le_of_lt (Nat.le_add_right _ _) enough
    rcases @innerLoop_ahead environment buffer (chunk ++ rest) server server' fuel fuel' framed first
      enough' ahead with goes | stops
    · obtain ⟨kept, final, later, fuel'', ended, same, ahead, -, framed, less, some⟩ := goes
      rw [List.length_append] at enough some
      have further : Ahead (kept ++ chunk) rest
          { final with streamBuffer := final.streamBuffer ++ chunk } later :=
        ⟨{ ahead.agree with }, congrArg (· ++ chunk) ahead.received, by rw [ahead.further, List.append_assoc]⟩
      have size : (kept ++ chunk).length = kept.length + chunk.length := List.length_append
      have later_enough : (kept ++ chunk).length + rest.length < fuel := by omega
      have later_enough' : (kept ++ chunk).length + rest.length < fuel'' := by omega
      rw [← List.append_assoc] at framed
      have whole : settle environment fuel' [] server' = settle environment fuel'' [] later := by
        simp only [settle, Bind.bind, EStateM.bind, same]
        rfl
      rw [settle_goes_on ended, whole]
      exact ih framed later_enough later_enough' further
    · exact stops.settle

theorem Ended.symm {exit : Exit} (ended : Ended exit server server') : Ended exit server' server :=
  ⟨ended.1.symm, fun waits => (ended.2 waits).symm⟩

theorem Ended.trans {exit : Exit} {middle : Server} (left : Ended exit server middle)
    (right : Ended exit middle server') : Ended exit server server' :=
  ⟨left.1.trans right.1, fun waits => (right.2 waits).trans (left.2 waits)⟩

theorem handleClient_settle {deliveries : List Delivery} (some : 0 < fuel) :
    handleClient environment fuel deliveries server =
      settle environment fuel deliveries { server with streamBuffer := [], passes := [] } := by
  cases fuel with
  | zero => cases some
  | succ fuel =>
    have nothing : Waits [] := .inl (by decide)
    exact (settle_goes_on (innerLoop_waits nothing)).symm

/-- A connection on which the same bytes come in, cut in any two ways: the server returns, waits or
throws in both cases, after the same operations on the tree and with the same bytes sent. -/
theorem cuts_alike {deliveries deliveries' : List Delivery} {bytes : List Byte}
    (delivers : Delivers deliveries bytes)
    (delivers' : Delivers deliveries' bytes) (framed : Framed bytes) (enough : bytes.length < fuel)
    (enough' : bytes.length < fuel') :
    Alike Agree Ended (handleClient environment fuel deliveries server)
      (handleClient environment fuel' deliveries' server) := by
  have all : Ahead [] bytes { server with streamBuffer := [], passes := [] }
      { server with streamBuffer := bytes, passes := [] } :=
    ⟨⟨rfl, rfl, rfl, rfl⟩, rfl, rfl⟩
  have size : ([] : List Byte).length + bytes.length < fuel := (Nat.zero_add _).trans_lt enough
  have size' : ([] : List Byte).length + bytes.length < fuel' := (Nat.zero_add _).trans_lt enough'
  rw [handleClient_settle (Nat.zero_lt_of_lt enough), handleClient_settle (Nat.zero_lt_of_lt enough')]
  have left := @settle_whole environment [] bytes _ _ fuel fuel deliveries delivers framed size size all
  have right := @settle_whole environment [] bytes _ _ fuel' fuel deliveries' delivers' framed size' size all
  exact left.trans (right.symm (fun _ _ => Agree.symm) fun _ _ _ => Ended.symm)
    (fun _ _ _ => Agree.trans) fun _ _ _ _ => Ended.trans

theorem cuts_alike_search : ∃ server, Serving attentive server ∧
    Alike Agree Ended (handleClient attentive 22 [.bytes (Client.encode searchQuery)] server)
      (handleClient attentive 22 [.bytes ((Client.encode searchQuery).take 7), .interrupted,
        .bytes ((Client.encode searchQuery).drop 7)] server) := by
  obtain ⟨_, _, -, server, serving, -⟩ := serving_new
  have whole := delivers_whole (Client.encode searchQuery) (by decide +kernel) (by decide +kernel)
  have rest := delivers_whole ((Client.encode searchQuery).drop 7) (by decide +kernel) (by decide +kernel)
  have pieces : Delivers _ ((Client.encode searchQuery).take 7 ++ (Client.encode searchQuery).drop 7) :=
    .bytes (by decide +kernel) (by decide +kernel) (.interrupted rest)
  rw [List.take_append_drop] at pieces
  have framed : Framed (Client.encode searchQuery) :=
    .request (by decide +kernel) (.short (by decide +kernel))
  exact ⟨server, serving, cuts_alike whole pieces framed (by decide +kernel) (by decide +kernel)⟩

end Datashil
