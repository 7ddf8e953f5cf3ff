import Datashil.Library.Run
import Datashil.Server

/-! What a pass over a request does to the stream buffer, whatever the client has sent.
Nothing is assumed about the tree or about the connection. -/

namespace Datashil
open Library Server

/-- Parts of a handler that leave the stream buffer alone. -/
def Quiet {α : Type} (program : ServerM α) : Prop :=
  ∀ server, After program server fun result final =>
    final.streamBuffer = server.streamBuffer ∧ final.passes = server.passes ∧ result ≠ .error .fuel

section Quiet
variable {α β : Type} {environment : Environment}

theorem quiet_pure (value : α) : Quiet (pure value) := by
  intro server
  rw [after_pure]
  exact ⟨rfl, rfl, nofun⟩

theorem quiet_throw {stop : Stop} (other : stop ≠ .fuel) : Quiet (throw stop : ServerM α) := by
  intro server
  rw [after_throw]
  exact ⟨rfl, rfl, fun same => other (by cases same; rfl)⟩

theorem quiet_modify {f : Server → Server} (buffer : ∀ server, (f server).streamBuffer = server.streamBuffer)
    (passes : ∀ server, (f server).passes = server.passes) : Quiet (modify f) := by
  intro server
  rw [after_modify]
  exact ⟨buffer server, passes server, nofun⟩

theorem quiet_get : Quiet (get : ServerM Server) := by
  intro server
  rw [after_get]
  exact ⟨rfl, rfl, nofun⟩

theorem Quiet.andThen {first : ServerM α} {next : α → ServerM β} {server : Server}
    {post : Except Stop β → Server → Prop}
    (quiet : Quiet first)
    (failed : ∀ stop final, final.streamBuffer = server.streamBuffer → final.passes = server.passes →
      stop ≠ .fuel → post (.error stop) final)
    (continues : ∀ value final, final.streamBuffer = server.streamBuffer →
      final.passes = server.passes → After (next value) final post) :
    After (first >>= next) server post := by
  apply after_bind.mpr
  apply (quiet server).imp
  intro result final kept
  cases result with
  | ok value => exact continues value final kept.1 kept.2.1
  | error stop => exact failed stop final kept.1 kept.2.1 fun same => kept.2.2 (by rw [same])

theorem Quiet.bind {first : ServerM α} {next : α → ServerM β} (quiet : Quiet first)
    (continues : ∀ value, Quiet (next value)) :
    Quiet (first >>= next) := by
  intro server
  apply quiet.andThen
  · intro stop final buffer passes other
    exact ⟨buffer, passes, fun same => other (by cases same; rfl)⟩
  · intro value final buffer passes
    apply (continues value final).imp
    intro result last kept
    exact ⟨kept.1.trans buffer, kept.2.1.trans passes, kept.2.2⟩

theorem quiet_liftTree (program : TreeM α) : Quiet (liftTree program) := by
  intro server
  simp only [After, liftTree]
  cases program server.btree with
  | ok result st => exact ⟨rfl, rfl, nofun⟩
  | error failure st =>
    refine ⟨rfl, rfl, ?_⟩
    cases failure <;> simp [stopOf]

theorem quiet_throwRuntimeError (message : String) : Quiet (throwRuntimeError message) := quiet_throw nofun

theorem quiet_send (bytes : List Byte) : Quiet (send bytes) := quiet_modify (fun _ => rfl) fun _ => rfl

theorem quiet_writeLoop (results : List WriteResult) (buffer : List Byte) (count : Nat) :
    Quiet (writeLoop results buffer count) := by
  induction results generalizing buffer count with
  | nil => exact quiet_send buffer
  | cons result results ih =>
    simp only [writeLoop]
    split
    · exact quiet_pure ()
    cases result with
    | wrote written =>
      simp only
      split
      · split
        · exact quiet_throwRuntimeError _
        · exact ih _ _
      · exact (quiet_send _).bind fun _ => ih _ _
    | interrupted serverRunning =>
      cases serverRunning with
      | true => exact ih _ _
      | false => exact quiet_throw nofun
    | brokenPipe => exact quiet_throwRuntimeError _
    | failed errno description => exact quiet_throwRuntimeError _

theorem quiet_writeExactlyNBytes (buffer : List Byte) : Quiet (writeExactlyNBytes environment buffer) :=
  quiet_get.bind fun _ =>
    (show Quiet (modify fun server => { server with writes := server.writes + 1 }) from
      quiet_modify (fun _ => rfl) fun _ => rfl).bind
      fun _ => quiet_writeLoop _ _ _

theorem quiet_sendPayload (turns : Nat) (searchResult : PayloadStream) :
    Quiet (sendPayload environment turns searchResult) := by
  induction turns generalizing searchResult with
  | zero =>
    rw [sendPayload]
    split
    · exact quiet_pure ()
    · exact quiet_throw nofun
  | succ turns ih =>
    rw [sendPayload]
    split
    · exact quiet_pure ()
    · exact (quiet_liftTree _).bind fun _ => (quiet_writeExactlyNBytes _).bind fun _ => ih _

theorem quiet_acknowledge (statusCode : Nat) (echoCommand : Command) (key : List Byte) :
    Quiet (acknowledge environment statusCode echoCommand key) :=
  (quiet_writeExactlyNBytes _).bind fun _ => quiet_writeExactlyNBytes _

end Quiet

/-! ### Handlers -/

def Pass.Handles (pass : Pass) : Prop :=
  Command.ofByte pass.command = some .search ∨ Command.ofByte pass.command = some .insert ∨
    Command.ofByte pass.command = some .delete

def Pass.Unknown (pass : Pass) : Prop :=
  Command.ofByte pass.command = none ∨ Command.ofByte pass.command = some .invalid

def Pass.Keyed (pass : Pass) : Prop := pass.Handles → REQUEST_HEADER_SIZE + SIZEOF_KEY ≤ pass.totalLength

/-- What a pass reads belongs to the request, and it takes at least a header and a key out
of the stream buffer, if it does not end the connection. -/
def Pass.Contained (pass : Pass) : Prop :=
  (∀ read ∈ pass.reads, read.1 + read.2 ≤ pass.totalLength ∧ read.1 + read.2 ≤ pass.size) ∧
    ∀ count ∈ pass.removed, REQUEST_HEADER_SIZE + SIZEOF_KEY ≤ count

structure Pass.Recorded (pass : Pass) : Prop where
  complete : pass.totalLength ≤ pass.size
  key : pass.Handles → (REQUEST_HEADER_SIZE, SIZEOF_KEY) ∈ pass.reads
  handles : pass.reads ≠ [] → pass.Handles
  reads : ∀ read ∈ pass.reads, read.1 + read.2 ≤ REQUEST_HEADER_SIZE + SIZEOF_KEY ∨
    read.1 + read.2 ≤ pass.totalLength
  removed : ∀ count ∈ pass.removed, count = pass.totalLength ∧ pass.Handles

/-- Header and key are read before anything is known of the length. -/
theorem Pass.Recorded.contained_iff {pass : Pass} (recorded : pass.Recorded) :
    pass.Contained ↔ pass.Keyed := by
  constructor
  · intro contained handled
    exact (contained.1 _ (recorded.key handled)).1
  · intro long
    constructor
    · intro read member
      have least := long (recorded.handles (List.ne_nil_of_mem member))
      have complete := recorded.complete
      cases recorded.reads read member with
      | inl early => exact ⟨Nat.le_trans early least, Nat.le_trans early (Nat.le_trans least complete)⟩
      | inr inside => exact ⟨inside, Nat.le_trans inside complete⟩
    · intro count member
      obtain ⟨rfl, handled⟩ := recorded.removed count member
      exact long handled

variable {environment : Environment}

theorem after_readStream {server : Server} {offset count : Nat}
    {post : Except Stop (List Byte) → Server → Prop} :
    After (readStream environment offset count) server post ↔
      post (.ok ((List.range count).map fun i =>
          server.streamBuffer.getD (offset + i) (environment.beyond server.passes.length (offset + i))))
        { server with
          passes := server.passes.modifyHead fun pass => { pass with reads := pass.reads ++ [(offset, count)] } } := by
  simp only [readStream, after_bind, after_get, after_modify, after_pure]

theorem after_erase {server : Server} {count : Nat} {post : Except Stop Unit → Server → Prop} :
    After (erase count) server post ↔
      post (.ok ()) { server with
        streamBuffer := server.streamBuffer.drop count
        passes := server.passes.modifyHead fun pass =>
          { pass with removed := some (server.streamBuffer.take count).length } } := by
  rw [erase, after_modify]

theorem read_arrived {streamBuffer : List Byte} {offset count : Nat} {other : Nat → Byte}
    (arrived : offset + count ≤ streamBuffer.length) :
    (List.range count).map (fun i => streamBuffer.getD (offset + i) (other (offset + i))) =
      (streamBuffer.drop offset).take count := by
  apply List.ext_getElem
  · simp only [List.length_map, List.length_range, List.length_take, List.length_drop]
    omega
  · intro i inside _
    simp only [List.length_map, List.length_range] at inside
    simp only [List.getElem_map, List.getElem_range, List.getElem_take, List.getElem_drop]
    rw [List.getD_eq_getElem?_getD, List.getElem?_eq_getElem (by omega), Option.getD_some]

section Handlers
variable {pass : Pass} {rest : List Pass} {streamBuffer : List Byte} {server final : Server}

/-- A handler is at work on a request: it has read the header, the key and maybe more. -/
structure Working (pass : Pass) (rest : List Pass) (streamBuffer : List Byte) (server : Server) : Prop where
  buffer : server.streamBuffer = streamBuffer
  passes : ∃ more, server.passes =
    { pass with reads := (0, REQUEST_HEADER_SIZE) :: (REQUEST_HEADER_SIZE, SIZEOF_KEY) :: more } ::
    rest ∧
    ∀ read ∈ more, read.1 + read.2 ≤ pass.totalLength

structure Handled (pass : Pass) (rest : List Pass) (streamBuffer : List Byte)
    (result : Except Stop Unit) (final : Server) : Prop where
  passes : ∃ more removed, final.passes =
    { pass with reads := (0, REQUEST_HEADER_SIZE) :: (REQUEST_HEADER_SIZE, SIZEOF_KEY) :: more, removed } ::
    rest ∧
    (∀ read ∈ more, read.1 + read.2 ≤ pass.totalLength) ∧ ∀ count ∈ removed,
      count = (streamBuffer.take pass.totalLength).length
  ends : (∃ stop, result = .error stop ∧ stop ≠ .fuel) ∨
    (result = .ok () ∧ final.streamBuffer = streamBuffer.drop pass.totalLength)

theorem Working.failed (working : Working pass rest streamBuffer server) (fresh : pass.removed = none)
    {stop : Stop} (other : stop ≠ .fuel) :
    Handled pass rest streamBuffer (.error stop) server := by
  obtain ⟨more, passes, inside⟩ := working.passes
  refine ⟨⟨more, none, ?_, inside, nofun⟩, .inl ⟨stop, rfl, other⟩⟩
  rw [passes, ← fresh]

theorem Working.erase (working : Working pass rest streamBuffer server) :
    After (erase pass.totalLength) server (Handled pass rest streamBuffer) := by
  obtain ⟨more, passes, inside⟩ := working.passes
  apply after_erase.mpr
  refine ⟨⟨more, some (streamBuffer.take pass.totalLength).length, ?_, inside, ?_⟩,
    .inr ⟨rfl, by rw [working.buffer]⟩⟩
  · rw [passes, working.buffer]
    rfl
  · intro count same
    cases same
    rfl

theorem Working.andThen {α : Type} {first : ServerM α} {next : α → ServerM Unit}
    (working : Working pass rest streamBuffer server)
    (fresh : pass.removed = none) (quiet : Quiet first)
    (continues : ∀ value final, Working pass rest streamBuffer final →
      After (next value) final (Handled pass rest streamBuffer)) :
    After (first >>= next) server (Handled pass rest streamBuffer) := by
  have kept : ∀ final : Server, final.streamBuffer = server.streamBuffer →
      final.passes = server.passes → Working pass rest streamBuffer final := by
    intro final buffer passes
    exact ⟨buffer.trans working.buffer, passes ▸ working.passes⟩
  apply quiet.andThen
  · intro stop final buffer passes other
    exact (kept final buffer passes).failed fresh other
  · intro value final buffer passes
    exact continues value final (kept final buffer passes)

theorem Working.read {offset count : Nat} {next : List Byte → ServerM Unit}
    (working : Working pass rest streamBuffer server)
    (inside : offset + count ≤ pass.totalLength)
    (continues : ∀ bytes final, Working pass rest streamBuffer final →
      After (next bytes) final (Handled pass rest streamBuffer)) :
    After (readStream environment offset count >>= next) server (Handled pass rest streamBuffer) := by
  obtain ⟨more, passes, earlier⟩ := working.passes
  apply after_bind.mpr
  apply after_readStream.mpr
  apply continues
  refine ⟨working.buffer, more ++ [(offset, count)], ?_, ?_⟩
  · rw [passes]
    rfl
  · intro read member
    cases List.mem_append.mp member with
    | inl before => exact earlier read before
    | inr here =>
      cases List.mem_singleton.mp here
      exact inside

/-- The first two reads of every handler; the header is that of the pass. -/
theorem after_first_reads {next : List Byte → List Byte → ServerM Unit}
    (first : server.passes = pass :: rest) (fresh : pass.reads = [])
    (arrived : REQUEST_HEADER_SIZE ≤ server.streamBuffer.length)
    (total : pass.totalLength =
      (RequestHeader.decode (server.streamBuffer.take REQUEST_HEADER_SIZE)).totalLength)
    (continues : ∀ header key final, (RequestHeader.decode header).totalLength = pass.totalLength →
      Working pass rest server.streamBuffer final →
        After (next header key) final (Handled pass rest server.streamBuffer)) :
    After (readStream environment 0 REQUEST_HEADER_SIZE >>= fun header =>
      readStream environment REQUEST_HEADER_SIZE SIZEOF_KEY >>= fun key => next header key) server
      (Handled pass rest server.streamBuffer) := by
  apply after_bind.mpr
  apply after_readStream.mpr
  apply after_bind.mpr
  apply after_readStream.mpr
  apply continues
  · rw [read_arrived (by omega), List.drop_zero, total]
  · refine ⟨rfl, [], ?_, nofun⟩
    simp only [first, List.modifyHead_cons, fresh, List.nil_append, List.singleton_append]

variable (first : server.passes = pass :: rest) (fresh : pass.reads = [] ∧ pass.removed = none)
  (arrived : REQUEST_HEADER_SIZE ≤ server.streamBuffer.length)
  (total : pass.totalLength =
    (RequestHeader.decode (server.streamBuffer.take REQUEST_HEADER_SIZE)).totalLength)
include first fresh arrived total

theorem handleSearch_handled :
    After (handleSearch environment) server (Handled pass rest server.streamBuffer) := by
  apply after_first_reads first fresh.1 arrived total
  intro header key final same working
  apply working.andThen fresh.2 (quiet_liftTree _)
  intro searchResult final working
  apply working.andThen fresh.2 (quiet_writeExactlyNBytes _)
  intro _ final working
  apply working.andThen fresh.2 (quiet_sendPayload _ _)
  intro _ final working
  rw [same]
  exact working.erase

theorem handleInsert_handled :
    After (handleInsert environment) server (Handled pass rest server.streamBuffer) := by
  apply after_first_reads first fresh.1 arrived total
  intro header key final same working
  simp only [same]
  split
  · exact after_throw.mpr (working.failed fresh.2 nofun)
  next fits =>
    apply working.read (by omega)
    intro payload final working
    apply working.andThen fresh.2 (quiet_liftTree _)
    intro insertResult final working
    apply working.andThen fresh.2 (quiet_acknowledge _ _ _)
    intro _ final working
    exact working.erase

theorem handleDelete_handled :
    After (handleDelete environment) server (Handled pass rest server.streamBuffer) := by
  apply after_first_reads first fresh.1 arrived total
  intro header key final same working
  apply working.andThen fresh.2 (quiet_liftTree _)
  intro deleteResult final working
  apply working.andThen fresh.2 (quiet_acknowledge _ _ _)
  intro _ final working
  rw [same]
  exact working.erase

end Handlers

/-! ### One pass -/

theorem Handled.recorded {pass : Pass} {rest : List Pass} {streamBuffer : List Byte}
    {result : Except Stop Unit} {final : Server}
    (handled : Handled pass rest streamBuffer result final) (size : pass.size = streamBuffer.length)
    (complete : pass.totalLength ≤ pass.size)
    (handles : pass.Handles) :
    ∃ pass', final.passes = pass' :: rest ∧ pass'.Recorded ∧ pass'.command = pass.command ∧
      pass'.totalLength = pass.totalLength := by
  obtain ⟨more, removed, passes, inside, taken⟩ := handled.passes
  refine ⟨_, passes, ⟨complete, fun _ => .tail _ (.head _), fun _ => handles, ?_, ?_⟩, rfl, rfl⟩
  · intro read member
    simp only [List.mem_cons] at member
    rcases member with rfl | rfl | member
    · exact .inl (by decide)
    · exact .inl (by decide)
    · exact .inr (inside read member)
  · intro count member
    have same := taken count member
    rw [List.length_take] at same
    exact ⟨by simp only; omega, handles⟩

structure Passed (header : RequestHeader) (server : Server) (result : Except Stop Bool)
    (final : Server) : Prop where
  pass : ∃ pass, final.passes = pass :: server.passes ∧ pass.Recorded ∧ pass.command = header.command ∧
    pass.totalLength = header.totalLength ∧
    ((∃ exception, result = .error (.exception exception)) ↔ pass.Unknown) ∧
      (result = .ok false → pass.Handles)
  buffer : result = .ok false → final.streamBuffer = server.streamBuffer.drop header.totalLength
  ends : result ≠ .error .fuel

/-- A handler lets no exception through. -/
theorem caught_passed {handler : ServerM Unit} {header : RequestHeader} {server start : Server}
    (complete : header.totalLength ≤ server.streamBuffer.length)
    (handles : Pass.Handles ⟨header.command, header.totalLength, server.streamBuffer.length, [], none⟩)
    (same : start.streamBuffer = server.streamBuffer)
    (handled : After handler start
      (Handled ⟨header.command, header.totalLength, server.streamBuffer.length, [], none⟩ server.passes
      start.streamBuffer)) :
    After (caught handler) start (Passed header server) := by
  have known : ∀ pass : Pass, pass.command = header.command → ¬ pass.Unknown := by
    intro pass command unknown
    rw [Pass.Unknown, command] at unknown
    simp only [Pass.Handles] at handles
    rcases handles with found | found | found <;> rw [found] at unknown <;> simp at unknown
  apply after_tryCatch.mpr
  apply after_bind.mpr
  apply handled.imp
  intro result final handled
  obtain ⟨pass, passes, recorded, command, total⟩ := handled.recorded (by rw [same]) complete handles
  have unknown := known pass command
  have handles' : pass.Handles := by
    rw [Pass.Handles, command]
    exact handles
  cases result with
  | ok =>
    apply after_pure.mpr
    refine ⟨⟨pass, passes, recorded, command, total, by simp [unknown], fun _ => handles'⟩, fun _ => ?_,
      nofun⟩
    rcases handled.ends with ⟨stop, ⟨⟩, -⟩ | ⟨-, buffer⟩
    exact same ▸ buffer
  | error stop =>
    have other : stop ≠ .fuel := by
      rcases handled.ends with ⟨_, ⟨⟩, other⟩ | ⟨⟨⟩, -⟩
      exact other
    cases stop with
    | exception exception =>
      exact after_pure.mpr ⟨⟨pass, passes, recorded, command, total, by simp [unknown], nofun⟩, nofun,
        nofun⟩
    | crash failure =>
      exact after_throw.mpr ⟨⟨pass, passes, recorded, command, total, by simp [unknown], nofun⟩, nofun,
        nofun⟩
    | stalled =>
      exact after_throw.mpr ⟨⟨pass, passes, recorded, command, total, by simp [unknown], nofun⟩, nofun,
        nofun⟩
    | fuel => exact absurd rfl other

theorem dispatch_passed {header : RequestHeader} {server : Server}
    (decoded : header = RequestHeader.decode (server.streamBuffer.take REQUEST_HEADER_SIZE))
    (arrived : REQUEST_HEADER_SIZE ≤ server.streamBuffer.length)
    (complete : header.totalLength ≤ server.streamBuffer.length) :
    After (dispatch environment header) server (Passed header server) := by
  have unhandled : ∀ {result : Except Stop Bool}, Command.ofByte header.command ≠ some .search →
    Command.ofByte header.command ≠ some .insert →
      Command.ofByte header.command ≠ some .delete → result ≠ .ok false → result ≠ .error .fuel →
      ((∃ exception, result = .error (.exception exception)) ↔
        Pass.Unknown ⟨header.command, header.totalLength, server.streamBuffer.length, [], none⟩) →
      Passed header server result
        { server with
          passes := ⟨header.command, header.totalLength, server.streamBuffer.length, [], none⟩ :: server.passes } := by
    intro result search insert delete ended fuel escapes
    have none : ¬ Pass.Handles ⟨header.command, header.totalLength, server.streamBuffer.length, [],
        none⟩ := by
      simp [Pass.Handles, search, insert, delete]
    exact ⟨⟨_, rfl, ⟨complete, fun handled => absurd handled none, nofun, nofun, nofun⟩, rfl, rfl,
      escapes, fun same => absurd same ended⟩,
      fun same => absurd same ended, fuel⟩
  apply after_bind.mpr
  apply after_modify.mpr
  cases command : Command.ofByte header.command with
  | none =>
    apply after_throw.mpr
    apply unhandled <;> simp [command, Pass.Unknown]
  | some known =>
    cases known with
    | invalid =>
      apply after_throw.mpr
      apply unhandled <;> simp [command, Pass.Unknown]
    | search =>
      exact caught_passed complete (.inl command) rfl
        (handleSearch_handled rfl ⟨rfl, rfl⟩ arrived (by rw [decoded]))
    | insert =>
      exact caught_passed complete (.inr (.inl command)) rfl
        (handleInsert_handled rfl ⟨rfl, rfl⟩ arrived (by rw [decoded]))
    | delete =>
      exact caught_passed complete (.inr (.inr command)) rfl
        (handleDelete_handled rfl ⟨rfl, rfl⟩ arrived (by rw [decoded]))
    | quit =>
      apply after_pure.mpr
      apply unhandled <;> simp [command, Pass.Unknown]

/-! ### All passes -/

/-- What some passes leave behind; `bound` is how many passes there can be while every request
for a handler has room for a key. -/
structure Ends {α : Type} (server : Server) (fuel bound : Nat) (result : Except Stop α)
    (final : Server) : Prop where
  passes : ∃ new, final.passes = new ++ server.passes ∧ (∀ pass ∈ new, pass.Recorded) ∧
    ((∃ exception, result = .error (.exception exception)) ↔ ∃ pass ∈ new, pass.Unknown) ∧
    (result = .error .fuel → (∀ pass ∈ new, pass.Keyed) → fuel ≤ bound)

theorem ends_now {α : Type} {server final : Server} {fuel bound : Nat} (value : α)
    (passes : final.passes = server.passes) :
    Ends server fuel bound (.ok value) final := ⟨[], passes, nofun, by simp, nofun⟩

theorem Ends.andThen {α β : Type} {server middle final : Server}
    {fuel bound fuel' bound' more limit : Nat} {value : β} {result : Except Stop α}
    (first : Ends server fuel' bound' (.ok value) middle) (later : Ends middle more limit result final)
    (least : ∀ new, middle.passes = new ++ server.passes → (∀ pass ∈ new, pass.Keyed) → more ≤ limit →
      fuel ≤ bound) :
    Ends server fuel bound result final := by
  obtain ⟨new, passes, recorded, known, -⟩ := first.passes
  obtain ⟨new', passes', recorded', escapes, enough⟩ := later.passes
  have known : ¬ ∃ pass ∈ new, pass.Unknown := fun found => by simpa using known.mpr found
  refine ⟨new' ++ new, by rw [passes', passes, List.append_assoc], ?_, ?_, ?_⟩
  · intro pass member
    exact (List.mem_append.mp member).elim (recorded' pass) (recorded pass)
  · rw [escapes]
    constructor
    · rintro ⟨pass, member, unknown⟩
      exact ⟨pass, List.mem_append_left _ member, unknown⟩
    · rintro ⟨pass, member, unknown⟩
      cases List.mem_append.mp member with
      | inl later => exact ⟨pass, later, unknown⟩
      | inr earlier => exact absurd ⟨pass, earlier, unknown⟩ known
  · intro out keyed
    apply least new passes fun pass member => keyed pass (List.mem_append_right _ member)
    exact enough out fun pass member => keyed pass (List.mem_append_left _ member)

theorem Passed.ends_pass {header : RequestHeader} {server final : Server} {fuel bound : Nat}
    {result : Except Stop Bool}
    (passed : Passed header server result final) : Ends server fuel bound result final := by
  obtain ⟨pass, passes, recorded, -, -, escapes, -⟩ := passed.pass
  refine ⟨[pass], passes, ?_, by simpa using escapes, fun out => absurd out passed.ends⟩
  intro other member
  cases List.mem_singleton.mp member
  exact recorded

theorem innerLoop_ends (fuel : Nat) (server : Server) :
    After (innerLoop environment fuel) server fun result final =>
    Ends server fuel server.streamBuffer.length result final ∧
      (result = .ok false → final.streamBuffer.length ≤ server.streamBuffer.length) := by
  induction fuel generalizing server with
  | zero =>
    apply after_throw.mpr
    exact ⟨⟨[], rfl, nofun, by simp, fun _ _ => Nat.zero_le _⟩, nofun⟩
  | succ fuel ih =>
    rw [innerLoop]
    apply after_bind.mpr
    apply after_get.mpr
    simp only
    split
    · exact after_pure.mpr ⟨ends_now false rfl, fun _ => Nat.le_refl _⟩
    next arrived =>
    split
    · exact after_pure.mpr ⟨ends_now true rfl, nofun⟩
    split
    · exact after_pure.mpr ⟨ends_now true rfl, nofun⟩
    split
    · exact after_pure.mpr ⟨ends_now false rfl, fun _ => Nat.le_refl _⟩
    next complete =>
    apply after_bind.mpr
    apply (dispatch_passed rfl (Nat.le_of_not_lt arrived) (Nat.le_of_not_lt complete)).imp
    intro result middle passed
    cases result with
    | error stop => exact ⟨⟨passed.ends_pass.passes⟩, nofun⟩
    | ok ended =>
      cases ended with
      | true => exact after_pure.mpr ⟨passed.ends_pass, nofun⟩
      | false =>
        have dropped := congrArg List.length (passed.buffer rfl)
        rw [List.length_drop] at dropped
        apply (ih middle).imp
        rintro result final ⟨later, shrunk⟩
        refine ⟨(@Passed.ends_pass _ _ _ fuel 0 _ passed).andThen later ?_, fun out => ?_⟩
        · intro new passes keyed enough
          obtain ⟨pass, passes', -, -, total, -, handles⟩ := passed.pass
          obtain rfl : new = [pass] := List.append_cancel_right (passes.symm.trans passes')
          have room := keyed pass (.head _) (handles rfl)
          rw [total, show REQUEST_HEADER_SIZE + SIZEOF_KEY = 21 from rfl] at room
          omega
        · have := shrunk out
          omega

def delivered (deliveries : List Delivery) : Nat :=
  (deliveries.map fun
    | .bytes chunk => chunk.length
    | _ => 0).sum

theorem readLoop_ends (fuel : Nat) (deliveries : List Delivery) (server : Server) :
    After (readLoop environment fuel deliveries) server
      (Ends server fuel (server.streamBuffer.length + delivered deliveries)) := by
  induction deliveries generalizing server with
  | nil => exact after_pure.mpr (ends_now _ rfl)
  | cons delivery deliveries ih =>
    cases delivery with
    | closed => exact after_pure.mpr (ends_now _ rfl)
    | failed => exact after_pure.mpr (ends_now _ rfl)
    | stopped => exact after_pure.mpr (ends_now _ rfl)
    | interrupted =>
      rw [readLoop]
      simpa [delivered] using ih server
    | bytes chunk =>
      rw [readLoop]
      apply after_bind.mpr
      apply after_modify.mpr
      apply after_bind.mpr
      apply (innerLoop_ends fuel _).imp
      rintro result middle ⟨ends, shrunk⟩
      simp only [List.length_append] at ends shrunk
      have all : delivered (.bytes chunk :: deliveries) = chunk.length + delivered deliveries := rfl
      cases result with
      | error stop =>
        obtain ⟨new, passes, recorded, escapes, enough⟩ := ends.passes
        refine ⟨new, passes, recorded, by simpa using escapes, fun out keyed => ?_⟩
        have := enough (by cases out; rfl) keyed
        omega
      | ok ended =>
        cases ended with
        | true =>
          apply after_pure.mpr
          obtain ⟨new, passes, recorded, escapes, -⟩ := ends.passes
          exact ⟨new, passes, recorded, by simpa using escapes, nofun⟩
        | false =>
          apply (ih middle).imp
          intro result final later
          have := shrunk rfl
          have whole : Ends _ fuel (server.streamBuffer.length + delivered (.bytes chunk :: deliveries))
              result final :=
            ends.andThen later fun new passes keyed enough => by omega
          exact ⟨whole.passes⟩

theorem handleClient_ends (fuel : Nat) (deliveries : List Delivery) (server : Server) :
    After (handleClient environment fuel deliveries) server fun result final =>
      (∀ pass ∈ final.passes, pass.Recorded) ∧
      ((∃ exception, result = .error (.exception exception)) ↔ ∃ pass ∈ final.passes, pass.Unknown) ∧
      (result = .error .fuel → (∀ pass ∈ final.passes, pass.Keyed) → fuel ≤ delivered deliveries) := by
  apply after_bind.mpr
  apply after_modify.mpr
  apply (readLoop_ends fuel deliveries _).imp
  intro result final ends
  obtain ⟨new, passes, recorded, escapes, enough⟩ := ends.passes
  rw [List.append_nil] at passes
  subst passes
  exact ⟨recorded, escapes, by simpa using enough⟩

/-- Requests are handled within their own bytes, each taking at least a header and a key out
of the stream buffer, and the loop ends, exactly if every request handed to a handler is at
least that long. -/
theorem requests_contained (environment : Environment) (server : Server) (deliveries : List Delivery) :
    ((∀ fuel, After (handleClient environment fuel deliveries) server fun _ final =>
      ∀ pass ∈ final.passes, pass.Contained) ∧
        ∃ fuel, After (handleClient environment fuel deliveries) server fun result _ =>
          result ≠ .error .fuel) ↔
      ∀ fuel, After (handleClient environment fuel deliveries) server fun _ final =>
        ∀ pass ∈ final.passes, pass.Keyed := by
  constructor
  · rintro ⟨contained, -⟩ fuel
    apply ((handleClient_ends fuel deliveries server).and (contained fuel)).imp
    rintro result final ⟨⟨recorded, -⟩, contained⟩ pass member
    exact (recorded pass member).contained_iff.mp (contained pass member)
  · intro keyed
    constructor
    · intro fuel
      apply ((handleClient_ends fuel deliveries server).and (keyed fuel)).imp
      rintro result final ⟨⟨recorded, -⟩, keyed⟩ pass member
      exact (recorded pass member).contained_iff.mpr (keyed pass member)
    · refine ⟨delivered deliveries + 1, ?_⟩
      apply ((handleClient_ends _ deliveries server).and (keyed _)).imp
      rintro result final ⟨⟨-, -, enough⟩, keyed⟩ out
      exact absurd (enough out keyed) (by omega)

/-! ### A new server -/

def attentive : Environment := ⟨fun _ => [], fun _ _ => 0⟩

def header (totalLength : Nat) (command : Byte) : List Byte :=
  Utils.setChecksum (RequestHeader.encode ⟨NETWORK_MAGIC_NUMBER, totalLength, command, 0⟩)

instance (pass : Pass) : Decidable pass.Contained := inferInstanceAs (Decidable (_ ∧ _))

instance (pass : Pass) : Decidable pass.Unknown := inferInstanceAs (Decidable (_ ∨ _))

/-- A search that claims to have no bytes at all takes nothing out of the stream buffer. -/
theorem search_of_no_length : Ran (do bootstrap; accept) launched fun _ server =>
    ¬ ((∀ fuel, After (handleClient attentive fuel [.bytes (header 0 1)]) server fun _ final =>
      ∀ pass ∈ final.passes, pass.Contained) ∧
        ∃ fuel, After (handleClient attentive fuel [.bytes (header 0 1)]) server fun result _ =>
          result ≠ .error .fuel) := by
  have escapes : Ran (do bootstrap; accept) launched fun _ server =>
      After (handleClient attentive 1 [.bytes (header 0 1)]) server fun _ final =>
        ∃ pass ∈ final.passes, ¬ pass.Contained := by
    decide +kernel
  apply escapes.imp
  rintro _ server outside ⟨contained, -⟩
  obtain ⟨result, final, inside, pass, member, not⟩ := ((contained 1).and outside).exists
  exact not (inside pass member)

end Datashil
