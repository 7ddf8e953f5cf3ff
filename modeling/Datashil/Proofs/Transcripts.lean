import Datashil.Cli
import Datashil.Proofs.Grammar
import Datashil.Proofs.Lifetime

/-! What a user types and what is printed for it, down to the file of the server and back. To a user,
the database is a finite map from keys to texts. -/

namespace Datashil
open Library Server

abbrev Texts := Nat → Option (List Byte)

namespace Texts

def empty : Texts := fun _ => none

def stored (texts : Texts) : Contents := fun key => (texts key).map (LittleEndian.encode SIZEOF_KEY key ++ ·)

/-- What a query does. The strings of an insertion are joined. -/
def asked (texts : Texts) (query : Query) : Texts :=
  match query.command with
  | .insert => Function.update texts query.key (some query.payload.flatten)
  | .delete => Function.update texts query.key none
  | _ => texts

def after (queries : List Query) : Texts := queries.foldl asked empty

end Texts

/-- A line begins with a query; what comes after it does not matter. -/
def Asks (line : List Byte) (command : Command) (key : Nat) (payload : List (List Byte)) : Prop :=
  ∃ spelled rest, line = spelled ++ rest ∧ Denotes spelled command key payload

def printed (key : Nat) (text : List Byte) : List Byte :=
  CLI.printStatus 1 ++ CLI.printPayload [CLI.to_string key, text]

def printedFailure : List Byte := CLI.printStatus 4 ++ ascii "Query failed!\n"

/-- Everything that is printed while some lines are typed. A deletion may deny that it has removed
the key. -/
inductive Transcript : Texts → List (List Byte) → List Byte → Prop
  | nil {texts : Texts} : Transcript texts [] CLI.PROMPT
  | invalid {texts : Texts} {line output : List Byte} {lines : List (List Byte)}
      (none : ∀ command key payload, ¬ Asks line command key payload)
      (rest : Transcript texts lines output) :
        Transcript texts (line :: lines) (CLI.PROMPT ++ ascii "Invalid Query\n" ++ output)
  | found {texts : Texts} {line text output : List Byte} {lines : List (List Byte)} {key : Nat}
      {payload : List (List Byte)}
      (asks : Asks line .search key payload) (stored : texts key = some text)
      (rest : Transcript texts lines output) :
      Transcript texts (line :: lines) (CLI.PROMPT ++ printed key text ++ output)
  | missing {texts : Texts} {line output : List Byte} {lines : List (List Byte)} {key : Nat}
      {payload : List (List Byte)}
      (asks : Asks line .search key payload) (absent : texts key = none)
      (rest : Transcript texts lines output) :
      Transcript texts (line :: lines) (CLI.PROMPT ++ printedFailure ++ output)
  | inserted {texts : Texts} {line output : List Byte} {lines : List (List Byte)} {key : Nat}
      {payload : List (List Byte)}
      (asks : Asks line .insert key payload)
      (rest : Transcript (Function.update texts key (some payload.flatten)) lines output) :
      Transcript texts (line :: lines) (CLI.PROMPT ++ printed key [] ++ output)
  | deleted {texts : Texts} {line output : List Byte} {lines : List (List Byte)} {key : Nat}
      {payload : List (List Byte)}
      (asks : Asks line .delete key payload) (stored : (texts key).isSome)
      (rest : Transcript (Function.update texts key none) lines output) :
      Transcript texts (line :: lines) (CLI.PROMPT ++ printed key [] ++ output)
  | denied {texts : Texts} {line output : List Byte} {lines : List (List Byte)} {key : Nat}
      {payload : List (List Byte)}
      (asks : Asks line .delete key payload)
      (rest : Transcript (Function.update texts key none) lines output) :
      Transcript texts (line :: lines) (CLI.PROMPT ++ printedFailure ++ output)

variable {environment : Environment} {network : Network} {fuel : Nat} {dialogue : Dialogue}
    {query : Query} {queries : List Query}
  {texts : Texts} {contents : Contents} {lines : List (List Byte)} {lengthError : List Byte}

/-! ### Texts and what is stored -/

namespace Texts

theorem stored_update (texts : Texts) (key : Nat) (text : Option (List Byte)) :
    stored (Function.update texts key text) =
    fun other => if other = key then text.map (LittleEndian.encode SIZEOF_KEY key ++ ·)
      else texts.stored other := by
  funext other
  by_cases same : other = key
  · subst same
    simp [stored]
  · simp [stored, same]

theorem served_stored : texts.stored.served [query] = (texts.asked query).stored := by
  cases command : query.command with
  | insert =>
    simp only [Contents.served, List.filterMap_cons, Query.operation, command, List.filterMap_nil,
      Contents.applyAll, List.foldl_cons,
      List.foldl_nil, Contents.apply, asked, stored_update]
    rfl
  | delete =>
    simp only [Contents.served, List.filterMap_cons, Query.operation, command, List.filterMap_nil,
      Contents.applyAll, List.foldl_cons,
      List.foldl_nil, Contents.apply, asked, stored_update]
    rfl
  | invalid | search | quit =>
    simp only [Contents.served, List.filterMap_cons, Query.operation, command, List.filterMap_nil,
      Contents.applyAll, List.foldl_cons,
      List.foldl_nil, Contents.apply, asked]

theorem after_stored (queries : List Query) : Contents.empty.served queries = (after queries).stored := by
  have all : ∀ texts : Texts, texts.stored.served queries = (queries.foldl asked texts).stored := by
    induction queries with
    | nil => exact fun _ => rfl
    | cons query queries ih =>
      intro texts
      rw [Contents.served_cons, served_stored, ih, List.foldl_cons]
  exact all empty

end Texts

/-! ### One query -/

structure Network.Delivering (network : Network) : Prop where
  delivers : ∀ call request, Delivers (network.deliveries call request) request
  enough : ∀ call stream, Suffice (network.reads call stream) stream.length

/-- Both ends of a connection while the user has not typed anything. -/
structure Dialogue.Quiet (dialogue : Dialogue) (contents : Contents) : Prop where
  upholds : Upholds dialogue.server.btree contents
  streamBuffer : dialogue.server.streamBuffer = []
  exit : dialogue.exit = .waiting
  received : dialogue.received = dialogue.server.sent.length

theorem Dialogue.Quiet.answered (quiet : dialogue.Quiet contents) (responsive : Responsive environment)
    (delivering : network.Delivering)
    (sendable : Sendable query) (fresh : Fresh contents ([query].filterMap Query.operation))
    (enough : 1 < fuel)
    (room : dialogue.server.btree.newPageOffsetIndex + MOST_PAGES ≤ 18446744073709551616) :
    Ran (Dialogue.sendCommandAndFetchReply environment network fuel query) dialogue fun fetched final =>
      ∃ answer, Expected contents query answer ∧ fetched = .response answer.statusCode answer.payload ∧
        final.Quiet (contents.served [query]) ∧
        final.server.btree.newPageOffsetIndex ≤ dialogue.server.btree.newPageOffsetIndex + MOST_PAGES := by
  have sendables : ∀ other ∈ [query], Sendable other :=
    fun other member => List.mem_singleton.mp member ▸ sendable
  have addressable : Addressable dialogue.server.btree := Nat.le_trans (Nat.le_add_right _ _) room
  obtain ⟨answer, st', fulfilled⟩ := quiet.upholds.fulfilled addressable sendable fresh
  have performed := fulfilled.performed
  have delivers := delivering.delivers dialogue.calls (Client.encode query)
  have parts : dialogue.server.streamBuffer ++ Client.encode query = [query].flatMap Client.encode := by
    rw [quiet.streamBuffer, List.nil_append, List.flatMap_singleton]
  obtain ⟨exit, server, ended, rfl, rfl, empty, sent, -⟩ :=
    readLoop_performs delivers responsive sendables (.cons performed .nil) parts
    (fun none => absurd none (encode_ne_nil query)) enough
  have stream : server.sent.drop dialogue.received = reply query answer := by
    rw [sent, quiet.received, List.drop_left]
    simp [replies]
  have small : (reply query answer).length < 18446744073709551616 := by
    have fits := performed.fits.1
    rw [reply, List.length_append, length_responseHeader]
    omega
  obtain ⟨later, received, -⟩ := performed.complete.receive [] small
    (delivering.enough dialogue.calls (reply query answer))
  obtain ⟨header, shows, -, status⟩ := performed.recovers
  rw [List.append_nil, shows] at received
  refine ⟨.response answer.statusCode answer.payload,
    ⟨server, .waiting, dialogue.calls + 1, server.sent.length - 0⟩, ?_, answer, fulfilled.expected,
    rfl, ⟨fulfilled.continues.upholds, empty, rfl, Nat.sub_zero _⟩, fulfilled.continues.grows⟩
  simp only [Dialogue.sendCommandAndFetchReply, quiet.exit, ite_true, ended, stream, received,
    Client.Reply.fetched, status, List.length_nil]

/-! ### The prompt -/

def typed (lines : List (List Byte)) : List Query := (lines.map Parser.make.parseQuery).filter Query.valid

theorem asks_of_valid {line : List Byte} (valid : (Parser.make.parseQuery line).valid = true) :
    Asks line (Parser.make.parseQuery line).command (Parser.make.parseQuery line).key
      (Parser.make.parseQuery line).payload := by
  obtain ⟨spelled, rest, command, key, payload, rfl, denotes⟩ := Parser.denotes_of_valid valid
  rw [Parser.parseQuery_of_denotes denotes]
  exact ⟨spelled, rest, rfl, denotes⟩

theorem valid_of_asks {line : List Byte} {command : Command} {key : Nat} {payload : List (List Byte)}
    (asks : Asks line command key payload) :
    (Parser.make.parseQuery line).valid = true := by
  obtain ⟨spelled, rest, rfl, denotes⟩ := asks
  rw [Parser.parseQuery_of_denotes denotes]

namespace CLI

theorem printResponse_stored (lengthError : List Byte) {key : Nat} (small : key < 18446744073709551616)
    (text : List Byte) :
    printResponse lengthError 1 (LittleEndian.encode SIZEOF_KEY key ++ text) = (printed key text, true) := by
  have length := LittleEndian.length_encode SIZEOF_KEY key
  have long : SIZEOF_KEY ≤ (LittleEndian.encode SIZEOF_KEY key ++ text).length := by
    rw [List.length_append, length]
    omega
  have decoded : LittleEndian.decode (LittleEndian.encode SIZEOF_KEY key) = key :=
    LittleEndian.decode_encode_of_lt small
  simp only [printResponse, parseResponsePayload, long, Nat.not_lt_of_le long, ite_true, ite_false,
    List.take_left' length, List.drop_left' length,
    decoded, List.singleton_append, printed]

theorem printResponse_failed (lengthError payload : List Byte) :
    printResponse lengthError 4 payload = (printedFailure, true) :=
  rfl

end CLI

theorem Expected.transcribes (lengthError : List Byte) (lines : List (List Byte)) {line : List Byte}
    {answer : Answer} (expected : Expected texts.stored query answer) (ready : Parser.Ready query)
    (asks : Asks line query.command query.key query.payload) :
    ∃ shown, CLI.printResponse lengthError answer.statusCode answer.payload = (shown, true) ∧
        ∀ output, Transcript (texts.asked query) lines output →
          Transcript texts (line :: lines) (CLI.PROMPT ++ shown ++ output) := by
  cases command : query.command with
  | search =>
    simp only [Expected, command] at expected
    simp only [Texts.asked, command] at asks ⊢
    cases stored : texts query.key with
    | none =>
      simp only [Texts.stored, stored] at expected
      subst expected
      exact ⟨printedFailure, CLI.printResponse_failed _ _, fun output rest => .missing asks stored rest⟩
    | some text =>
      simp only [Texts.stored, stored] at expected
      subst expected
      exact ⟨printed query.key text, CLI.printResponse_stored _ ready.key text, fun output rest =>
        .found asks stored rest⟩
  | insert =>
    simp only [Expected, command] at expected
    simp only [Texts.asked, command] at asks ⊢
    subst expected
    refine ⟨printed query.key [], ?_, fun output rest => .inserted asks rest⟩
    have shown := CLI.printResponse_stored lengthError ready.key []
    rwa [List.append_nil] at shown
  | delete =>
    simp only [Expected, command] at expected
    simp only [Texts.asked, command] at asks ⊢
    obtain ⟨key, status⟩ := expected
    cases status with
    | inl denied =>
      rw [denied]
      exact ⟨printedFailure, CLI.printResponse_failed _ _, fun output rest => .denied asks rest⟩
    | inr removed =>
      obtain ⟨success, stored⟩ := removed
      rw [success, key]
      have shown := CLI.printResponse_stored lengthError ready.key []
      rw [List.append_nil] at shown
      refine ⟨printed query.key [], shown, fun output rest => .deleted asks ?_ rest⟩
      simpa [Texts.stored] using stored
  | invalid => exact absurd command ready.command
  | quit =>
    simp only [Expected, command] at expected

theorem Dialogue.Quiet.transcribes (quiet : dialogue.Quiet texts.stored)
    (responsive : Responsive environment) (delivering : network.Delivering)
    (sendable : ∀ query ∈ typed lines, Sendable query)
    (fresh : Fresh texts.stored ((typed lines).filterMap Query.operation)) (enough : 1 < fuel)
    (room : dialogue.server.btree.newPageOffsetIndex + MOST_PAGES * (typed lines).length ≤
      18446744073709551616) :
    Ran (CLI.useCLI lengthError (Dialogue.sendCommandAndFetchReply environment network fuel)
      (lines.map .line)) dialogue
      fun output _ => Transcript texts lines output := by
  induction lines generalizing dialogue texts with
  | nil => exact ran_pure.mpr .nil
  | cons line lines ih =>
    by_cases valid : (Parser.make.parseQuery line).valid = true
    · have split : typed (line :: lines) = Parser.make.parseQuery line :: typed lines := by
        simp [typed, valid]
      rw [split] at sendable fresh room
      rw [← List.singleton_append, List.filterMap_append] at fresh
      rw [List.length_cons, Nat.mul_succ] at room
      obtain ⟨first, later⟩ := fresh_append.mp fresh
      have here := sendable _ (.head _)
      simp only [List.map_cons, CLI.useCLI, valid, Bool.not_true, Bool.false_eq_true, ite_false]
      rw [ran_bind]
      apply (quiet.answered responsive delivering here first enough (by omega)).imp
      intro fetched middle answered
      obtain ⟨answer, expected, rfl, quiet', grows⟩ := answered
      obtain ⟨shown, response, continues⟩ :=
        expected.transcribes lengthError lines here.ready (asks_of_valid valid)
      rw [Texts.served_stored] at quiet'
      have later : Fresh (texts.asked (Parser.make.parseQuery line)).stored
          ((typed lines).filterMap Query.operation) := by
        rw [← Texts.served_stored]
        exact later
      simp only [response, ite_true]
      rw [ran_bind]
      apply (ih quiet' (fun query member => sendable query (.tail _ member)) later (by omega)).imp
      intro output _ rest
      exact ran_pure.mpr (continues output rest)
    · have split : typed (line :: lines) = typed lines := by simp [typed, valid]
      rw [split] at sendable fresh room
      have unasked : ∀ command key payload, ¬ Asks line command key payload :=
        fun _ _ _ asks => valid (valid_of_asks asks)
      simp only [List.map_cons, CLI.useCLI, Bool.eq_false_iff.mpr valid, Bool.not_false, ite_true]
      rw [ran_bind]
      apply (ih quiet sendable fresh room).imp
      intro output _ rest
      exact ran_pure.mpr (.invalid unasked rest)

/-- A user at the prompt sees the finite map of all that has been typed here and elsewhere, in this
run of the server and in all runs before. A text that is stored comes back as it was typed, as long
as its key is not deleted. -/
theorem transcripts_show_finite_map {asked : List (List Query)} {storage : Storage Page}
    {visits : List Visit} {arrivals : List Arrival}
    (operated : Operated True asked storage) (arrives : Arrives visits arrivals)
    (responsive : Responsive environment)
    (delivering : network.Delivering) (enough : ∀ visit ∈ visits, visit.queries.length < fuel)
    (turns : 1 < fuel)
    (sendable : ∀ query ∈ typed lines, Sendable query)
    (fresh : Fresh .empty ((asked ++ visits.map Visit.queries ++ [typed lines]).flatten.filterMap
      Query.operation))
    (few : 3 + MOST_PAGES * (asked ++ visits.map Visit.queries ++ [typed lines]).flatten.length ≤
      18446744073709551616) :
    Ran (do bootstrap; runServer environment fuel (arrivals ++ [.connection []])) (opening storage)
      fun exit server =>
      Ran (CLI.useCLI lengthError (Dialogue.sendCommandAndFetchReply environment network fuel)
        (lines.map .line)) ⟨server, exit, 0, 0⟩
        fun output _ => Transcript (Texts.after (asked ++ visits.map Visit.queries).flatten) lines
          output := by
  have sequenced : Sequenced True .empty (asked ++ visits.map Visit.queries ++ [typed lines]) := by
    intro performed achieved
    rw [achieved.eq trivial]
    exact fresh
  rw [List.flatten_append, List.flatten_append, List.length_append, List.length_append,
    List.flatten_singleton, Nat.mul_add, Nat.mul_add] at few
  obtain ⟨performed, achieved, preserves⟩ := operated.preserves sequenced.here.here (by omega)
  have here := (sequenced.later (.refl _)).one
  have later := (sequenced.here.later achieved).strengthen fun _ => trivial
  cases achieved.eq trivial
  apply preserves.runs arrives enough (later.strengthen fun _ => responsive) (by rw [Nat.mul_add]; omega)
  intro performed' middle achieved' runs
  cases achieved'.eq responsive
  have upholds := runs.upholds
  have index := runs.index
  rw [← List.flatten_append] at upholds
  rw [List.length_append, Nat.mul_add] at index
  have accepted : Ran (runServer environment fuel [.connection []]) middle fun exit server =>
      exit = .waiting ∧ server.btree = middle.btree ∧ server.streamBuffer = [] ∧ server.sent = [] :=
        ⟨_, _, rfl, rfl, rfl, rfl, rfl⟩
  apply accepted.imp
  intro exit server holds
  obtain ⟨rfl, same, buffer, sent⟩ := holds
  rw [Texts.after_stored] at upholds here
  have quiet : Dialogue.Quiet ⟨server, .waiting, 0, 0⟩
      (Texts.after (asked ++ visits.map Visit.queries).flatten).stored :=
    ⟨same ▸ upholds, buffer, rfl, by rw [sent, List.length_nil]⟩
  exact quiet.transcribes responsive delivering sendable here turns (by simp only [same]; omega)

def bytewise : Network := ⟨fun _ request => request.map fun c => .bytes [c], fun _ stream =>
    .replicate stream.length 1⟩

theorem delivering_bytewise : bytewise.Delivering := by
  refine ⟨fun call request => ?_, fun call stream => ?_⟩
  · induction request with
    | nil => exact .nil
    | cons c request ih => exact .bytes (List.cons_ne_nil _ _) (by simp) ih
  · simp [Suffice, bytewise, List.countP_replicate]

def storeAndShow : List (List Byte) := [ascii "insert 7 \"a\";", ascii "search 7;"]

theorem transcripts_show_finite_map_stored :
    Ran (do bootstrap; runServer attentive 2 [.connection []]) (opening .created) fun exit server =>
      Ran (CLI.useCLI [] (Dialogue.sendCommandAndFetchReply attentive bytewise 2)
        (storeAndShow.map .line)) ⟨server, exit, 0, 0⟩
        fun output _ => Transcript .empty storeAndShow output := by
  have parsed : typed storeAndShow = [storeQuery, searchQuery] := by decide +kernel
  generalize storeAndShow = lines at parsed ⊢
  have sendable : ∀ query ∈ typed lines, Sendable query := by
    rw [parsed]
    intro query member
    cases List.mem_cons.mp member with
    | inl here => exact here ▸ sendable_storeQuery
    | inr later => exact List.mem_singleton.mp later ▸ sendable_searchQuery
  have fresh : Fresh .empty ([typed lines].flatten.filterMap Query.operation) := by
    rw [parsed]
    exact ⟨admits_storeQuery, trivial, trivial⟩
  have few : 3 + MOST_PAGES * [typed lines].flatten.length ≤ 18446744073709551616 := by
    rw [parsed]
    decide
  have shown := @transcripts_show_finite_map attentive bytewise 2 lines [] [] .created [] [] .created
    .nil responsive_attentive
    delivering_bytewise nofun (by decide) sendable fresh few
  exact shown

end Datashil
