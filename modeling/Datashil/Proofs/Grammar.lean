import Datashil.Proofs.Queries
import Mathlib.Data.Nat.Digits.Defs

/-! The grammar of queries. The parser accepts a text exactly if it begins with a query, and
then returns what the query denotes. -/

namespace Datashil
open Library

/-- What stands between the quotes: a backslash takes the next character as it is. -/
inductive Items : List Byte → List Byte → Prop
  | nil : Items [] []
  | escaped {text part : List Byte} (c : Byte) (items : Items text part) : Items (92 :: c :: text) (c :: part)
  | plain {text part : List Byte} {c : Byte} (quote : c ≠ 34) (backslash : c ≠ 92)
      (items : Items text part) : Items (c :: text) (c :: part)

inductive Strings : List Byte → List (List Byte) → Prop
  | nil : Strings [] []
  | space {text : List Byte} {payload : List (List Byte)} (strings : Strings text payload) :
      Strings (32 :: text) payload
  | quoted {inner part text : List Byte} {payload : List (List Byte)} (items : Items inner part)
      (strings : Strings text payload) :
      Strings (34 :: (inner ++ 34 :: text)) (part :: payload)

inductive Ending : List Byte → List (List Byte) → Prop
  | bare : Ending [59] []
  | payload {text : List Byte} {payload : List (List Byte)} (strings : Strings text payload) :
      Ending (32 :: (text ++ [59])) payload

def nameOf : Command → List Byte
  | .search => ascii "search"
  | .insert => ascii "insert"
  | .delete => ascii "delete"
  | .quit => ascii "quit"
  | .invalid => []

def numeral (digits : List Byte) : Nat := Nat.ofDigits 10 (digits.reverse.map fun digit => digit.toNat - 48)

/-- A text is a query with a command, a key and a payload. -/
structure Denotes (text : List Byte) (command : Command) (key : Nat) (payload : List (List Byte)) : Prop where
  known : command ≠ .invalid
  small : key < 18446744073709551616
  parts : ∃ blanks letters spaces digits ending,
    text = blanks ++ (letters ++ 32 :: (spaces ++ (digits ++ ending))) ∧
    (∀ c ∈ blanks, c = 32 ∨ c = 10) ∧ (∀ c ∈ letters, isalpha c = true) ∧
      letters.map tolower = nameOf command ∧
    (∀ c ∈ spaces, c = 32) ∧ digits ≠ [] ∧ (∀ c ∈ digits, isdigit c = true) ∧ numeral digits = key ∧
      Ending ending payload

/-! ### Writing a query -/

def decimal (key : Nat) : List Byte :=
  (if key = 0 then [0] else (Nat.digits 10 key).reverse).map fun digit => UInt8.ofNat (48 + digit)

def escape (c : Byte) : List Byte := if c = 34 ∨ c = 92 then [92, c] else [c]

def quote (part : List Byte) : List Byte := 34 :: (part.flatMap escape ++ [34])

def render (command : Command) (key : Nat) (payload : List (List Byte)) : List Byte :=
  nameOf command ++ 32 :: (decimal key ++ (payload.flatMap (fun part => 32 :: quote part) ++ [59]))

/-! ### The number -/

theorem foldl_digits (digits : List Byte) (start : Nat) :
    digits.foldl (fun value digit => 10 * value + (digit.toNat - 48)) start = numeral digits +
      10 ^ digits.length * start := by
  induction digits generalizing start with
  | nil => simp [numeral]
  | cons digit digits ih =>
    rw [List.foldl_cons, ih]
    simp only [numeral, List.reverse_cons, List.map_append, List.map_cons, List.map_nil,
      Nat.ofDigits_append, Nat.ofDigits_singleton,
      List.length_map, List.length_reverse, List.length_cons, Nat.pow_succ]
    ring

theorem stoull_eq (digits : List Byte) :
    stoull digits = if numeral digits < 18446744073709551616 then some (numeral digits) else none := by
  simp only [stoull, foldl_digits, Nat.mul_zero, Nat.add_zero]

theorem digit_toNat {digit : Nat} (small : digit < 10) :
    (UInt8.ofNat (48 + digit)).toNat - 48 = digit ∧ isdigit (UInt8.ofNat (48 + digit)) = true := by
  have all : ∀ digit < 10, (UInt8.ofNat (48 + digit)).toNat - 48 = digit ∧
      isdigit (UInt8.ofNat (48 + digit)) = true := by
    decide
  exact all digit small

theorem decimal_digits (key : Nat) :
    decimal key ≠ [] ∧ (∀ c ∈ decimal key, isdigit c = true) ∧ numeral (decimal key) = key := by
  by_cases zero : key = 0
  · have alone : decimal key = [48] := by
      rw [zero]
      rfl
    rw [alone, zero]
    exact ⟨List.cons_ne_nil _ _, List.forall_mem_singleton.mpr (by decide), by decide⟩
  have small : ∀ digit ∈ Nat.digits 10 key, digit < 10 :=
    fun digit member => Nat.digits_lt_base (by decide) member
  simp only [decimal, zero, ite_false]
  refine ⟨?_, ?_, ?_⟩
  · intro empty
    have length := congrArg List.length empty
    rw [List.length_map, List.length_reverse, List.length_nil, List.length_eq_zero_iff] at length
    exact (Nat.digits_ne_nil_iff_ne_zero.mpr zero) length
  · intro c member
    obtain ⟨digit, inside, rfl⟩ := List.mem_map.mp member
    exact (digit_toNat (small digit (List.mem_reverse.mp inside))).2
  · have same : (Nat.digits 10 key).map (fun digit => (UInt8.ofNat (48 + digit)).toNat - 48) =
      Nat.digits 10 key := by
      have each : ∀ digit ∈ Nat.digits 10 key, (UInt8.ofNat (48 + digit)).toNat - 48 = id digit :=
        fun digit member => (digit_toNat (small digit member)).1
      exact (List.map_congr_left each).trans (List.map_id _)
    rw [numeral, ← List.map_reverse, List.reverse_reverse, List.map_map]
    exact (congrArg (Nat.ofDigits 10) same).trans (Nat.ofDigits_digits 10 key)

/-! ### The name -/

theorem commandOf_nameOf {command : Command} (some : command ≠ .invalid) :
    Parser.commandOf (nameOf command) = .some command := by
  cases command with
  | invalid => exact absurd rfl some
  | search => decide
  | insert => decide
  | delete => decide
  | quit => decide

theorem nameOf_commandOf {name : List Byte} {command : Command}
    (found : Parser.commandOf name = some command) :
    command ≠ .invalid ∧ name = nameOf command := by
  simp only [Parser.commandOf] at found
  split at found
  · cases found
    exact ⟨by decide, by assumption⟩
  split at found
  · cases found
    exact ⟨by decide, by assumption⟩
  split at found
  · cases found
    exact ⟨by decide, by assumption⟩
  split at found
  · cases found
    exact ⟨by decide, by assumption⟩
  · cases found

/-! ### The characters -/

theorem not_isalpha_space : isalpha 32 = false := by decide
theorem not_isdigit_space : isdigit 32 = false := by decide
theorem not_isdigit_semicolon : isdigit 59 = false := by decide
theorem not_isalpha_newline : isalpha 10 = false := by decide

namespace Parser
variable {query : Query} {text rest : List Byte}

theorem parseQuery_cons {state : ParserState} (outside : state ≠ .readPayload) (buffer : List Byte)
    (query : Query) (c : Byte)
    (rest : List Byte) :
    parseQuery ⟨state, buffer, query⟩ (c :: rest) =
      match step ⟨state, buffer, query⟩ c with
      | .ok next => next.parseQuery rest
      | .error result => result :=
  parseQuery_step fun both => outside both.1

/-! ### What the grammar derives is parsed -/

theorem parse_items {inner part : List Byte} (query : Query) (items : Items inner part) (buffer : List Byte) :
    parseQuery ⟨.readPayload, buffer, query⟩ (inner ++ rest) =
      parseQuery ⟨.readPayload, buffer ++ part, query⟩ rest := by
  induction items generalizing buffer with
  | nil => rw [List.append_nil, List.nil_append]
  | escaped c items ih =>
    rw [List.cons_append, List.cons_append, parseQuery, if_pos ⟨rfl, rfl⟩]
    simp only [ih, List.append_assoc, List.singleton_append]
  | @plain text part c quote backslash items ih =>
    rw [List.cons_append, parseQuery_step fun both => backslash both.2]
    simp only [step, quote, ite_false, ih, List.append_assoc, List.singleton_append]

theorem parse_strings {body : List Byte} {payload : List (List Byte)} (strings : Strings body payload)
    (query : Query) :
    parseQuery ⟨.expectPayload, [], query⟩ (body ++ 59 :: rest) =
      { query with valid := true, payload := query.payload ++ payload } := by
  induction strings generalizing query with
  | nil =>
    rw [List.nil_append, parseQuery_cons (by decide), List.append_nil]
    rfl
  | space strings ih =>
    rw [List.cons_append, parseQuery_cons (by decide)]
    exact ih query
  | @quoted inner part text payload items strings ih =>
    rw [List.cons_append, List.append_assoc, parseQuery_cons (by decide)]
    simp only [step, show ¬(34 : Byte) = 32 by decide, ite_false, ite_true]
    rw [parse_items query items, List.nil_append, List.cons_append, parseQuery_step (by simp)]
    simp only [step, ite_true]
    rw [ih]
    simp only [List.append_assoc, List.singleton_append]

theorem parse_digits {digits : List Byte} (all : ∀ c ∈ digits, isdigit c = true) (buffer : List Byte) :
    parseQuery ⟨.readKey, buffer, query⟩ (digits ++ rest) =
      parseQuery ⟨.readKey, buffer ++ digits, query⟩ rest := by
  induction digits generalizing buffer with
  | nil => rw [List.append_nil, List.nil_append]
  | cons digit digits ih =>
    rw [List.cons_append, parseQuery_cons (by decide)]
    simp only [step, readKey, all digit (.head _), ite_true]
    rw [ih fun c member => all c (.tail _ member), List.append_assoc, List.singleton_append]

theorem parse_ending {ending : List Byte} {payload : List (List Byte)}
    (is_ending : Ending ending payload) {digits : List Byte} {key : Nat}
    (value : stoull digits = some key) (query : Query) :
    parseQuery ⟨.readKey, digits, query⟩ (ending ++ rest) =
      { query with valid := true, key, payload := query.payload ++ payload } := by
  cases is_ending with
  | bare =>
    rw [List.cons_append, parseQuery_cons (by decide), List.append_nil]
    simp only [step, readKey, not_isdigit_semicolon, show ¬(59 : Byte) = 32 by decide,
      Bool.false_eq_true, ite_false, ite_true, value]
  | payload strings =>
    rw [List.cons_append, parseQuery_cons (by decide)]
    simp only [step, readKey, not_isdigit_space, Bool.false_eq_true, ite_false, ite_true, value]
    rw [List.append_assoc, List.singleton_append, parse_strings strings]

theorem parse_key {spaces digits : List Byte} (blank : ∀ c ∈ spaces, c = 32) (some : digits ≠ [])
    (all : ∀ c ∈ digits, isdigit c = true) :
    parseQuery ⟨.expectKey, [], query⟩ (spaces ++ (digits ++ rest)) =
      parseQuery ⟨.readKey, digits, query⟩ rest := by
  induction spaces with
  | nil =>
    cases digits with
    | nil => exact absurd rfl some
    | cons digit digits =>
      have first := all digit (.head _)
      have other : digit ≠ 32 := by
        rintro rfl
        rw [not_isdigit_space] at first
        cases first
      rw [List.nil_append, List.cons_append, parseQuery_cons (by decide)]
      simp only [step, readKey, first, other, ite_true, ite_false, List.nil_append]
      exact parse_digits (fun c member => all c (.tail _ member)) [digit]
  | cons space spaces ih =>
    rw [List.cons_append, parseQuery_cons (by decide), blank space (.head _)]
    exact ih fun c member => blank c (.tail _ member)

theorem parse_letters {letters : List Byte} (all : ∀ c ∈ letters, isalpha c = true) (buffer : List Byte) :
    parseQuery ⟨.readCommand, buffer, query⟩ (letters ++ rest) =
      parseQuery ⟨.readCommand, buffer ++ letters.map tolower, query⟩ rest := by
  induction letters generalizing buffer with
  | nil => rw [List.map_nil, List.append_nil, List.nil_append]
  | cons letter letters ih =>
    rw [List.cons_append, parseQuery_cons (by decide)]
    simp only [step, readCommand, all letter (.head _), ite_true]
    rw [ih fun c member => all c (.tail _ member), List.append_assoc, List.map_cons, List.singleton_append]

theorem parse_command {blanks letters : List Byte} {command : Command} (blank : ∀ c ∈ blanks, c = 32 ∨ c = 10)
    (all : ∀ c ∈ letters, isalpha c = true) (name : letters.map tolower = nameOf command)
    (known : command ≠ .invalid) :
    parseQuery ⟨.expectCommand, [], query⟩ (blanks ++ (letters ++ 32 :: rest)) =
      parseQuery ⟨.expectKey, [], { query with command }⟩ rest := by
  induction blanks with
  | nil =>
    cases letters with
    | nil =>
      have none : nameOf command ≠ [] := by cases command <;> first | exact absurd rfl known | decide
      exact absurd name.symm none
    | cons letter letters =>
      have first := all letter (.head _)
      have other : ¬(letter = 32 ∨ letter = 10) := by
        rintro (rfl | rfl)
        · rw [not_isalpha_space] at first
          cases first
        · rw [not_isalpha_newline] at first
          cases first
      rw [List.nil_append, List.cons_append, parseQuery_cons (by decide)]
      simp only [step, readCommand, first, other, ite_true, ite_false, List.nil_append]
      rw [parse_letters (fun c member => all c (.tail _ member)) [tolower letter],
        List.singleton_append, ← List.map_cons, name,
        parseQuery_cons (by decide)]
      simp only [step, readCommand, not_isalpha_space, Bool.false_eq_true, ite_false, ite_true,
        commandOf_nameOf known]
  | cons space blanks ih =>
    rw [List.cons_append, parseQuery_cons (by decide)]
    simp only [step, blank space (.head _), ite_true]
    exact ih fun c member => blank c (.tail _ member)

/-- A query at the beginning of a text is what is returned, whatever follows it. -/
theorem parseQuery_of_denotes {spelled : List Byte} {command : Command} {key : Nat}
    {payload : List (List Byte)}
    (denotes : Denotes spelled command key payload) (rest : List Byte) :
    make.parseQuery (spelled ++ rest) = ⟨true, command, key, payload⟩ := by
  obtain ⟨known, small, blanks, letters, spaces, digits, ending, rfl, blank, alpha, name, space, some,
      all, value, is_ending⟩ :=
    denotes
  have found : stoull digits = .some key := by
    rw [stoull_eq, value, if_pos small]
  simp only [List.append_assoc, List.cons_append]
  rw [make, parse_command blank alpha name known, parse_key space some all, parse_ending is_ending found]
  rfl

/-! ### What is parsed the grammar derives -/

/-- From the blanks before the key on. -/
def KeyRemains (result query : Query) (text : List Byte) : Prop :=
  ∃ spaces digits ending key payload rest, text = spaces ++ (digits ++ (ending ++ rest)) ∧
    (∀ c ∈ spaces, c = 32) ∧ digits ≠ [] ∧
    (∀ c ∈ digits, isdigit c = true) ∧ stoull digits = some key ∧ Ending ending payload ∧
    result = { query with valid := true, key, payload := query.payload ++ payload }

/-- What remains of a query in each state, and what is returned in the end. -/
def Remains (result : Query) : Parser → List Byte → Prop
  | ⟨.expectCommand, _, query⟩, text =>
    ∃ blanks letters command remaining, text = blanks ++ (letters ++ 32 :: remaining) ∧
      (∀ c ∈ blanks, c = 32 ∨ c = 10) ∧ (∀ c ∈ letters, isalpha c = true) ∧
        commandOf (letters.map tolower) = some command ∧
      KeyRemains result { query with command } remaining
  | ⟨.readCommand, buffer, query⟩, text => ∃ letters command remaining, text = letters ++ 32 :: remaining ∧
      (∀ c ∈ letters, isalpha c = true) ∧ commandOf (buffer ++ letters.map tolower) = some command ∧
      KeyRemains result { query with command } remaining
  | ⟨.expectKey, _, query⟩, text => KeyRemains result query text
  | ⟨.readKey, buffer, query⟩, text => ∃ digits ending key payload rest, text = digits ++ (ending ++ rest) ∧
      (∀ c ∈ digits, isdigit c = true) ∧ stoull (buffer ++ digits) = some key ∧ Ending ending payload ∧
      result = { query with valid := true, key, payload := query.payload ++ payload }
  | ⟨.expectPayload, _, query⟩, text =>
    ∃ body payload rest, text = body ++ 59 :: rest ∧ Strings body payload ∧
      result = { query with valid := true, payload := query.payload ++ payload }
  | ⟨.readPayload, buffer, query⟩, text =>
    ∃ inner part body payload rest, text = inner ++ 34 :: (body ++ 59 :: rest) ∧
      Items inner part ∧ Strings body payload ∧
        result = { query with valid := true, payload := query.payload ++ (buffer ++ part) :: payload }

/-- The buffer is empty before a command, a key and the payload. -/
def Fresh : Parser → Prop
  | ⟨.readCommand, _, _⟩ | ⟨.readKey, _, _⟩ | ⟨.readPayload, _, _⟩ => True
  | ⟨_, buffer, _⟩ => buffer = []

def Extends (result : Query) (rest : List Byte) (parser : Parser) (c : Byte) : Except Query Parser → Prop
  | .ok next => Fresh next ∧ (Remains result next rest → Remains result parser (c :: rest))
  | .error query => result = query → query.valid = true → Remains result parser (c :: rest)

theorem extends_invalid {result : Query} {parser : Parser} {c : Byte} (invalid : query.valid = false) :
    Extends result rest parser c (.error query) := by
  intro _ valid
  rw [invalid] at valid
  cases valid

theorem readCommand_extends {result : Query} {buffer : List Byte} (invalid : query.valid = false) (c : Byte) :
    Extends result rest ⟨.readCommand, buffer, query⟩ c (readCommand ⟨.readCommand, buffer, query⟩ c) := by
  rw [readCommand]
  split
  next letter =>
    apply And.intro trivial
    rintro ⟨letters, command, remaining, rfl, all, found, remains⟩
    rw [List.append_assoc, List.singleton_append] at found
    exact ⟨c :: letters, command, remaining, rfl, List.forall_mem_cons.mpr ⟨letter, all⟩, found, remains⟩
  split
  next space =>
    split
    next command found =>
      apply And.intro rfl
      intro remains
      rw [← List.append_nil buffer] at found
      exact ⟨[], command, rest, by rw [space]; rfl, List.forall_mem_nil _, found, remains⟩
    next => exact extends_invalid invalid
  next => exact extends_invalid invalid

theorem readKey_extends {result : Query} {buffer : List Byte} (invalid : query.valid = false) (c : Byte) :
    Extends result rest ⟨.readKey, buffer, query⟩ c (readKey ⟨.readKey, buffer, query⟩ c) := by
  rw [readKey]
  split
  next digit =>
    apply And.intro trivial
    rintro ⟨digits, ending, key, payload, after, rfl, all, found, is_ending, rfl⟩
    rw [List.append_assoc, List.singleton_append] at found
    exact ⟨c :: digits, ending, key, payload, after, rfl, List.forall_mem_cons.mpr ⟨digit, all⟩, found,
      is_ending, rfl⟩
  split
  next space =>
    split
    next key found =>
      apply And.intro rfl
      rintro ⟨body, payload, after, rfl, strings, rfl⟩
      rw [← List.append_nil buffer] at found
      refine ⟨[], _, key, payload, after, ?_, List.forall_mem_nil _, found, .payload strings, rfl⟩
      rw [space, List.nil_append, List.cons_append, List.append_assoc, List.singleton_append]
    next => exact extends_invalid invalid
  split
  next semicolon =>
    split
    next key found =>
      rintro rfl _
      rw [← List.append_nil buffer] at found
      refine ⟨[], [59], key, [], rest, by rw [semicolon]; rfl, List.forall_mem_nil _, found, .bare, ?_⟩
      rw [List.append_nil]
    next => exact extends_invalid invalid
  next => exact extends_invalid invalid

theorem step_extends {result : Query} {parser : Parser} (fresh : Fresh parser)
    (invalid : parser.queryObject.valid = false) (c : Byte)
    (outside : ¬(parser.currentState = .readPayload ∧ c = 92)) :
    Extends result rest parser c (parser.step c) := by
  obtain ⟨state, buffer, query⟩ := parser
  rw [step]
  cases state with
  | expectCommand =>
    obtain rfl : buffer = [] := fresh
    simp only
    split
    next blank =>
      apply And.intro rfl
      rintro ⟨blanks, letters, command, remaining, rfl, all, rest⟩
      exact ⟨c :: blanks, letters, command, remaining, rfl, List.forall_mem_cons.mpr ⟨blank, all⟩, rest⟩
    split
    next letter =>
      have read := @readCommand_extends query rest result [] invalid c
      simp only [readCommand, letter, ite_true] at read ⊢
      apply And.intro trivial
      intro remains
      obtain ⟨letters, command, remaining, spelled, rest⟩ := read.2 remains
      exact ⟨[], letters, command, remaining, spelled, List.forall_mem_nil _, rest⟩
    next => exact extends_invalid invalid
  | readCommand => exact readCommand_extends invalid c
  | expectKey =>
    obtain rfl : buffer = [] := fresh
    simp only
    split
    next blank =>
      apply And.intro rfl
      rintro ⟨spaces, digits, ending, key, payload, after, rfl, all, rest⟩
      exact ⟨c :: spaces, digits, ending, key, payload, after, rfl,
        List.forall_mem_cons.mpr ⟨blank, all⟩, rest⟩
    split
    next digit =>
      simp only [readKey, digit, ite_true, List.nil_append]
      apply And.intro trivial
      rintro ⟨digits, ending, key, payload, after, rfl, all, rest⟩
      exact ⟨[], c :: digits, ending, key, payload, after, rfl, List.forall_mem_nil _, List.cons_ne_nil _ _,
        List.forall_mem_cons.mpr ⟨digit, all⟩, rest⟩
    next => exact extends_invalid invalid
  | readKey => exact readKey_extends invalid c
  | expectPayload =>
    obtain rfl : buffer = [] := fresh
    simp only
    split
    next space =>
      apply And.intro rfl
      rintro ⟨body, payload, after, rfl, strings, rest⟩
      exact ⟨32 :: body, payload, after, by rw [space]; rfl, .space strings, rest⟩
    split
    next quote =>
      apply And.intro trivial
      rintro ⟨inner, part, body, payload, after, rfl, items, strings, rest⟩
      refine ⟨34 :: (inner ++ 34 :: body), part :: payload, after, ?_, .quoted items strings, rest⟩
      rw [quote, List.cons_append, List.append_assoc, List.cons_append]
    split
    next semicolon =>
      rintro rfl _
      refine ⟨[], [], rest, by rw [semicolon]; rfl, .nil, ?_⟩
      rw [List.append_nil]
    next => exact extends_invalid invalid
  | readPayload =>
    simp only
    split
    next quote =>
      apply And.intro rfl
      rintro ⟨body, payload, after, rfl, strings, rfl⟩
      refine ⟨[], [], body, payload, after, by rw [quote]; rfl, .nil, strings, ?_⟩
      rw [List.append_nil, List.append_assoc, List.singleton_append]
    next plain =>
      apply And.intro trivial
      rintro ⟨inner, part, body, payload, after, rfl, items, strings, rfl⟩
      refine ⟨c :: inner, c :: part, body, payload, after, rfl,
        .plain plain (fun escape => outside ⟨rfl, escape⟩) items, strings, ?_⟩
      rw [List.append_assoc, List.singleton_append]

theorem remains_of_valid {parser : Parser} (fresh : Fresh parser) (invalid : Underway parser)
    (text : List Byte)
    (valid : (parser.parseQuery text).valid = true) : Remains (parser.parseQuery text) parser text := by
  induction parser, text using parseQuery.induct with
  | case1 parser =>
    rw [parseQuery, invalid.valid] at valid
    cases valid
  | case2 parser c escape =>
    rw [parseQuery, if_pos escape, invalid.valid] at valid
    cases valid
  | case3 parser c escape escaped rest ih =>
    obtain ⟨state, buffer, query⟩ := parser
    obtain ⟨rfl, rfl⟩ := escape
    rw [parseQuery, if_pos ⟨rfl, rfl⟩] at valid ⊢
    obtain ⟨inner, part, body, payload, after, rfl, items, strings, result⟩ :=
      ih trivial ⟨invalid.valid, invalid.command, invalid.key⟩ valid
    rw [List.append_assoc, List.singleton_append] at result
    exact ⟨92 :: escaped :: inner, escaped :: part, body, payload, after, rfl, .escaped escaped items,
      strings, result⟩
  | case4 parser c rest plain next stepped ih =>
    have kept := step_kept invalid c
    have stepExtends := @step_extends rest (next.parseQuery rest) parser fresh invalid.valid c plain
    rw [parseQuery_step plain] at valid ⊢
    simp only [stepped] at valid kept stepExtends ⊢
    exact stepExtends.2 (ih stepExtends.1 kept valid)
  | case5 parser c rest plain query stepped =>
    have stepExtends := @step_extends rest query parser fresh invalid.valid c plain
    rw [parseQuery_step plain] at valid ⊢
    simp only [stepped] at valid stepExtends ⊢
    exact stepExtends rfl valid

theorem fresh_make : Fresh make := by
  rw [make]
  exact rfl

theorem underway_make : Underway make := ⟨rfl, .inl rfl, by decide⟩

/-- A text with a valid result begins with a query. -/
theorem denotes_of_valid {text : List Byte} (valid : (make.parseQuery text).valid = true) :
    ∃ spelled rest command key payload, text = spelled ++ rest ∧ Denotes spelled command key payload := by
  obtain ⟨blanks, letters, command, remaining, rfl, blank, alpha, name, spaces, digits, ending, key,
    payload, rest, rfl, space, some, all,
    value, is_ending, -⟩ := remains_of_valid fresh_make underway_make text valid
  obtain ⟨known, name⟩ := nameOf_commandOf name
  have small := stoull_lt value
  rw [stoull_eq] at value
  split at value
  · cases value
    refine ⟨blanks ++ (letters ++ 32 :: (spaces ++ (digits ++ ending))), rest, command, numeral digits,
      payload, ?_, known, small, blanks,
      letters, spaces, digits, ending, rfl, blank, alpha, name, space, some, all, rfl, is_ending⟩
    simp only [List.append_assoc, List.cons_append]
  · cases value

/-! ### What is written is parsed -/

theorem items_escape (part : List Byte) : Items (part.flatMap escape) part := by
  induction part with
  | nil => exact .nil
  | cons c part ih =>
    rw [List.flatMap_cons, escape]
    split
    next special => exact .escaped c ih
    next plain => exact .plain (fun quote => plain (.inl quote)) (fun backslash => plain (.inr backslash)) ih

theorem strings_render (payload : List (List Byte)) :
    Strings (payload.flatMap fun part => 32 :: quote part) payload := by
  induction payload with
  | nil => exact .nil
  | cons part payload ih =>
    have quoted := Strings.quoted (items_escape part) ih
    rw [List.flatMap_cons, quote, List.cons_append, List.cons_append, List.append_assoc,
      List.singleton_append]
    exact .space quoted

theorem ending_render (payload : List (List Byte)) :
    Ending (payload.flatMap (fun part => 32 :: quote part) ++ [59]) payload := by
  cases payload with
  | nil => exact .bare
  | cons part payload =>
    have ending := Ending.payload (.quoted (items_escape part) (strings_render payload))
    simp only [List.flatMap_cons, quote, List.cons_append, List.append_assoc] at ending ⊢
    exact ending

theorem nameOf_letters (command : Command) :
    (∀ c ∈ nameOf command, isalpha c = true) ∧ (nameOf command).map tolower = nameOf command := by
  rw [← List.all_eq_true]
  cases command <;> decide

theorem denotes_render {command : Command} {key : Nat} (payload : List (List Byte))
    (known : command ≠ .invalid)
    (small : key < 18446744073709551616) : Denotes (render command key payload) command key payload := by
  obtain ⟨some, all, value⟩ := decimal_digits key
  obtain ⟨alpha, name⟩ := nameOf_letters command
  exact ⟨known, small, [], nameOf command, [], decimal key, _, rfl, List.forall_mem_nil _, alpha, name,
    List.forall_mem_nil _, some, all, value,
    ending_render payload⟩

/-- The parser accepts exactly the texts that begin with a query, returns what the query denotes and
reads back every query that is written out. -/
theorem parseQuery_grammar :
    (∀ text, (make.parseQuery text).valid = true ↔
      ∃ spelled rest command key payload, text = spelled ++ rest ∧ Denotes spelled command key payload) ∧
    (∀ spelled rest command key payload, Denotes spelled command key payload →
      make.parseQuery (spelled ++ rest) = ⟨true, command, key, payload⟩) ∧
    ∀ command key payload, command ≠ .invalid → key < 18446744073709551616 →
      make.parseQuery (render command key payload) = ⟨true, command, key, payload⟩ := by
  refine ⟨fun text => ⟨denotes_of_valid, ?_⟩, ?_, ?_⟩
  · rintro ⟨spelled, rest, command, key, payload, rfl, denotes⟩
    rw [parseQuery_of_denotes denotes]
  · exact fun spelled rest command key payload denotes => parseQuery_of_denotes denotes rest
  · intro command key payload known small
    have parsed := parseQuery_of_denotes (denotes_render payload known small) []
    rw [List.append_nil] at parsed
    exact parsed

end Parser
end Datashil
