import Datashil.Proofs.Costs
import Datashil.Proofs.DeleteResult
import Datashil.Proofs.Pipelining

/-! The server as a whole: whoever connects to it, it stands for one finite map. -/

namespace Datashil
open Library Server BTree

/-- What a map answers to a query. A deletion may deny that it has removed the key, but does not
claim it where there was none. -/
def Expected (contents : Contents) (query : Query) (answer : Answer) : Prop :=
  match query.command with
  | .search => answer = ⟨if (contents query.key).isSome then 1 else 4, (contents query.key).getD []⟩
  | .insert => answer = ⟨1, LittleEndian.encode SIZEOF_KEY query.key⟩
  | .delete => answer.payload = LittleEndian.encode SIZEOF_KEY query.key ∧
      (answer.statusCode = 4 ∨ answer.statusCode = 1 ∧ (contents query.key).isSome)
  | _ => False

def Contents.served (contents : Contents) (queries : List Query) : Contents :=
  contents.applyAll (queries.filterMap Query.operation)

inductive Expects : Contents → List Query → List Answer → Prop
  | nil {contents : Contents} : Expects contents [] []
  | cons {contents : Contents} {query : Query} {answer : Answer} {queries : List Query}
      {answers : List Answer}
      (expected : Expected contents query answer) (rest : Expects (contents.served [query]) queries answers) :
      Expects contents (query :: queries) (answer :: answers)

def Contents.Small (contents : Contents) : Prop :=
  ∀ key payload, contents key = some payload → payload.length ≤ 20000

/-- An operation allocates no more pages than this, as requests that insert are short. -/
def MOST_PAGES : Nat := 17

variable {st : BTree} {h : Nat} {tree : Tree h} {contents : Contents} {query : Query} {queries : List Query}

theorem Sendable.storable (sendable : Sendable query) (command : query.command = .insert) :
    Storable query.buffer query.key ∧ query.buffer.length ≤ 20000 := by
  have long : query.buffer.length = SIZEOF_KEY + query.payload.flatten.length := by
    rw [Query.buffer, List.length_append, LittleEndian.length_encode]
  have bounded := sendable.answerable.2 command
  rw [Client.size] at bounded
  simp only [REQUEST_HEADER_SIZE] at bounded
  refine ⟨⟨by omega, ?_, ?_⟩, by omega⟩
  · simp only [SLOT_SIZE, TUPLE_HEADER_SIZE]
    omega
  · rw [payloadKey, Query.buffer, List.take_left' (LittleEndian.length_encode _ _),
      LittleEndian.decode_encode_of_lt sendable.ready.key]

structure Upholds (st : BTree) (contents : Contents) : Prop where
  rests : ∃ (h : Nat) (tree : Tree h), Resting st tree contents
  small : contents.Small

structure Continues (count : Nat) (contents : Contents) (st st' : BTree) : Prop where
  upholds : Upholds st' contents
  guarded : Guarded 13 st st'
  grows : st'.newPageOffsetIndex ≤ st.newPageOffsetIndex + MOST_PAGES * count

structure Fulfilled (st : BTree) (contents : Contents) (query : Query) (answer : Answer) (st' : BTree) :
    Prop where
  performed : Performed st query answer st'
  expected : Expected contents query answer
  continues : Continues 1 (contents.served [query]) st st'

theorem Contents.Small.served (small : contents.Small) (sendable : Sendable query) :
    (contents.served [query]).Small := by
  intro key payload found
  cases command : query.command with
  | insert =>
    have operation : [query].filterMap Query.operation = [.insert query.buffer query.key] := by
      simp [Query.operation, command, Query.buffer]
    simp only [Contents.served, operation, Contents.applyAll, List.foldl_cons, List.foldl_nil,
      Contents.apply] at found
    split at found
    · cases found
      exact (sendable.storable command).2
    · exact small key payload found
  | delete =>
    have operation : [query].filterMap Query.operation = [.delete query.key] := by
      simp [Query.operation, command]
    simp only [Contents.served, operation, Contents.applyAll, List.foldl_cons, List.foldl_nil,
      Contents.apply] at found
    split at found
    · cases found
    · exact small key payload found
  | invalid | search | quit =>
    simp only [Contents.served, List.filterMap_cons, Query.operation, command, List.filterMap_nil,
      Contents.applyAll, List.foldl_cons,
      List.foldl_nil, Contents.apply] at found
    exact small key payload found

theorem Contents.served_cons :
    contents.served (query :: queries) = (contents.served [query]).served queries := by
  rw [Contents.served, ← List.singleton_append, List.filterMap_append, Contents.applyAll, List.foldl_append]
  rfl

theorem Continues.refl (upholds : Upholds st contents) : Continues 0 contents st st :=
  ⟨upholds, .refl, Nat.le_refl _⟩

theorem Continues.trans {first second : Nat} {before after : Contents} {middle st' : BTree}
    (left : Continues first before st middle)
    (right : Continues second after middle st') : Continues (first + second) after st st' := by
  refine ⟨right.upholds, left.guarded.trans right.guarded, ?_⟩
  have grows := left.grows
  have grows' := right.grows
  rw [Nat.mul_add]
  omega

/-! ### Searches -/

structure Reads (st : BTree) (h : Nat) (contents : Contents) (key : Nat) (stream : PayloadStream)
    (st₁ st₂ : BTree) (payload : List Byte) : Prop where
  whole : payload = (contents key).getD []
  searched : BTree.search key st = .ok stream st₁
  agrees : st.Agrees st₁
  accounted : Accounted (h + 3) st st.ledger.held ∅ st₁
  grounded : stream.Grounded st₁.pages
  isEOF : stream.isEOF = !(contents key).isSome
  remaining : stream.payloadRemaining = payload.length
  drained : Ran (stream.drain (.replicate payload.length 1024)) st₁ fun result final =>
    result.2.isEOF = true ∧ result.1 = payload ∧ final = st₂

theorem Resting.reads (resting : Resting st tree contents) (addressable : Addressable st) (key : Nat) :
    ∃ stream st₁ st₂ payload, Reads st h contents key stream st₁ st₂ payload := by
  obtain ⟨stream, st₁, searched, agrees, yields, -⟩ := resting.search addressable key
  obtain ⟨accounted, -, grounded⟩ := resting.searched key _ _ searched
  have isEOF : stream.isEOF = !(contents key).isSome := by
    obtain ⟨payloads, stores, lists⟩ := resting.keeps
    cases found : contents key with
    | none =>
      rw [found] at yields
      simpa using yields.isEOF
    | some payload =>
      rw [found] at yields
      have nonempty := stores.nonempty addressable ((lists.mem key payload).mp found).1
      simpa using mt yields.isEOF.mp nonempty
  obtain ⟨payload, whole⟩ : ∃ payload, payload = (contents key).getD [] := ⟨_, rfl⟩
  rw [← whole] at yields
  have remaining : stream.payloadRemaining = payload.length := by
    rw [PayloadStream.payloadRemaining, yields.total]
    omega
  have enough : payload.length ≤ (List.replicate payload.length 1024).sum := by
    rw [List.sum_replicate_nat]
    exact Nat.le_mul_of_pos_right _ (Nat.zero_lt_succ _)
  rw [← agrees.pages, ← agrees.counter] at yields
  obtain ⟨result, st₂, drained, -, same, ended⟩ := PayloadStream.drain_spec _ yields enough
  exact ⟨stream, st₁, st₂, payload, whole, searched, agrees, accounted, grounded, isEOF, remaining,
    result, st₂, drained, ended, same, rfl⟩

theorem Resting.stops (resting : Resting st tree contents) (addressable : Addressable st)
    (small : contents.Small) (command : query.command = .search)
    {st' : BTree} (accounted : Accounted (h + 3) st st.ledger.held ∅ st') (agrees : st.Agrees st') :
    Continues 1 (contents.served [query]) st st' := by
  have height := resting.affords.le addressable
  have same : contents.served [query] = contents := by
    simp only [Contents.served, List.filterMap_cons, Query.operation, command, List.filterMap_nil,
      Contents.applyAll, List.foldl_cons,
      List.foldl_nil, Contents.apply]
  obtain ⟨guarded, resting'⟩ := resting.agrees accounted agrees
  rw [same]
  refine ⟨⟨⟨h, tree, resting'⟩, small⟩, guarded.weaken (by omega), ?_⟩
  rw [agrees.counter]
  exact Nat.le_add_right _ _

theorem Resting.readable (resting : Resting st tree contents) {st₁ : BTree} (agrees : st.Agrees st₁) :
    ∀ pid block, HasBytes (st₁.pages pid) block → st.Live pid := by
  rw [agrees.pages]
  exact resting.balanced.readable resting.represents

theorem Resting.search_fulfilled (resting : Resting st tree contents) (addressable : Addressable st)
    (small : contents.Small)
    (command : query.command = .search) {stream : PayloadStream} {st₁ st₂ : BTree} {payload : List Byte}
    (reads : Reads st h contents query.key stream st₁ st₂ payload) :
    Fulfilled st contents query ⟨if stream.isEOF then 4 else 1, payload⟩ st₂ := by
  have room : st.ledger.held.card < h + 3 := by simp [resting.balanced.held]
  obtain ⟨result, final, drained, ended, same, rfl⟩ := reads.drained
  obtain ⟨accounted, agrees⟩ := PayloadStream.drain_accounted _ reads.accounted room
    (resting.readable reads.agrees) reads.grounded _ _ drained
  have bounded : payload.length ≤ 20000 := by
    rw [reads.whole]
    cases found : contents query.key with
    | none => simp
    | some payload => exact small query.key payload found
  refine ⟨?_, ?_, resting.stops addressable small command accounted (reads.agrees.trans agrees)⟩
  · simp only [Performed, command]
    refine ⟨stream, st₁, reads.searched, result, final, reads.remaining ▸ drained,
      ended, by rw [same, reads.remaining], ?_, by rw [same], rfl⟩
    simp only [same, RESPONSE_HEADER_SIZE]
    omega
  · simp only [Expected, command, reads.isEOF, reads.whole]
    cases contents query.key <;> rfl

/-! ### Changes -/

theorem Resting.changes (resting : Resting st tree contents) (addressable : Addressable st)
    {usage : Usage} (admits : Admits contents usage.operation)
    {result : Outcome × List (List Byte)} {st' : BTree} (used : use usage st = .ok result st') :
    Guarded 13 st st' ∧
      ∃ (h' : Nat) (tree' : Tree h'), Resting st' tree' (contents.apply usage.operation) := by
  have height := resting.affords.le addressable
  obtain ⟨guarded, h', tree', resting', -⟩ := use_rests resting admits _ _ used
  exact ⟨guarded.weaken (by omega), h', tree', resting'⟩

theorem Resting.insert_fulfilled (resting : Resting st tree contents) (addressable : Addressable st)
    (small : contents.Small) (sendable : Sendable query)
    (fresh : Fresh contents ([query].filterMap Query.operation)) (command : query.command = .insert) :
    ∃ answer st', Fulfilled st contents query answer st' := by
  have height := resting.affords.le addressable
  have operation : [query].filterMap Query.operation = [.insert query.buffer query.key] := by
    simp [Query.operation, command, Query.buffer]
  have served : contents.served [query] = contents.apply (.insert query.buffer query.key) := by
    rw [Contents.served, operation]
    rfl
  rw [operation] at fresh
  obtain ⟨result, st', inserted, done, -⟩ := insert_keeps resting.keeps fresh.1.1 fresh.1.2
  have used : use (.insert query.buffer query.key) st = .ok (.inserted result, []) st' := by
    simp only [use, Bind.bind, EStateM.bind, inserted]
    rfl
  have performed : perform (.insert query.buffer query.key) st = .ok (.inserted result) st' := by
    simp only [perform, Bind.bind, EStateM.bind, inserted]
    rfl
  have admits : Admits contents (Usage.insert query.buffer query.key).operation := fresh.1
  obtain ⟨guarded, rests⟩ := resting.changes addressable admits used
  obtain ⟨-, allocated⟩ := resting.represents.keeps admits.storing _ _ performed
  have short := (sendable.storable command).2
  refine ⟨⟨1, LittleEndian.encode SIZEOF_KEY query.key⟩, st', ?_, ?_,
    ⟨served ▸ rests, small.served sendable⟩, guarded, ?_⟩
  · simp only [Performed, command]
    exact ⟨result, st', inserted, by rw [done]; rfl, rfl⟩
  · simp only [Expected, command]
  · refine Nat.le_trans allocated (Nat.add_le_add_left ?_ _)
    have chain : overflowPages (query.buffer.length - LEAF_SHARE) ≤ 5 := by
      simp only [overflowPages, OVERFLOW_ROOM, PAGE_SIZE, OVERFLOW_PAGE_HEADER_SIZE]
      omega
    simp only [Usage.operation, Operation.bounds, MOST_PAGES]
    omega

theorem Resting.delete_fulfilled (resting : Resting st tree contents) (addressable : Addressable st)
    (small : contents.Small) (sendable : Sendable query)
    (command : query.command = .delete) : ∃ answer st', Fulfilled st contents query answer st' := by
  have operation : [query].filterMap Query.operation = [.delete query.key] := by
    simp [Query.operation, command]
  have served : contents.served [query] = contents.apply (.delete query.key) := by
    rw [Contents.served, operation]
    rfl
  obtain ⟨result, st', deleted, reported, -⟩ := delete_keeps resting.keeps query.key
  have used : use (.delete query.key) st = .ok (.deleted result, []) st' := by
    simp only [use, Bind.bind, EStateM.bind, deleted]
    rfl
  have performed : perform (.delete query.key) st = .ok (.deleted result) st' := by
    simp only [perform, Bind.bind, EStateM.bind, deleted]
    rfl
  have admits : Admits contents (Usage.delete query.key).operation := trivial
  obtain ⟨guarded, rests⟩ := resting.changes addressable admits used
  obtain ⟨-, allocated⟩ := resting.represents.keeps admits.storing _ _ performed
  refine ⟨⟨if result then 1 else 4, LittleEndian.encode SIZEOF_KEY query.key⟩, st', ?_, ?_,
    ⟨served ▸ rests, small.served sendable⟩, guarded, ?_⟩
  · simp only [Performed, command]
    exact ⟨result, st', deleted, rfl, rfl⟩
  · simp only [Expected, command, true_and]
    cases result with
    | false => exact .inl rfl
    | true =>
      have loses := (Tree.report_success ..).mp reported.symm
      rw [Keeps.loses resting.keeps] at loses
      exact .inr ⟨rfl, loses.1⟩
  · exact Nat.le_trans allocated (Nat.add_le_add_left (Nat.zero_le _) _)

theorem Upholds.fulfilled (upholds : Upholds st contents) (addressable : Addressable st)
    (sendable : Sendable query)
    (fresh : Fresh contents ([query].filterMap Query.operation)) :
    ∃ answer st', Fulfilled st contents query answer st' := by
  obtain ⟨⟨h, tree, resting⟩, small⟩ := upholds
  cases command : query.command with
  | invalid => exact absurd command sendable.ready.command
  | quit => exact absurd command sendable.answerable.1
  | search =>
    obtain ⟨stream, st₁, st₂, payload, reads⟩ := resting.reads addressable query.key
    exact ⟨_, st₂, resting.search_fulfilled addressable small command reads⟩
  | insert => exact resting.insert_fulfilled addressable small sendable fresh command
  | delete => exact resting.delete_fulfilled addressable small sendable command

end Datashil
