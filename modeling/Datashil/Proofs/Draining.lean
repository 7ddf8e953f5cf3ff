import Datashil.Proofs.Payload

/-! A stream reads a payload back, in pieces of any sizes. -/

namespace Datashil
open Library LeafPage BTree

inductive HasBytes : Page → Memory Byte → Prop
  | leaf (page : LeafPage) : HasBytes (.leaf page) page.bytes
  | overflow (page : OverflowPage) : HasBytes (.overflow page) page.bytes

theorem ran_readBytes {tree : BTree} {pid : Nat} {block : Memory Byte} {post : Memory Byte → BTree → Prop}
    (holds : HasBytes (tree.pages pid) block) :
    Ran (readBytes pid) tree post ↔ post block (tree.record (.read pid)) := by
  generalize stored : tree.pages pid = page at holds
  cases holds <;> simp only [readBytes, ran_bind, ran_readPage, stored, ran_pure]

namespace PayloadStream

/-- Where the next bytes of a stream are: in the page it stands on, and behind that one. -/
structure Standing (pages : Nat → Page) (bound : Nat) (stream : PayloadStream)
    (chunk rest : List Byte) : Prop where
  here : ∃ block, HasBytes (pages stream.currPid) block ∧
    block.read stream.currPageOffset chunk.length = chunk
  behind : (rest = [] ∧ stream.overflow = false ∧ stream.currPageOffset + chunk.length ≤ stream.currPageEnd) ∨
    (stream.overflow = true ∧ chunk ≠ [] ∧ stream.currPageOffset + chunk.length = stream.currPageEnd ∧
      Chained pages bound stream.overflowPageId rest)

structure Yields (pages : Nat → Page) (bound : Nat) (stream : PayloadStream) (bytes : List Byte) : Prop where
  total : stream.totalBytes = stream.bytesRead + bytes.length
  standing : bytes ≠ [] → ∃ chunk rest, bytes = chunk ++ rest ∧ Standing pages bound stream chunk rest

variable {pages : Nat → Page} {bound : Nat} {stream : PayloadStream} {chunk rest bytes : List Byte}

/-- A stream is at its end only if it has nothing to yield. -/
theorem Yields.isEOF (yields : Yields pages bound stream bytes) : stream.isEOF = true ↔ bytes = [] := by
  have total := yields.total
  rw [PayloadStream.isEOF, decide_eq_true_eq, total, ← List.length_eq_zero_iff]
  omega

theorem Standing.advance (standing : Standing pages bound stream chunk rest) {count : Nat}
    (inside : count < chunk.length) :
    Standing pages bound
      { stream with currPageOffset := stream.currPageOffset + count, bytesRead := stream.bytesRead + count }
      (chunk.drop count) rest := by
  obtain ⟨⟨block, holds, content⟩, behind⟩ := standing
  refine ⟨⟨block, holds, ?_⟩, ?_⟩
  · have dropped := congrArg (List.drop count) content
    rw [Memory.drop_read _ _ _ _ (Nat.le_of_lt inside)] at dropped
    simpa using dropped
  · rcases behind with ⟨none, flag, fits⟩ | ⟨flag, -, fits, chain⟩
    · exact .inl ⟨none, flag, by simp only [List.length_drop]; omega⟩
    · refine .inr ⟨flag, ?_, by simp only [List.length_drop]; omega, chain⟩
      intro none
      have := congrArg List.length none
      simp only [List.length_drop, List.length_nil] at this
      omega

theorem standing_of_chained {pid : Nat} {bytes : List Byte} (chained : Chained pages bound pid bytes)
    (stream : PayloadStream) :
    ∃ page chunk rest, pages pid = .overflow page ∧ bytes = chunk ++ rest ∧
      Standing pages bound
        { stream with
          currPid := pid
          currPageOffset := OVERFLOW_PAGE_HEADER_SIZE
          currPageEnd := PAGE_SIZE
          overflow := 0 < page.overflow
          overflowPageId := page.overflowPage } chunk rest := by
  cases chained with
  | @last _ page _ below stored flag fits content =>
    refine ⟨page, bytes, [], stored, by simp,
      ⟨page.bytes, by rw [stored]; exact .overflow page, content⟩, .inl ⟨rfl, ?_, ?_⟩⟩
    · simp [flag]
    · simp only [PAGE_SIZE, OVERFLOW_PAGE_HEADER_SIZE] at fits ⊢
      omega
  | @more _ page chunk rest below stored flag full content chain =>
    refine ⟨page, chunk, rest, stored, rfl, ⟨page.bytes, by rw [stored]; exact .overflow page, content⟩,
      .inr ⟨?_, ?_, ?_, chain⟩⟩
    · simpa using flag
    · intro none
      rw [none] at full
      simp [PAGE_SIZE, OVERFLOW_PAGE_HEADER_SIZE] at full
    · simp only [full, PAGE_SIZE, OVERFLOW_PAGE_HEADER_SIZE]

private theorem readPage_eq {block : Memory Byte} {count start length : Nat}
    (content : block.read start length = chunk)
    (size : chunk.length = length) (count_le : count ≤ length) :
    block.read start count = chunk.take count := by
  rw [← content, Memory.take_read _ _ _ _ (by simpa [← size] using count_le)]

private theorem readPage_end {block : Memory Byte} {count start stop : Nat}
    (content : block.read start chunk.length = chunk)
    (nonempty : chunk ≠ []) (ends : start + chunk.length = stop) (all : chunk.length ≤ count) :
    PayloadStream.readPage block count start (stop - 1) = (chunk, stop) := by
  have positive := List.length_pos_iff.mpr nonempty
  have possible : stop - 1 + 1 - start = chunk.length := by omega
  simp only [PayloadStream.readPage, possible]
  split
  next fits =>
    obtain rfl : count = chunk.length := by omega
    rw [content, ends]
  next => rw [content, ends]

theorem nextBytesLoop_spec (fuel : Nat) {st : BTree} {stream : PayloadStream} {bytes : List Byte}
    {count : Nat} (buffer : List Byte)
    (enough : count < fuel) (inside : count ≤ bytes.length)
    (total : stream.totalBytes = stream.bytesRead + bytes.length)
    (standing : ∃ chunk rest, bytes = chunk ++ rest ∧
      Standing st.pages st.newPageOffsetIndex stream chunk rest) :
    Ran (nextBytesLoop fuel stream count buffer) st fun result st' =>
      st.Agrees st' ∧ result.1 = buffer ++ bytes.take count ∧
        Yields st.pages st.newPageOffsetIndex result.2 (bytes.drop count) := by
  induction fuel generalizing st stream bytes count buffer with
  | zero => omega
  | succ fuel ih =>
    by_cases none : count = 0
    · subst count
      simp only [nextBytesLoop, ite_true, ran_pure]
      exact ⟨.refl st, by simp, by simpa using total, fun _ => by simpa using standing⟩
    · obtain ⟨chunk, rest, rfl, standing⟩ := standing
      obtain ⟨⟨block, holds, content⟩, behind⟩ := id standing
      simp only [nextBytesLoop, none, ite_false, ran_bind, ran_readBytes holds]
      rw [List.length_append] at inside total
      have ends : stream.currPageOffset + chunk.length ≤ stream.currPageEnd := by
        rcases behind with ⟨-, -, fits⟩ | ⟨-, -, fits, -⟩ <;> omega
      -- How much of the rest of the page is wanted.
      by_cases short : count < chunk.length
      · have possible : count ≤ stream.currPageEnd - 1 + 1 - stream.currPageOffset := by omega
        have before : stream.currPageOffset + count ≠ stream.currPageEnd := by omega
        simp only [PayloadStream.readPage, possible, ite_true, before, ite_false,
          Nat.add_sub_cancel_left, ran_pure]
        refine ⟨⟨rfl, rfl, rfl⟩, ?_, ?_, fun _ => ⟨chunk.drop count, rest, ?_, standing.advance short⟩⟩
        · rw [readPage_eq content rfl (by omega), List.take_append_of_le_length (by omega)]
        · simp only [List.length_drop, List.length_append]
          omega
        · rw [List.drop_append_of_le_length (by omega)]
      · rcases behind with ⟨rfl, flag, fits⟩ | ⟨flag, nonempty, fits, chain⟩
        · obtain rfl : count = chunk.length := by simp at inside; omega
          have possible : chunk.length ≤ stream.currPageEnd - 1 + 1 - stream.currPageOffset := by omega
          simp only [PayloadStream.readPage, possible, ite_true, Nat.add_sub_cancel_left, flag,
            Bool.false_eq_true, ite_false, content]
          split <;> rw [ran_pure]
          all_goals exact ⟨⟨rfl, rfl, rfl⟩, by simp, by simpa using total, by simp⟩
        · obtain ⟨page, next, following, stored, rfl, onward⟩ := standing_of_chained chain
            { stream with bytesRead := stream.bytesRead + chunk.length }
          have reads := readPage_end content nonempty fits (Nat.le_of_not_lt short)
          have positive := List.length_pos_iff.mpr nonempty
          have advanced : stream.currPageEnd - stream.currPageOffset = chunk.length := by omega
          simp only [reads, advanced, ite_true, flag, ran_bind, ran_releasePage, ran_requestPage]
          rw [ran_readOverflow page (by simpa using stored)]
          refine (@ih ((((st.record (.read stream.currPid)).record (.release stream.currPid false)).record
            (.request stream.overflowPageId)).record (.read stream.overflowPageId)) _ _
              (count - chunk.length) (buffer ++ chunk) (by omega) (by omega) (by simp only; omega)
            ⟨next, following, rfl, onward⟩).imp ?_
          rintro ⟨out, stream'⟩ st' ⟨agrees, output, yields⟩
          have cut : (chunk ++ (next ++ following)).take count = chunk ++
              (next ++ following).take (count - chunk.length) := by
            rw [List.take_append, List.take_of_length_le (by omega)]
          have dropped : (chunk ++ (next ++ following)).drop count =
              (next ++ following).drop (count - chunk.length) := by
            rw [List.drop_append, List.drop_of_length_le (by omega), List.nil_append]
          refine ⟨⟨agrees.pages, agrees.root, agrees.counter⟩, ?_, ?_⟩
          · rw [output, cut, List.append_assoc]
          · rw [dropped]
            exact yields

theorem nextBytes_spec {st : BTree} (yields : Yields st.pages st.newPageOffsetIndex stream bytes) (n : Nat) :
    Ran (nextBytes stream n) st fun result st' =>
      st.Agrees st' ∧ result.1 = bytes.take n ∧
        Yields st.pages st.newPageOffsetIndex result.2 (bytes.drop n) := by
  have left : stream.totalBytes - stream.bytesRead = bytes.length := by rw [yields.total]; omega
  simp only [nextBytes, left]
  split
  next none =>
    obtain rfl : bytes = [] := List.length_eq_zero_iff.mp none
    rw [ran_pure]
    exact ⟨.refl st, by simp, by simpa using yields⟩
  next some_left =>
    have standing := yields.standing (by intro none; simp [none] at some_left)
    simp only [ran_bind, ran_requestPage]
    refine (@nextBytesLoop_spec _ (st.record (.request stream.currPid)) _ bytes (min n bytes.length) []
      (Nat.lt_succ_self _) (Nat.min_le_right _ _) yields.total standing).imp ?_
    rintro ⟨out, stream'⟩ st' ⟨agrees, output, after⟩
    rw [ran_releasePage, ran_pure]
    refine ⟨⟨agrees.pages, agrees.root, agrees.counter⟩, ?_, ?_⟩
    · rw [output, List.nil_append, ← List.take_take, List.take_length]
    · rcases Nat.le_total n bytes.length with fits | all
      · rw [Nat.min_eq_left fits] at after
        exact after
      · rw [Nat.min_eq_right all, List.drop_length] at after
        rw [List.drop_of_length_le all]
        exact after

/-- Pieces that add up to the length of a payload give the payload. -/
theorem drain_spec (sizes : List Nat) {st : BTree}
    (yields : Yields st.pages st.newPageOffsetIndex stream bytes)
    (enough : bytes.length ≤ sizes.sum) :
    Ran (drain sizes stream) st fun result st' => st.Agrees st' ∧ result.1 = bytes ∧
      result.2.isEOF = true := by
  induction sizes generalizing st stream bytes with
  | nil =>
    obtain rfl : bytes = [] := by simpa using enough
    rw [drain, ran_pure]
    exact ⟨.refl st, rfl, yields.isEOF.mpr rfl⟩
  | cons n sizes ih =>
    rw [drain]
    split
    next ended =>
      obtain rfl : bytes = [] := yields.isEOF.mp ended
      rw [ran_pure]
      exact ⟨.refl st, rfl, ended⟩
    next =>
      rw [ran_bind]
      refine (nextBytes_spec yields n).imp ?_
      rintro ⟨piece, stream'⟩ st' ⟨agrees, rfl, after⟩
      rw [← agrees.pages, ← agrees.counter] at after
      rw [ran_bind]
      refine (ih after (by simp only [List.length_drop, List.sum_cons] at enough ⊢; omega)).imp ?_
      rintro ⟨rest, stream''⟩ st'' ⟨agrees', rfl, ended⟩
      rw [ran_pure]
      exact ⟨agrees.trans agrees', List.take_append_drop n bytes, ended⟩

end PayloadStream
end Datashil
