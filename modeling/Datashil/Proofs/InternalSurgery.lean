import Datashil.Proofs.InternalRebalance

/-! Internal pages as sequences of children and keys: what each edit of one page, or of two
neighbours and their parent, does to the sequence. -/

namespace Datashil.InternalPage
open Library

/-- The alternating sequence of a page's children and keys. -/
def sequence (page : InternalPage) : Row Nat Nat :=
  ⟨page.words CHILDREN_START, page.keys.zip (page.words.read (CHILDREN_START + 1) page.numKeys)⟩

/-- A page with at most as many keys as it has slots, in order, and children that differ. -/
structure Proper (page : InternalPage) : Prop where
  fits : page.numKeys ≤ NUM_KEY_SLOTS
  sorted : page.keys.Pairwise (· < ·)
  distinct : page.children.Nodup

def insertEntry (row : Row Nat Nat) (key pid : Nat) : Row Nat Nat :=
  ⟨row.head, row.rest.takeWhile (fun entry => entry.1 < key) ++ (key, pid) ::
    row.rest.dropWhile fun entry => entry.1 < key⟩

variable {page : InternalPage} {row : Row Nat Nat}

theorem shows_sequence (fits : page.numKeys ≤ NUM_KEY_SLOTS) : page.Shows page.sequence := by
  have size : page.sequence.rest.length = page.numKeys := by simp [sequence, keys]
  have keys : page.sequence.keys = page.keys := by
    rw [Row.keys, sequence, List.map_fst_zip]
    simp [InternalPage.keys]
  have children : page.sequence.children = page.children := by
    have count : page.numKeys + 1 = 1 + page.numKeys := Nat.add_comm ..
    rw [Row.children, sequence, List.map_snd_zip, InternalPage.children, count, Memory.read_add,
      Memory.read_one]
    · rfl
    · simp [InternalPage.keys]
  refine ⟨by rw [size]; exact fits, size.symm, ?_, ?_⟩
  · rw [size, keys, InternalPage.keys]
  · rw [size, children, InternalPage.children]

theorem Shows.sequence_eq (shows_ : page.Shows row) : page.sequence = row := by
  have fits : page.numKeys ≤ NUM_KEY_SLOTS := by
    rw [shows_.numKeys]
    exact shows_.fits
  exact (shows_sequence fits).unique shows_

theorem Proper.shows_ (proper : page.Proper) : page.Shows page.sequence := shows_sequence proper.fits

theorem insertEntry_close {key : Nat} (left : List (Nat × Nat)) (child : Nat)
    (first right : List (Nat × Nat)) (pid : Nat)
    (low : ∀ entry ∈ left, entry.2 < key) (middle : ∀ entry ∈ first, entry.1 < key)
    (high : ∀ entry ∈ right, key < entry.1) :
    insertEntry (Row.close left child (first ++ right)) key pid =
      Row.close left child (first ++ (key, pid) :: right) := by
  induction left generalizing child first with
  | nil =>
    have below : ∀ entry ∈ first, decide (entry.1 < key) = true :=
      fun entry member => decide_eq_true (middle entry member)
    have above : right.takeWhile (fun entry => decide (entry.1 < key)) = [] ∧
        right.dropWhile (fun entry => decide (entry.1 < key)) = right := by
      cases right with
      | nil => exact ⟨rfl, rfl⟩
      | cons entry right =>
        have stop : ¬entry.1 < key := Nat.not_lt_of_lt (high entry (.head _))
        simp [stop]
    simp only [insertEntry, Row.close_nil, List.takeWhile_append_of_pos below,
      List.dropWhile_append_of_pos below, above.1, above.2,
      List.append_nil]
  | cons entry left ih =>
    obtain ⟨sibling, next⟩ := entry
    have smaller : ∀ entry ∈ (next, child) :: first, entry.1 < key := by
      intro entry member
      cases List.mem_cons.mp member with
      | inl same =>
        rw [same]
        exact low (sibling, next) (.head _)
      | inr later => exact middle entry later
    exact ih sibling ((next, child) :: first) (fun entry member => low entry (.tail _ member)) smaller

theorem Proper.exists_place (proper : page.Proper) {key : Nat} (fresh : key ∉ page.keys) :
    ∃ left child right, page.sequence = Row.close left child right ∧ Row.Bracket left key right ∧
      ∀ pid, insertEntry page.sequence key pid = Row.close left child ((key, pid) :: right) := by
  have keys := proper.shows_.keys_eq
  have sorted : page.sequence.keys.Pairwise (· ≤ ·) := by
    rw [← keys]
    exact proper.sorted.imp Nat.le_of_lt
  obtain ⟨left, child, right, parts, bracket⟩ := Row.exists_bracket key page.sequence sorted
  refine ⟨left, child, right, parts, bracket, fun pid => ?_⟩
  rw [parts]
  apply insertEntry_close left child [] right pid _ nofun bracket.2
  intro entry member
  apply Nat.lt_of_le_of_ne (bracket.1 entry member)
  intro same
  apply fresh
  rw [keys, parts, Row.keys_close]
  exact List.mem_append_left _ (List.mem_reverse.mpr (List.mem_map.mpr ⟨entry, member, same⟩))

theorem Proper.fresh (proper : page.Proper) {left right : List (Nat × Nat)} {child : Nat}
    (parts : page.sequence = Row.close left child right) :
    child ∉ leftChildren left := by
  have distinct := proper.distinct
  rw [proper.shows_.children_eq, parts, children_focus, List.nodup_append] at distinct
  exact fun inside => distinct.2.2 child inside child (.head _) rfl

/-! ### One page -/

theorem Proper.insertKeyValue (proper : page.Proper) (room : page.numKeys < NUM_KEY_SLOTS)
    {boundaryKey : Nat} (fresh : boundaryKey ∉ page.keys)
    (newPid : Nat) : (page.insertKeyValue boundaryKey newPid).sequence =
      insertEntry page.sequence boundaryKey newPid := by
  obtain ⟨left, child, right, parts, bracket, inserted⟩ := proper.exists_place fresh
  have shows_ := proper.shows_
  rw [parts] at shows_
  rw [inserted newPid]
  exact (shows_.insertKeyValue newPid bracket.found (decide_eq_true room)).sequence_eq

theorem Proper.handleSplit (proper : page.Proper) {keyToInsert : Nat} (fresh : keyToInsert ∉ page.keys)
    (pageIdToInsert : Nat)
    (newWords : Memory Nat) (newPageId : Nat) :
    let (oldPage, newPage, boundaryKey) := page.handleSplit newWords keyToInsert pageIdToInsert newPageId
    oldPage.sequence.join boundaryKey newPage.sequence =
      insertEntry page.sequence keyToInsert pageIdToInsert := by
  obtain ⟨left, child, right, parts, bracket, inserted⟩ := proper.exists_place fresh
  have shows_ := proper.shows_
  rw [parts] at shows_
  obtain ⟨low, key, high, oldPage, newPage, joined, -, -, split, showsLow, showsHigh, -, -⟩ :=
    shows_.handleSplit pageIdToInsert bracket.found newWords newPageId
  rw [inserted pageIdToInsert, split]
  simp only [showsLow.sequence_eq, showsHigh.sequence_eq, joined]

/-! ### Two neighbours and their parent -/

def Adjacent (page first second : InternalPage) (left : List (Nat × Nat)) (key : Nat)
    (right : List (Nat × Nat)) : Prop :=
  page.Proper ∧ first.Proper ∧ second.Proper ∧
    page.sequence = Row.close left first.pageId ((key, second.pageId) :: right)

variable {first second borrower lender : InternalPage} {left right : List (Nat × Nat)} {key : Nat}

/-- After a rotation nothing but the cut between the pages has moved. -/
structure Moved (page page' first first' second second' : InternalPage) (left : List (Nat × Nat))
    (key : Nat) (right : List (Nat × Nat)) : Prop where
  separator : ∃ key', page'.sequence = Row.close left first.pageId ((key', second.pageId) :: right) ∧
    first'.sequence.join key' second'.sequence = first.sequence.join key second.sequence
  ids : page'.pageId = page.pageId ∧ first'.pageId = first.pageId ∧ second'.pageId = second.pageId

theorem Shows.numKeys_eq (shows_ : page.Shows row) : row.rest.length = page.numKeys := shows_.numKeys.symm

theorem Adjacent.handleLeftBorrow (adjacent : Adjacent page lender borrower left key right)
    {amount : Nat} (some : 1 ≤ amount)
    (lent : amount ≤ lender.numKeys) (room : borrower.numKeys + amount ≤ NUM_KEY_SLOTS) (verdict : Bool) :
    let (page', borrower', lender') := page.handleLeftBorrow borrower lender ⟨verdict, amount⟩
    Moved page page' lender lender' borrower borrower' left key right ∧
      borrower'.numKeys = borrower.numKeys + amount ∧ lender'.numKeys + amount = lender.numKeys := by
  obtain ⟨proper, properLender, properBorrower, parts⟩ := adjacent
  have shows_ := proper.shows_
  rw [parts] at shows_
  have own := properBorrower.shows_
  have size := properLender.shows_.numKeys_eq
  obtain ⟨front, middle, back, cut, -, backCount⟩ :=
    Row.exists_join lender.sequence (lender.numKeys - amount) (by omega)
  have showsLender := properLender.shows_
  rw [cut] at showsLender
  obtain ⟨page', borrower', lender', borrowed, showsPage, showsBorrower, showsLender', ids⟩ :=
    shows_.handleLeftBorrow (proper.fresh parts) rfl showsLender own
      (by omega : back.rest.length + 1 = amount)
      (by rw [own.numKeys_eq]; exact room) verdict
  rw [borrowed]
  refine ⟨⟨⟨middle, showsPage.sequence_eq, ?_⟩, ids.1, ids.2.2, ids.2.1⟩, ?_, ?_⟩
  · rw [showsLender'.sequence_eq, showsBorrower.sequence_eq, cut, Row.join_assoc]
  · have count := showsBorrower.numKeys_eq
    rw [Row.length_rest_join, own.numKeys_eq] at count
    omega
  · have count := showsLender'.numKeys_eq
    have total := congrArg (fun row => row.rest.length) cut
    simp only [Row.length_rest_join] at total
    omega

theorem Adjacent.handleRightBorrow (adjacent : Adjacent page borrower lender left key right)
    {amount : Nat} (some : 1 ≤ amount)
    (lent : amount ≤ lender.numKeys) (room : borrower.numKeys + amount ≤ NUM_KEY_SLOTS) (verdict : Bool) :
    let (page', borrower', lender') := page.handleRightBorrow borrower lender ⟨verdict, amount⟩
    Moved page page' borrower borrower' lender lender' left key right ∧
      borrower'.numKeys = borrower.numKeys + amount ∧ lender'.numKeys + amount = lender.numKeys := by
  obtain ⟨proper, properBorrower, properLender, parts⟩ := adjacent
  have shows_ := proper.shows_
  rw [parts] at shows_
  have own := properBorrower.shows_
  have size := properLender.shows_.numKeys_eq
  obtain ⟨front, middle, back, cut, frontCount, -⟩ := Row.exists_join lender.sequence (amount - 1) (by omega)
  have showsLender := properLender.shows_
  rw [cut] at showsLender
  obtain ⟨page', borrower', lender', borrowed, showsPage, showsBorrower, showsLender', ids⟩ :=
    shows_.handleRightBorrow (proper.fresh parts) rfl showsLender own
      (by omega : front.rest.length + 1 = amount)
      (by rw [own.numKeys_eq]; exact room) verdict
  rw [borrowed]
  refine ⟨⟨⟨middle, showsPage.sequence_eq, ?_⟩, ids⟩, ?_, ?_⟩
  · rw [showsLender'.sequence_eq, showsBorrower.sequence_eq, cut, Row.join_assoc]
  · have count := showsBorrower.numKeys_eq
    rw [Row.length_rest_join, own.numKeys_eq] at count
    omega
  · have count := showsLender'.numKeys_eq
    have total := congrArg (fun row => row.rest.length) cut
    simp only [Row.length_rest_join] at total
    omega

theorem Adjacent.mergePages (adjacent : Adjacent page first second left key right)
    (room : first.numKeys + second.numKeys + 1 ≤ NUM_KEY_SLOTS) :
    let (page', partitionKey) := page.deletePartitionKeyAndChildPtr first.pageId second.pageId
    partitionKey = key ∧ page'.sequence = Row.close left first.pageId right ∧
      (InternalPage.mergePages partitionKey first second).sequence =
        first.sequence.join key second.sequence := by
  obtain ⟨proper, properFirst, properSecond, parts⟩ := adjacent
  have shows_ := proper.shows_
  rw [parts] at shows_
  obtain ⟨page', deleted, showsPage, -⟩ := shows_.deletePartitionKeyAndChildPtr (proper.fresh parts)
  rw [deleted]
  refine ⟨rfl, showsPage.sequence_eq, ?_⟩
  apply Shows.sequence_eq
  apply properFirst.shows_.mergePages properSecond.shows_
  rw [properFirst.shows_.numKeys_eq, properSecond.shows_.numKeys_eq]
  exact room

/-- The same for a merge of leaves, where the key is looked up once more. -/
theorem Proper.deleteKeyAndChildPtr (proper : page.Proper) {a b : Nat}
    (parts : page.sequence = Row.close left a ((key, b) :: right)) :
    (page.deleteKeyAndChildPtr a b).sequence = Row.close left a right := by
  have shows_ := proper.shows_
  have keys := shows_.keys_eq
  have children := shows_.children_eq
  have distinct := proper.distinct
  rw [parts] at shows_ keys children
  rw [keys_focus] at keys
  rw [children, children_focus, List.nodup_append, rightChildren_cons, List.nodup_cons] at distinct
  apply Shows.sequence_eq
  apply shows_.deleteKeyAndChildPtr (proper.fresh parts)
  · exact fun inside => distinct.2.2 b inside b (.tail _ (.head _)) rfl
  · exact fun same => distinct.2.1.1 (by rw [same]; exact .head _)
  · rw [← rightKeys_cons, ← keys]
    exact proper.sorted.imp Nat.le_of_lt

/-- A sibling that is full enough either lends so much that both pages are above the threshold
afterwards, or fits into one page with the child. -/
theorem canLend_decides {sibling : InternalPage} {n : Nat} (few : n ≤ 126) (enough : 127 ≤ sibling.numKeys)
    (fits : sibling.numKeys ≤ NUM_KEY_SLOTS) :
    let report := sibling.canLend (INTERNAL_UNDERFLOW_THRESHOLD + 1 - (16 * n + 8))
    if report.canBorrow then
      1 ≤ report.borrowAmount ∧ report.borrowAmount ≤ sibling.numKeys ∧
        n + report.borrowAmount ≤ NUM_KEY_SLOTS ∧
        INTERNAL_UNDERFLOW_THRESHOLD < 16 * (n + report.borrowAmount) + 8 ∧
        INTERNAL_UNDERFLOW_THRESHOLD < 16 * (sibling.numKeys - report.borrowAmount) + 8
    else n + sibling.numKeys + 1 ≤ NUM_KEY_SLOTS := by
  have threshold : INTERNAL_UNDERFLOW_THRESHOLD = 2026 := rfl
  have slots : NUM_KEY_SLOTS = 254 := rfl
  have needed : u16 ((INTERNAL_UNDERFLOW_THRESHOLD + 1) - (16 * n + 8 : Nat)) =
      INTERNAL_UNDERFLOW_THRESHOLD + 1 - (16 * n + 8) :=
    u16_eq (by omega) (by omega)
  have answer := canLend_spec few enough fits
  rw [needed] at answer
  rw [answer]
  by_cases refused : sibling.numKeys + n < 254
  · simp only [refused, ite_true, Bool.false_eq_true, ite_false]
    omega
  · simp only [refused, ite_false, ite_true]
    omega

/-! ### All edits -/

/-- Insertion and splitting put the new entry at its place, rotations keep everything between two
neighbours, a merge joins them with the key between them, and lending and merging always find room. -/
theorem internal_surgery :
    (∀ page boundaryKey newPid, Proper page → page.numKeys < NUM_KEY_SLOTS → boundaryKey ∉ page.keys →
      (page.insertKeyValue boundaryKey newPid).sequence = insertEntry page.sequence boundaryKey newPid) ∧
    (∀ page newWords keyToInsert pageIdToInsert newPageId, Proper page → keyToInsert ∉ page.keys →
      let (oldPage, newPage, boundaryKey) := page.handleSplit newWords keyToInsert pageIdToInsert newPageId
      oldPage.sequence.join boundaryKey newPage.sequence =
        insertEntry page.sequence keyToInsert pageIdToInsert) ∧
    (∀ page borrower lender left key right amount verdict,
      Adjacent page lender borrower left key right → 1 ≤ amount →
      amount ≤ lender.numKeys → borrower.numKeys + amount ≤ NUM_KEY_SLOTS →
      let (page', borrower', lender') := page.handleLeftBorrow borrower lender ⟨verdict, amount⟩
      Moved page page' lender lender' borrower borrower' left key right ∧
        borrower'.numKeys = borrower.numKeys + amount ∧ lender'.numKeys + amount = lender.numKeys) ∧
    (∀ page borrower lender left key right amount verdict,
      Adjacent page borrower lender left key right → 1 ≤ amount →
      amount ≤ lender.numKeys → borrower.numKeys + amount ≤ NUM_KEY_SLOTS →
      let (page', borrower', lender') := page.handleRightBorrow borrower lender ⟨verdict, amount⟩
      Moved page page' borrower borrower' lender lender' left key right ∧
        borrower'.numKeys = borrower.numKeys + amount ∧ lender'.numKeys + amount = lender.numKeys) ∧
    (∀ page first second left key right, Adjacent page first second left key right →
      (page.deleteKeyAndChildPtr first.pageId second.pageId).sequence = Row.close left first.pageId right ∧
      (first.numKeys + second.numKeys + 1 ≤ NUM_KEY_SLOTS →
        let (page', partitionKey) := page.deletePartitionKeyAndChildPtr first.pageId second.pageId
        partitionKey = key ∧ page'.sequence = Row.close left first.pageId right ∧
          (InternalPage.mergePages partitionKey first second).sequence =
            first.sequence.join key second.sequence)) ∧
    ∀ (n : Nat) (sibling : InternalPage), n ≤ 126 → 127 ≤ sibling.numKeys → sibling.numKeys ≤ NUM_KEY_SLOTS →
      let report := sibling.canLend (INTERNAL_UNDERFLOW_THRESHOLD + 1 - (16 * n + 8))
      if report.canBorrow then
        1 ≤ report.borrowAmount ∧ report.borrowAmount ≤ sibling.numKeys ∧
          n + report.borrowAmount ≤ NUM_KEY_SLOTS ∧
          INTERNAL_UNDERFLOW_THRESHOLD < 16 * (n + report.borrowAmount) + 8 ∧
          INTERNAL_UNDERFLOW_THRESHOLD < 16 * (sibling.numKeys - report.borrowAmount) + 8
      else n + sibling.numKeys + 1 ≤ NUM_KEY_SLOTS := by
  refine ⟨?_, ?_, ?_, ?_, ?_, ?_⟩
  · intro page boundaryKey newPid proper room fresh
    exact proper.insertKeyValue room fresh newPid
  · intro page newWords keyToInsert pageIdToInsert newPageId proper fresh
    exact proper.handleSplit fresh pageIdToInsert newWords newPageId
  · intro page borrower lender left key right amount verdict adjacent some lent room
    exact adjacent.handleLeftBorrow some lent room verdict
  · intro page borrower lender left key right amount verdict adjacent some lent room
    exact adjacent.handleRightBorrow some lent room verdict
  · intro page first second left key right adjacent
    exact ⟨adjacent.1.deleteKeyAndChildPtr adjacent.2.2.2, adjacent.mergePages⟩
  · intro n sibling few enough fits
    exact canLend_decides few enough fits

end Datashil.InternalPage
