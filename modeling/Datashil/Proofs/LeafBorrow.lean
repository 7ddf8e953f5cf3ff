import Datashil.Proofs.LeafSplit

/-! Lending, borrowing and merging between two leaf pages. An underflown page
uses at most two fifths of the space, a lender refuses only if it keeps no more
than that after lending, and one entry takes at most a fifth: so whoever refuses
can be merged, to the byte. -/

namespace Datashil.LeafPage
open Library

def entryBytes (slots : List SlotArrayElement) : Nat :=
  (slots.map fun element => if element.isDeleted then 0 else element.length + SLOT_SIZE).sum

def liveCount (slots : List SlotArrayElement) : Nat := slots.countP fun element => !element.isDeleted

@[simp] theorem entryBytes_nil : entryBytes [] = 0 := rfl

@[simp] theorem entryBytes_cons (element : SlotArrayElement) (slots : List SlotArrayElement) :
    entryBytes (element :: slots) = (if element.isDeleted then 0 else element.length + SLOT_SIZE) +
      entryBytes slots := by
  simp [entryBytes]

@[simp] theorem liveCount_nil : liveCount [] = 0 := rfl

@[simp] theorem liveCount_cons (element : SlotArrayElement) (slots : List SlotArrayElement) :
    liveCount (element :: slots) = (if element.isDeleted then 0 else 1) + liveCount slots := by
  cases live : element.isDeleted <;> simp [liveCount, live, Nat.add_comm]

theorem liveBytes_le_entryBytes (slots : List SlotArrayElement) : liveBytes slots ≤ entryBytes slots := by
  induction slots with
  | nil => simp
  | cons element slots ih =>
    rw [liveBytes_cons, entryBytes_cons]
    split <;> omega

/-! ### Whether a page can lend -/

/-- The scan agrees once the tuples passed cover what is needed while the lender
stays above the threshold. Otherwise the lender uses little enough for a merge. -/
theorem canLendScan_spec (needed : Nat) (slots : List SlotArrayElement) (usedspace countSpace brwCount : Nat)
    (fits : FitLengths slots) (low : liveBytes slots + SLOT_SIZE * slots.length ≤ usedspace)
    (high : usedspace ≤ liveBytes slots + 780)
    (inPage : usedspace + countSpace ≤ PAGE_SIZE - LEAF_PAGE_HEADER_SIZE)
    (short : countSpace < needed) :
    (∃ lent kept, slots = lent ++ kept ∧
      canLendScan needed slots usedspace countSpace brwCount = ⟨true, brwCount + liveCount lent⟩ ∧
      needed ≤ countSpace + entryBytes lent ∧ countSpace + entryBytes lent < needed + MAX_LEAF_PAGE_DATA ∧
      LEAF_UNDERFLOW_THRESHOLD + entryBytes lent < usedspace) ∨
    (canLendScan needed slots usedspace countSpace brwCount = ⟨false, 0⟩ ∧
      usedspace + countSpace < LEAF_UNDERFLOW_THRESHOLD + needed + MAX_LEAF_PAGE_DATA) := by
  have threshold : LEAF_UNDERFLOW_THRESHOLD = 1626 := rfl
  have most : MAX_LEAF_PAGE_DATA = 813 := rfl
  induction slots generalizing usedspace countSpace brwCount with
  | nil =>
    simp only [liveBytes_nil] at high
    exact .inr ⟨rfl, by omega⟩
  | cons curr rest ih =>
    simp only [SLOT_SIZE, PAGE_SIZE, LEAF_PAGE_HEADER_SIZE, List.length_cons, fitLengths_cons] at low inPage fits ih
    rw [liveBytes_cons] at low high
    cases live : curr.isDeleted with
    | true =>
      simp only [live, ite_true] at low high
      have step : canLendScan needed (curr :: rest) usedspace countSpace brwCount =
          canLendScan needed rest usedspace countSpace brwCount := by
        simp [canLendScan, live, Nat.not_le.mpr short]
      rw [step]
      rcases ih usedspace countSpace brwCount fits.2 (by omega) (by omega) inPage short with
        ⟨lent, kept, rfl, agreed, enough, least, stays⟩ | refused
      · exact .inl ⟨curr :: lent, kept, rfl, by simp [agreed, live], by simpa [live] using enough,
          by simpa [live] using least, by simpa [live] using stays⟩
      · exact .inr refused
    | false =>
      simp only [live, Bool.false_eq_true, ite_false] at low high
      have exact : u16 (usedspace - (curr.length + SLOT_SIZE : Nat) : Int) = usedspace - (curr.length + 5) :=
        u16_eq (by simp only [SLOT_SIZE]; omega) (by omega)
      have next : u16 (countSpace + (curr.length + SLOT_SIZE : Nat) : Int) = countSpace + (curr.length + 5) :=
        u16_eq (by simp only [SLOT_SIZE]; omega) (by omega)
      simp only [canLendScan, Nat.not_le.mpr short, live, exact, next, ite_false, Bool.false_eq_true,
        ge_iff_le]
      split
      next drained => exact .inr ⟨rfl, by omega⟩
      next stays =>
        split
        next enough =>
          refine .inl ⟨[curr], rest, rfl, by simp [live], ?_, ?_, ?_⟩ <;>
            simp only [entryBytes_cons, entryBytes_nil, live, Bool.false_eq_true, ite_false, SLOT_SIZE]
              <;> omega
        next more =>
          rcases ih (usedspace - (curr.length + 5)) (countSpace + (curr.length + 5))
            (brwCount + 1) fits.2 (by omega)
            (by omega) (by omega) (by omega) with ⟨lent, kept, rfl, agreed, enough, least, stays'⟩ | refused
          · refine .inl ⟨curr :: lent, kept, rfl, ?_, ?_, ?_, ?_⟩
            · simp [agreed, live, Nat.add_assoc]
            all_goals
              simp only [entryBytes_cons, live, Bool.false_eq_true, ite_false, SLOT_SIZE]
              omega
          · exact .inr ⟨refused.1, by omega⟩

/-! ### Moving tuples -/

/-- The writes `borrowLoop` makes: borrower and lender before each, and the slot
of the tuple moved. -/
def borrowTurns : List Nat → (borrowAmount : Nat) → (borrowerPage lenderPage : LeafPage) →
    List (LeafPage × LeafPage × SlotArrayElement)
  | [], _, _, _ => []
  | index :: indices, borrowAmount, borrowerPage, lenderPage =>
    if borrowAmount = 0 then []
    else
      let lenderCurr := lenderPage.slotArray.getD index default
      if lenderCurr.isDeleted then borrowTurns indices borrowAmount borrowerPage lenderPage
      else
        (borrowerPage, lenderPage, lenderCurr) ::
          borrowTurns indices (borrowAmount - 1) (borrowerPage.copyTuple lenderPage lenderCurr)
            (lenderPage.discard index lenderCurr)

/-- A turn that copies a live tuple of a valid page whole into another. -/
structure WholeTurn (borrowerPage lenderPage : LeafPage) (element : SlotArrayElement) : Prop where
  borrower : borrowerPage.Valid
  lender : lenderPage.Valid
  live : element ∈ lenderPage.slotArray ∧ element.isDeleted = false
  room : element.length + SLOT_SIZE ≤ borrowerPage.checkAvailableSpace + borrowerPage.checkGarbageBytes

/-- Borrower and lender after `lent` has moved from one to the other. -/
structure Moved (borrower lender borrower' lender' : LeafPage) (lent : List (List Byte)) : Prop where
  borrowerValid : borrower'.Valid
  lenderValid : lender'.Valid
  borrowerIds : borrower'.pageId = borrower.pageId ∧ borrower'.leftPid = borrower.leftPid ∧
    borrower'.rightPid = borrower.rightPid
  lenderIds : lender'.pageId = lender.pageId ∧ lender'.leftPid = lender.leftPid ∧
    lender'.rightPid = lender.rightPid
  gained : borrower'.tuples.Perm (lent ++ borrower.tuples)
  lost : lender.tuples.Perm (lent ++ lender'.tuples)

theorem Stored.perm {page result : LeafPage} {address : Nat} {tuple : List Byte}
    (stored : Stored page result tuple address) : result.tuples.Perm (tuple :: page.tuples) := by
  obtain ⟨first, second, before, after, -, -⟩ := stored.tuples
  rw [before, after]
  exact List.perm_middle

theorem Stored.used {page result : LeafPage} {address : Nat} {tuple : List Byte} (valid : page.Valid)
    (stored : Stored page result tuple address) : result.used ≤ page.used + (tuple.length + SLOT_SIZE) := by
  have bytes := stored.liveBytes valid
  have slots := stored.slots
  simp only [LeafPage.used, SLOT_SIZE]
  omega

theorem Valid.room_iff {page : LeafPage} (valid : page.Valid) (amount : Nat) :
    amount ≤ page.checkAvailableSpace + page.checkGarbageBytes ↔
      page.used + amount ≤ PAGE_SIZE - LEAF_PAGE_HEADER_SIZE := by
  have total := valid.totalSpace
  omega

theorem borrowLoop_spec (indices : List Nat) {borrower lender : LeafPage} {lent : List SlotArrayElement}
    (kept : List SlotArrayElement)
    (borrowerValid : borrower.Valid) (lenderValid : lender.Valid) (nodup : indices.Nodup)
    (inRange : ∀ index ∈ indices, index < lender.slotArray.length)
    (scanned : indices.map (fun index => lender.slotArray.getD index default) = lent ++ kept)
    (room : borrower.used + entryBytes lent ≤ PAGE_SIZE - LEAF_PAGE_HEADER_SIZE) :
    ∃ borrower' lender', borrowLoop indices (liveCount lent) borrower lender = (borrower', lender') ∧
      Moved borrower lender borrower' lender' (tuplesOf lent lender.bytes) ∧
      lender'.used + liveBytes lent = lender.used ∧
      ∀ turn ∈ borrowTurns indices (liveCount lent) borrower lender, WholeTurn turn.1 turn.2.1 turn.2.2 := by
  induction indices generalizing borrower lender lent with
  | nil =>
    obtain ⟨rfl, rfl⟩ : lent = [] ∧ kept = [] := by simpa [eq_comm] using scanned
    exact ⟨borrower, lender, rfl,
      ⟨borrowerValid, lenderValid, ⟨rfl, rfl, rfl⟩, ⟨rfl, rfl, rfl⟩, .refl _, .refl _⟩, rfl,
      by simp [borrowTurns]⟩
  | cons index indices ih =>
    obtain ⟨outside, nodup⟩ := List.nodup_cons.mp nodup
    have bound := inRange index (.head _)
    cases lent with
    | nil =>
      exact ⟨borrower, lender, by simp [borrowLoop],
        ⟨borrowerValid, lenderValid, ⟨rfl, rfl, rfl⟩, ⟨rfl, rfl, rfl⟩, .refl _,
        .refl _⟩, rfl, by simp [borrowTurns]⟩
    | cons element lent =>
      simp only [List.map_cons, List.cons_append, List.cons.injEq] at scanned
      obtain ⟨current, scanned⟩ := scanned
      rw [entryBytes_cons] at room
      cases live : element.isDeleted with
      | true =>
        simp only [live, ite_true, Nat.zero_add] at room
        obtain ⟨borrower', lender', looped, moved, used, turns⟩ :=
          ih borrowerValid lenderValid nodup (fun i member => inRange i (.tail _ member)) scanned room
        -- A deleted slot is stepped over, unless the loop is already done.
        have step : borrowLoop (index :: indices) (liveCount (element :: lent)) borrower lender =
            borrowLoop indices (liveCount lent) borrower lender := by
          by_cases done : liveCount lent = 0
          · cases indices <;> simp [borrowLoop, live, done]
          · simp only [borrowLoop, current, live, liveCount_cons, ite_true, Nat.zero_add, done, ite_false]
        have turnsStep : borrowTurns (index :: indices) (liveCount (element :: lent)) borrower lender =
            borrowTurns indices (liveCount lent) borrower lender := by
          by_cases done : liveCount lent = 0
          · cases indices <;> simp [borrowTurns, live, done]
          · simp only [borrowTurns, current, live, liveCount_cons, ite_true, Nat.zero_add, done, ite_false]
        rw [step, turnsStep, tuplesOf_cons_dead live, liveBytes_cons, live]
        exact ⟨borrower', lender', looped, moved, by simpa using used, turns⟩
      | false =>
        simp only [live, Bool.false_eq_true, ite_false] at room
        have at_ : lender.slotArray[index] = element := by
          rw [← current, List.getD_eq_getElem?_getD, List.getElem?_eq_getElem bound, Option.getD_some]
        have member : element ∈ lender.slotArray := at_ ▸ List.getElem_mem bound
        have size := lenderValid.lengths element member
        have fits : element.length + SLOT_SIZE ≤ borrower.checkAvailableSpace + borrower.checkGarbageBytes :=
          (borrowerValid.room_iff _).mpr (by omega)
        obtain ⟨address, stored⟩ := copyTuple_spec borrowerValid lender size.1 size.2 fits
        have slots : lender.slotArray = lender.slotArray.take index ++ element ::
            lender.slotArray.drop (index + 1) := by
          rw [← at_, ← List.drop_eq_getElem_cons, List.take_append_drop]
        have position : (lender.slotArray.take index).length = index := by
          rw [List.length_take]
          omega
        obtain ⟨discarded, remaining⟩ := lenderValid.discard slots live
        rw [position] at discarded remaining
        have grown := stored.used borrowerValid
        have shrunk := discarded.used
        rw [Memory.length_read] at grown shrunk
        obtain ⟨borrower', lender', looped, moved, used, turns⟩ := ih stored.valid
          discarded.valid nodup
          (by
            intro i inside
            have := inRange i (.tail _ inside)
            simpa [LeafPage.discard] using this)
          (by
            rw [← scanned]
            apply List.map_congr_left
            intro i inside
            have apart : index ≠ i := fun same => outside (same ▸ inside)
            simp only [LeafPage.discard, List.getD_eq_getElem?_getD, List.getElem?_set_ne apart])
          (by omega)
        have amount : liveCount (element :: lent) = liveCount lent + 1 := by
          rw [liveCount_cons, live]
          simp [Nat.add_comm]
        have step : borrowLoop (index :: indices) (liveCount (element :: lent)) borrower lender =
            borrowLoop indices (liveCount lent) (borrower.copyTuple lender element)
              (lender.discard index element) := by
          rw [amount]
          simp only [borrowLoop, Nat.add_eq_zero_iff, Nat.one_ne_zero, and_false, ite_false, current, live,
            Bool.false_eq_true, Nat.add_sub_cancel]
        have turnsStep : borrowTurns (index :: indices) (liveCount (element :: lent)) borrower lender =
            (borrower, lender, element) :: borrowTurns indices (liveCount lent)
              (borrower.copyTuple lender element)
              (lender.discard index element) := by
          rw [amount]
          simp only [borrowTurns, Nat.add_eq_zero_iff, Nat.one_ne_zero, and_false, ite_false, current, live,
            Bool.false_eq_true, Nat.add_sub_cancel]
        refine ⟨borrower', lender', step.trans looped,
          ⟨moved.borrowerValid, moved.lenderValid, ?_, ?_, ?_, ?_⟩, ?_, ?_⟩
        · obtain ⟨pid, left, right⟩ := moved.borrowerIds
          exact ⟨pid.trans stored.pageId, left.trans stored.leftPid, right.trans stored.rightPid⟩
        · obtain ⟨pid, left, right⟩ := moved.lenderIds
          exact ⟨pid.trans discarded.pageId, left.trans discarded.leftPid, right.trans discarded.rightPid⟩
        · rw [tuplesOf_cons_live live]
          exact moved.gained.trans ((stored.perm.append_left _).trans List.perm_middle)
        · rw [tuplesOf_cons_live live, tuples, slots, tuplesOf_append, tuplesOf_cons_live live]
          refine List.perm_middle.trans (List.Perm.cons _ ?_)
          rw [← remaining]
          exact moved.lost
        · simp only [liveBytes_cons, live, Bool.false_eq_true, ite_false]
          omega
        · rw [turnsStep]
          intro turn inside
          rcases List.mem_cons.mp inside with rfl | inside
          · exact ⟨borrowerValid, lenderValid, ⟨member, live⟩, fits⟩
          · exact turns turn inside

/-- The writes `mergeLoop` makes: the absorbing page before each, and the slot copied. -/
def mergeTurns (fromPage : LeafPage) : List SlotArrayElement → LeafPage → List (LeafPage × SlotArrayElement)
  | [], _ => []
  | element :: rest, toPage =>
    if element.isDeleted then mergeTurns fromPage rest toPage
    else (toPage, element) :: mergeTurns fromPage rest (toPage.copyTuple fromPage element)

structure Absorbed (page result : LeafPage) (absorbed : List (List Byte)) : Prop where
  valid : result.Valid
  ids : result.pageId = page.pageId ∧ result.leftPid = page.leftPid ∧ result.rightPid = page.rightPid
  tuples : result.tuples.Perm (absorbed ++ page.tuples)

theorem mergeLoop_spec {fromPage : LeafPage} (fromValid : fromPage.Valid)
    (slots : List SlotArrayElement) {toPage : LeafPage}
    (valid : toPage.Valid) (inside : ∀ element ∈ slots, element ∈ fromPage.slotArray)
    (room : toPage.used + entryBytes slots ≤ PAGE_SIZE - LEAF_PAGE_HEADER_SIZE) :
    ∃ merged, mergeLoop fromPage slots toPage = .ok merged ∧
      Absorbed toPage merged (tuplesOf slots fromPage.bytes) ∧
      ∀ turn ∈ mergeTurns fromPage slots toPage, WholeTurn turn.1 fromPage turn.2 := by
  induction slots generalizing toPage with
  | nil => exact ⟨toPage, rfl, ⟨valid, ⟨rfl, rfl, rfl⟩, .refl _⟩, by simp [mergeTurns]⟩
  | cons element rest ih =>
    rw [entryBytes_cons] at room
    have insideRest : ∀ other ∈ rest, other ∈ fromPage.slotArray :=
      fun other member => inside other (.tail _ member)
    cases live : element.isDeleted with
    | true =>
      obtain ⟨merged, looped, absorbed, turns⟩ := ih valid insideRest (by simpa [live] using room)
      exact ⟨merged, by simpa [mergeLoop, live] using looped, by rwa [tuplesOf_cons_dead live],
        by simpa only [mergeTurns, live, ite_true] using turns⟩
    | false =>
      simp only [live, Bool.false_eq_true, ite_false] at room
      have member := inside element (.head _)
      have size := fromValid.lengths element member
      have fits : element.length + SLOT_SIZE ≤ toPage.checkAvailableSpace + toPage.checkGarbageBytes :=
        (valid.room_iff _).mpr (by omega)
      obtain ⟨address, stored⟩ := copyTuple_spec valid fromPage size.1 size.2 fits
      have grown := stored.used valid
      rw [Memory.length_read] at grown
      obtain ⟨merged, looped, absorbed, turns⟩ := ih stored.valid insideRest (by omega)
      have freespace : u16 (toPage.checkGarbageBytes + toPage.checkAvailableSpace : Int) =
          toPage.checkAvailableSpace + toPage.checkGarbageBytes := by
        rw [Int.add_comm]
        exact valid.totalSpace_u16
      refine ⟨merged, ?_, ⟨absorbed.valid, ?_, ?_⟩, ?_⟩
      · simp only [mergeLoop, live, Bool.false_eq_true, ite_false, freespace, Nat.not_lt.mpr fits]
        exact looped
      · obtain ⟨pid, left, right⟩ := absorbed.ids
        exact ⟨pid.trans stored.pageId, left.trans stored.leftPid, right.trans stored.rightPid⟩
      · rw [tuplesOf_cons_live live]
        exact absorbed.tuples.trans ((stored.perm.append_left _).trans List.perm_middle)
      · simp only [mergeTurns, live, Bool.false_eq_true, ite_false, List.mem_cons]
        rintro turn (rfl | later)
        · exact ⟨valid, fromValid, ⟨member, live⟩, fits⟩
        · exact turns turn later

/-! ### The decisions of an underflown page -/

@[simp] theorem liveCount_reverse (slots : List SlotArrayElement) :
    liveCount slots.reverse = liveCount slots := by
  simp [liveCount]

@[simp] theorem entryBytes_reverse (slots : List SlotArrayElement) :
    entryBytes slots.reverse = entryBytes slots := by
  simp [entryBytes, List.sum_reverse]

theorem tuplesOf_reverse (slots : List SlotArrayElement) (bytes : Memory Byte) :
    tuplesOf slots.reverse bytes = (tuplesOf slots bytes).reverse := by
  simp [tuplesOf, List.filter_reverse]

theorem entryBytes_le_used (page : LeafPage) : entryBytes page.slotArray ≤ page.used := by
  simp only [LeafPage.used]
  generalize page.slotArray = slots
  induction slots with
  | nil => simp
  | cons element slots ih =>
    rw [entryBytes_cons, liveBytes_cons, List.length_cons, Nat.add_mul]
    split <;> omega

theorem FitLengths.reverse {slots : List SlotArrayElement} (fits : FitLengths slots) :
    FitLengths slots.reverse :=
  fun element member => fits element (List.mem_reverse.mp member)

/-- What an answer of a lender means. `slots` are its slots in the order it would
give them away. -/
def Answer (page : LeafPage) (needed : Nat) (slots : List SlotArrayElement) (report : BorrowQuery) : Prop :=
  (∃ lent kept, slots = lent ++ kept ∧ report = ⟨true, liveCount lent⟩ ∧ needed ≤ entryBytes lent ∧
    entryBytes lent < needed + MAX_LEAF_PAGE_DATA ∧ LEAF_UNDERFLOW_THRESHOLD + entryBytes lent < page.used) ∨
  (report = ⟨false, 0⟩ ∧ page.used < LEAF_UNDERFLOW_THRESHOLD + needed + MAX_LEAF_PAGE_DATA)

theorem Valid.answer {page : LeafPage} (valid : page.Valid) {needed : Nat} (positive : 0 < needed)
    {slots : List SlotArrayElement} (fits : FitLengths slots)
    (live : liveBytes slots = liveBytes page.slotArray)
    (count : slots.length = page.slotArray.length) :
    Answer page needed slots (canLendScan needed slots page.usedSpace 0 0) := by
  have few := valid.slots_le
  have inPage := valid.used_le
  have spec := canLendScan_spec needed slots page.used 0 0 fits
    (by simp only [used, SLOT_SIZE]; omega) (by simp only [used, SLOT_SIZE]; omega) (by omega) positive
  simpa only [Answer, valid.usedSpace, Nat.zero_add, Nat.add_zero] using spec

theorem Valid.canLendFromRight {page : LeafPage} (valid : page.Valid) {needed : Nat} (positive : 0 < needed) :
    Answer page needed page.slotArray.reverse (page.canLendFromRight needed) :=
  valid.answer positive valid.lengths.reverse liveBytes_reverse List.length_reverse

theorem Valid.canLendFromLeft {page : LeafPage} (valid : page.Valid) {needed : Nat} (positive : 0 < needed) :
    Answer page needed page.slotArray (page.canLendFromLeft needed) :=
  valid.answer positive valid.lengths rfl rfl

theorem map_getD_range (slots : List SlotArrayElement) :
    (List.range slots.length).map (fun index => slots.getD index default) = slots := by
  apply List.ext_getElem (by simp)
  intro i _ inside
  simp [List.getD_eq_getElem?_getD, inside]

/-- A loan that was agreed to: the lender keeps enough, and every write on the
way stores a whole tuple. -/
structure Lent (borrower lender borrower' lender' : LeafPage) (lent : List SlotArrayElement)
    (turns : List (LeafPage × LeafPage × SlotArrayElement)) : Prop where
  moved : Moved borrower lender borrower' lender' (tuplesOf lent lender.bytes)
  amount : 0 < liveCount lent
  stays : LEAF_UNDERFLOW_THRESHOLD < lender'.used
  turns : ∀ turn ∈ turns, WholeTurn turn.1 turn.2.1 turn.2.2

private theorem liveCount_pos {slots : List SlotArrayElement} (some_entry : 0 < entryBytes slots) :
    0 < liveCount slots := by
  induction slots with
  | nil => simp at some_entry
  | cons element slots ih =>
    rw [liveCount_cons]
    rw [entryBytes_cons] at some_entry
    split
    next deleted =>
      rw [if_pos deleted] at some_entry
      have := ih (by omega)
      omega
    next live => omega

theorem handleLeftBorrow_spec {borrower lender : LeafPage} (borrowerValid : borrower.Valid)
    (lenderValid : lender.Valid)
    {needed : Nat} (underflown : borrower.used + needed = LEAF_UNDERFLOW_THRESHOLD + 1)
    (positive : 0 < needed)
    (agreed : (lender.canLendFromRight needed).canBorrow = true) :
    ∃ kept lent borrower' lender', lender.slotArray = kept ++ lent ∧
      lender.canLendFromRight needed = ⟨true, liveCount lent⟩ ∧
      handleLeftBorrow borrower lender ⟨true, liveCount lent⟩ =
        (borrower', lender', borrower'.getPageFirstKey) ∧
      Lent borrower lender borrower' lender' lent
        (borrowTurns (List.range lender.slotArray.length).reverse (liveCount lent) borrower lender) := by
  have threshold : LEAF_UNDERFLOW_THRESHOLD = 1626 := rfl
  have most : MAX_LEAF_PAGE_DATA = 813 := rfl
  rcases lenderValid.canLendFromRight positive with
    ⟨lent, kept, slots, report, enough, least, stays⟩ | ⟨refused, -⟩
  · have room : borrower.used + entryBytes lent ≤ PAGE_SIZE - LEAF_PAGE_HEADER_SIZE := by
      simp only [PAGE_SIZE, LEAF_PAGE_HEADER_SIZE]
      omega
    obtain ⟨borrower', lender', looped, moved, used, turns⟩ :=
      borrowLoop_spec (List.range lender.slotArray.length).reverse kept borrowerValid lenderValid
        (List.nodup_reverse.mpr List.nodup_range) (by simp)
          (by rw [List.map_reverse, map_getD_range, slots]) room
    have live := liveBytes_le_entryBytes lent
    refine ⟨kept.reverse, lent.reverse, borrower', lender', ?_, by rw [report, liveCount_reverse], ?_, ?_⟩
    · rw [← List.reverse_append, ← slots, List.reverse_reverse]
    · simp only [handleLeftBorrow, liveCount_reverse, looped]
    · rw [liveCount_reverse]
      refine ⟨?_, ?_, by omega, turns⟩
      · have reordered := List.reverse_perm (tuplesOf lent lender.bytes)
        rw [tuplesOf_reverse]
        exact ⟨moved.borrowerValid, moved.lenderValid, moved.borrowerIds, moved.lenderIds,
          moved.gained.trans (reordered.symm.append_right _),
            moved.lost.trans (reordered.symm.append_right _)⟩
      · rw [liveCount_reverse]
        exact liveCount_pos (by omega)
  · rw [refused] at agreed
    contradiction

theorem handleRightBorrow_spec {borrower lender : LeafPage} (borrowerValid : borrower.Valid)
    (lenderValid : lender.Valid)
    {needed : Nat} (underflown : borrower.used + needed = LEAF_UNDERFLOW_THRESHOLD + 1)
    (positive : 0 < needed)
    (agreed : (lender.canLendFromLeft needed).canBorrow = true) :
    ∃ lent kept borrower' lender', lender.slotArray = lent ++ kept ∧
      lender.canLendFromLeft needed = ⟨true, liveCount lent⟩ ∧
      handleRightBorrow borrower lender ⟨true, liveCount lent⟩ =
        (borrower', lender', lender'.getPageFirstKey) ∧
      Lent borrower lender borrower' lender' lent
        (borrowTurns (List.range lender.slotArray.length) (liveCount lent) borrower lender) := by
  have threshold : LEAF_UNDERFLOW_THRESHOLD = 1626 := rfl
  have most : MAX_LEAF_PAGE_DATA = 813 := rfl
  rcases lenderValid.canLendFromLeft positive with
    ⟨lent, kept, slots, report, enough, least, stays⟩ | ⟨refused, -⟩
  · have room : borrower.used + entryBytes lent ≤ PAGE_SIZE - LEAF_PAGE_HEADER_SIZE := by
      simp only [PAGE_SIZE, LEAF_PAGE_HEADER_SIZE]
      omega
    obtain ⟨borrower', lender', looped, moved, used, turns⟩ :=
      borrowLoop_spec (List.range lender.slotArray.length) kept borrowerValid lenderValid
        List.nodup_range (by simp) (by rw [map_getD_range, slots]) room
    have live := liveBytes_le_entryBytes lent
    refine ⟨lent, kept, borrower', lender', slots, report, ?_,
      ⟨moved, liveCount_pos (by omega), by omega, turns⟩⟩
    simp only [handleRightBorrow, looped]
  · rw [refused] at agreed
    contradiction

/-- Two pages that together leave no more than a page: the merge goes through. -/
theorem mergePages_spec {toPage fromPage : LeafPage} (toValid : toPage.Valid) (fromValid : fromPage.Valid)
    (room : toPage.used + fromPage.used ≤ PAGE_SIZE - LEAF_PAGE_HEADER_SIZE) :
    ∃ merged, toPage.mergePages fromPage = .ok merged ∧
      Absorbed { toPage with rightPid := fromPage.rightPid } merged fromPage.tuples ∧
      ∀ turn ∈ mergeTurns fromPage fromPage.slotArray { toPage with rightPid := fromPage.rightPid },
        WholeTurn turn.1 fromPage turn.2 := by
  have entries := entryBytes_le_used fromPage
  have valid : ({ toPage with rightPid := fromPage.rightPid } : LeafPage).Valid :=
    ⟨toValid.directory, toValid.lengths, toValid.placed, toValid.accounting, toValid.garbage, toValid.sorted⟩
  have same : ({ toPage with rightPid := fromPage.rightPid } : LeafPage).used = toPage.used := rfl
  exact mergeLoop_spec fromValid fromPage.slotArray valid (fun _ member => member) (by omega)

/-- A refusal makes room for a merge, exactly. -/
theorem refused_room {child sibling : LeafPage} {needed : Nat} {slots : List SlotArrayElement}
    {report : BorrowQuery}
    (underflown : child.used + needed = LEAF_UNDERFLOW_THRESHOLD + 1)
    (answer : Answer sibling needed slots report) (refused : report.canBorrow = false) :
    sibling.used + child.used ≤ PAGE_SIZE - LEAF_PAGE_HEADER_SIZE := by
  have threshold : LEAF_UNDERFLOW_THRESHOLD = 1626 := rfl
  have most : MAX_LEAF_PAGE_DATA = 813 := rfl
  rcases answer with ⟨_, _, _, rfl, _⟩ | ⟨-, small⟩
  · simp at refused
  · simp only [PAGE_SIZE, LEAF_PAGE_HEADER_SIZE]
    omega

end Datashil.LeafPage
