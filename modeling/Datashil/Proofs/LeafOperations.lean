import Datashil.Proofs.LeafArithmetic

/-! Leaf pages under arbitrary sequences of operations, and the rebalancing of
two siblings: no layout is ever broken, no tuple lost, changed or cut. -/

namespace Datashil.LeafPage
open Library

/-! ### Rebalancing two siblings -/

/-- The branch of `writeChunkLeaf` that stores only what fits. -/
def Truncates (page : LeafPage) (bufferSize : Nat) : Prop :=
  ¬ min (u32 (SLOT_SIZE + TUPLE_HEADER_SIZE + bufferSize)) MAX_LEAF_PAGE_DATA ≤
    page.checkAvailableSpace + page.checkGarbageBytes

theorem WholeTurn.not_truncates {borrowerPage lenderPage : LeafPage} {element : SlotArrayElement}
    (turn : WholeTurn borrowerPage lenderPage element) :
    ¬ borrowerPage.Truncates (element.length - TUPLE_HEADER_SIZE) := by
  have limit : MAX_LEAF_PAGE_DATA = 813 := rfl
  have size := turn.lender.lengths element turn.live.1
  have room := turn.room
  simp only [Truncates, TUPLE_HEADER_SIZE, SIZEOF_KEY, SLOT_SIZE, limit] at size room ⊢
  rw [u32_eq (by omega)]
  omega

/-- A borrow between valid pages that moved exactly the tuples of `lent`, each
in one piece. -/
structure BorrowedWhole (borrower lender : LeafPage) (indices : List Nat) (report : BorrowQuery)
    (result : LeafPage × LeafPage × Nat) (lent : List SlotArrayElement) : Prop where
  amount : liveCount lent = report.borrowAmount
  moved : Moved borrower lender result.1 result.2.1 (tuplesOf lent lender.bytes)
  whole : ∀ turn ∈ borrowTurns indices report.borrowAmount borrower lender,
    ¬ turn.1.Truncates (turn.2.2.length - TUPLE_HEADER_SIZE)

/-- A merge that raised no error and copied every live tuple in one piece. -/
def MergedWhole (toPage fromPage : LeafPage) : Prop :=
  ∃ merged, toPage.mergePages fromPage = .ok merged ∧
    Absorbed { toPage with rightPid := fromPage.rightPid } merged fromPage.tuples ∧
    ∀ turn ∈ mergeTurns fromPage fromPage.slotArray { toPage with rightPid := fromPage.rightPid },
      ¬ turn.1.Truncates (turn.2.length - TUPLE_HEADER_SIZE)

theorem mergedWhole {toPage fromPage : LeafPage} (toValid : toPage.Valid) (fromValid : fromPage.Valid)
    (room : toPage.used + fromPage.used ≤ PAGE_SIZE - LEAF_PAGE_HEADER_SIZE) :
    MergedWhole toPage fromPage := by
  obtain ⟨merged, result, absorbed, turns⟩ := mergePages_spec toValid fromValid room
  exact ⟨merged, result, absorbed, fun turn member => (turns turn member).not_truncates⟩

/-- What a leaf asks of a sibling, as `Delete` computes it. -/
def needed (child : LeafPage) : Nat := u16 ((LEAF_UNDERFLOW_THRESHOLD + 1) - child.usedSpace)

theorem Valid.needed {child : LeafPage} (valid : child.Valid)
    (underflown : child.usedSpace ≤ LEAF_UNDERFLOW_THRESHOLD) :
    child.used + child.needed = LEAF_UNDERFLOW_THRESHOLD + 1 ∧ 0 < child.needed := by
  have threshold : LEAF_UNDERFLOW_THRESHOLD = 1626 := rfl
  rw [valid.usedSpace] at underflown
  have exact : child.needed = LEAF_UNDERFLOW_THRESHOLD + 1 - child.used := by
    rw [LeafPage.needed, valid.usedSpace]
    exact u16_eq (by omega) (by omega)
  omega

/-- Whatever an underflown leaf and a sibling hold, a sibling that agrees to lend
hands over whole tuples, and one that refuses can be merged with it. -/
theorem rebalancing_is_whole {child sibling : LeafPage} (childValid : child.Valid)
    (siblingValid : sibling.Valid)
    (underflown : child.usedSpace ≤ LEAF_UNDERFLOW_THRESHOLD) :
    (let report := sibling.canLendFromRight child.needed
     if report.canBorrow then
       ∃ kept lent, sibling.slotArray = kept ++ lent ∧
         BorrowedWhole child sibling (List.range sibling.slotArray.length).reverse report
           (handleLeftBorrow child sibling report) lent
     else MergedWhole sibling child) ∧
    (let report := sibling.canLendFromLeft child.needed
     if report.canBorrow then
       ∃ lent kept, sibling.slotArray = lent ++ kept ∧
         BorrowedWhole child sibling (List.range sibling.slotArray.length) report
           (handleRightBorrow child sibling report) lent
     else MergedWhole child sibling) := by
  obtain ⟨sum, positive⟩ := childValid.needed underflown
  constructor
  · simp only
    split
    next agreed =>
      obtain ⟨kept, lent, borrower, lender, slots, report, result, loan⟩ :=
        handleLeftBorrow_spec childValid siblingValid sum positive agreed
      refine ⟨kept, lent, slots, ?_⟩
      rw [report, result]
      exact ⟨rfl, loan.moved, fun turn member => (loan.turns turn member).not_truncates⟩
    next refused =>
      exact mergedWhole siblingValid childValid
        (refused_room sum (siblingValid.canLendFromRight positive) (by simpa using refused))
  · simp only
    split
    next agreed =>
      obtain ⟨lent, kept, borrower, lender, slots, report, result, loan⟩ :=
        handleRightBorrow_spec childValid siblingValid sum positive agreed
      refine ⟨lent, kept, slots, ?_⟩
      rw [report, result]
      exact ⟨rfl, loan.moved, fun turn member => (loan.turns turn member).not_truncates⟩
    next refused =>
      have room := refused_room sum (siblingValid.canLendFromLeft positive) (by simpa using refused)
      exact mergedWhole childValid siblingValid (by omega)

/-- A page with `count` tuples of the greatest length a leaf stores. -/
def packed (first count : Nat) : LeafPage :=
  ((List.range count).map (first + ·)).foldl
    (fun page key =>
      (page.writeChunkLeaf (.ofBuffer (LittleEndian.encode 8 key ++ List.replicate 787 7)) 795 key none).1)
    (makePage (fun _ => 0) [] (fun _ => 0) 3 0 0)

/-- Two tuples underflow to the byte; of four, one can be lent; of three, none,
and the five make up a full page. -/
theorem rebalancing_is_whole_packed :
    (packed 7 2).usedSpace = LEAF_UNDERFLOW_THRESHOLD ∧
    ((packed 1 4).canLendFromRight (packed 7 2).needed = ⟨true, 1⟩ ∧ ∃ kept lent,
      (packed 1 4).slotArray = kept ++ lent ∧
      BorrowedWhole (packed 7 2) (packed 1 4) (List.range 4).reverse ⟨true, 1⟩
        (handleLeftBorrow (packed 7 2) (packed 1 4) ⟨true, 1⟩) lent) ∧
    MergedWhole (packed 7 2) (packed 11 3) := by
  have lends : (packed 1 4).canLendFromRight (packed 7 2).needed = ⟨true, 1⟩ := by decide +kernel
  have refuses : ((packed 11 3).canLendFromLeft (packed 7 2).needed).canBorrow = false := by decide +kernel
  have four := (rebalancing_is_whole (show (packed 7 2).Valid by decide +kernel)
    (show (packed 1 4).Valid by decide +kernel)
    (by decide +kernel)).1
  have three := (rebalancing_is_whole (show (packed 7 2).Valid by decide +kernel)
    (show (packed 11 3).Valid by decide +kernel)
    (by decide +kernel)).2
  rw [lends] at four
  refine ⟨by decide +kernel, ⟨lends, ?_⟩, ?_⟩
  · have count : (packed 1 4).slotArray.length = 4 := by decide +kernel
    simpa only [ite_true, count] using four
  · simpa only [refuses, Bool.false_eq_true, ite_false] using three

def lendingValues (child lender : LeafPage) (slots : List SlotArrayElement) : List Int :=
  (LEAF_UNDERFLOW_THRESHOLD + 1 - child.usedSpace : Int) :: child.usedSpaceValues ++ lender.usedSpaceValues ++
    canLendValues child.needed slots lender.usedSpace 0

theorem lendingValues_exact {child lender : LeafPage} (childValid : child.Valid) (lenderValid : lender.Valid)
    (underflown : child.usedSpace ≤ LEAF_UNDERFLOW_THRESHOLD) {slots : List SlotArrayElement}
    (live : liveBytes slots = liveBytes lender.slotArray) (count : slots.length = lender.slotArray.length) :
    ∀ value ∈ lendingValues child lender slots, Exact value := by
  have threshold : LEAF_UNDERFLOW_THRESHOLD = 1626 := rfl
  have inPage := lenderValid.used_le
  simp only [lendingValues, List.cons_append, List.mem_cons, List.mem_append]
  rintro value (rfl | (member | member) | member)
  · constructor <;> omega
  · exact childValid.usedSpaceValues_exact value member
  · exact lenderValid.usedSpaceValues_exact value member
  · rw [lenderValid.usedSpace] at member
    exact canLendValues_exact slots lender.used 0
      (by simp only [live, count, LeafPage.used, SLOT_SIZE]; omega)
      inPage value member

/-! ### Sequences of operations -/

/-- The operations on leaf pages, with the pages they work on. `makePage` takes a
range of the slots of a page, as a split does with each half; `writeOverflow`
is a write whose tuple then gets its overflow fields; `relink` is the repair of a
left link after a merge. -/
inductive Operation
  | fresh (bytes : Memory Byte) (pid leftPid rightPid : Nat)
  | makePage (page : LeafPage) (bytes : Memory Byte) (start count pid leftPid rightPid : Nat)
  | writeChunk (page : LeafPage) (buffer : Pointer) (bufferSize key : Nat) (defaultTuple : Option Pointer)
  | writeOverflow (page : LeafPage) (buffer : Pointer) (bufferSize key overflowPage : Nat)
  | delete (page : LeafPage) (key : Nat)
  | defragment (page : LeafPage)
  | split (page : LeafPage) (newBytes : Memory Byte) (newPid bufferSize : Nat)
  | leftBorrow (borrower lender : LeafPage)
  | rightBorrow (borrower lender : LeafPage)
  | mergeLeft (sibling child : LeafPage)
  | mergeRight (child sibling : LeafPage)
  | relink (page : LeafPage) (leftPid : Nat)

namespace Operation

def pages : Operation → List LeafPage
  | fresh .. => []
  | makePage page .. | writeChunk page .. | writeOverflow page .. | delete page _ | defragment
      page | split page ..
  | relink page _ => [page]
  | leftBorrow borrower lender | rightBorrow borrower lender => [borrower, lender]
  | mergeLeft sibling child => [sibling, child]
  | mergeRight child sibling => [child, sibling]

def Admissible : Operation → Prop
  | writeChunk page buffer bufferSize key _ | writeOverflow page buffer bufferSize key _ =>
    SIZEOF_KEY ≤ bufferSize ∧ bufferSize < 4294967296 - SLOT_SIZE - TUPLE_HEADER_SIZE ∧
      page.HasRoom bufferSize ∧
      LittleEndian.decode (buffer.read SIZEOF_KEY) = key
  | split page _ _ bufferSize => ¬ page.HasRoom bufferSize
  | leftBorrow borrower lender =>
    borrower.usedSpace ≤ LEAF_UNDERFLOW_THRESHOLD ∧ (lender.canLendFromRight borrower.needed).canBorrow = true
  | rightBorrow borrower lender =>
    borrower.usedSpace ≤ LEAF_UNDERFLOW_THRESHOLD ∧ (lender.canLendFromLeft borrower.needed).canBorrow = true
  | mergeLeft sibling child =>
    child.usedSpace ≤ LEAF_UNDERFLOW_THRESHOLD ∧ (sibling.canLendFromRight child.needed).canBorrow = false
  | mergeRight child sibling =>
    child.usedSpace ≤ LEAF_UNDERFLOW_THRESHOLD ∧ (sibling.canLendFromLeft child.needed).canBorrow = false
  | _ => True

def results : Operation → List LeafPage
  | fresh bytes pid leftPid rightPid => [LeafPage.makePage bytes [] bytes pid leftPid rightPid]
  | makePage page bytes start count pid leftPid rightPid =>
    [LeafPage.makePage bytes ((page.slotArray.drop start).take count) page.bytes pid leftPid rightPid]
  | writeChunk page buffer bufferSize key defaultTuple =>
    [(page.writeChunkLeaf buffer bufferSize key defaultTuple).1]
  | writeOverflow page buffer bufferSize key overflowPage =>
    let (page, status) := page.writeChunkLeaf buffer bufferSize key none
    [page.setOverflowInfo status.overflowInfoStoreAddress 1 overflowPage]
  | delete page key => [(page.deleteTuple key).1]
  | defragment page => [page.defragmentPage]
  | split page newBytes newPid _ =>
    let (oldPage, newPage, _) := page.handleSplit newBytes newPid
    oldPage :: newPage.toList
  | leftBorrow borrower lender =>
    let (borrower, lender, _) := handleLeftBorrow borrower lender (lender.canLendFromRight borrower.needed)
    [borrower, lender]
  | rightBorrow borrower lender =>
    let (borrower, lender, _) := handleRightBorrow borrower lender (lender.canLendFromLeft borrower.needed)
    [borrower, lender]
  | mergeLeft toPage fromPage | mergeRight toPage fromPage => (toPage.mergePages fromPage).toOption.toList
  | relink page leftPid => [{ page with leftPid }]

def added : Operation → List (List Byte)
  | writeChunk page buffer bufferSize _ defaultTuple =>
    [headerBytes bufferSize defaultTuple ++ buffer.read (page.chunkSize bufferSize)]
  | writeOverflow page buffer bufferSize _ overflowPage =>
    [withOverflow 1 overflowPage (headerBytes bufferSize none ++ buffer.read (page.chunkSize bufferSize))]
  | _ => []

def removed : Operation → List (List Byte)
  | makePage page _ start count _ _ _ =>
    tuplesOf (page.slotArray.take start) page.bytes ++
      tuplesOf ((page.slotArray.drop start).drop count) page.bytes
  | delete page key => (page.tuples.find? fun tuple => keyOf tuple = key).toList
  | _ => []

/-- Every value assigned to a 16-bit variable on the way. -/
def values : Operation → List Int
  | fresh .. => makePageValues []
  | makePage page _ start count _ _ _ => makePageValues ((page.slotArray.drop start).take count)
  | writeChunk page _ bufferSize _ _ | writeOverflow page _ bufferSize _ _ => page.writeChunkValues bufferSize
  | delete page key => page.deleteTupleValues key ++ (page.deleteTuple key).1.usedSpaceValues
  | defragment page => makePageValues page.slotArray
  | split page _ _ _ => page.splitValues
  | leftBorrow borrower lender =>
    lendingValues borrower lender lender.slotArray.reverse ++
      borrowValues (borrowTurns (List.range lender.slotArray.length).reverse
        (lender.canLendFromRight borrower.needed).borrowAmount borrower lender)
  | rightBorrow borrower lender =>
    lendingValues borrower lender lender.slotArray ++
      borrowValues (borrowTurns (List.range lender.slotArray.length)
        (lender.canLendFromLeft borrower.needed).borrowAmount borrower lender)
  | mergeLeft sibling child =>
    lendingValues child sibling sibling.slotArray.reverse ++
      mergeValues (mergeTurns child child.slotArray { sibling with rightPid := child.rightPid })
  | mergeRight child sibling =>
    lendingValues child sibling sibling.slotArray ++
      mergeValues (mergeTurns sibling sibling.slotArray { child with rightPid := sibling.rightPid })
  | relink .. => []

structure Sound (operation : Operation) : Prop where
  valid : ∀ page ∈ operation.results, page.Valid
  exact : ∀ value ∈ operation.values, Exact value
  contents : (operation.results.flatMap LeafPage.tuples ++ operation.removed).Perm
    (operation.added ++ operation.pages.flatMap LeafPage.tuples)

private theorem sound_makePage {page : LeafPage} (valid : page.Valid) (bytes : Memory Byte)
    (start count pid leftPid rightPid : Nat) :
    Sound (makePage page bytes start count pid leftPid rightPid) := by
  have cut : page.slotArray.take start ++ (page.slotArray.drop start).take count ++
    (page.slotArray.drop start).drop count =
      page.slotArray := by rw [List.append_assoc, List.take_append_drop, List.take_append_drop]
  have directory := valid.directory
  have accounting := valid.accounting
  have lengths := valid.lengths
  have sorted := valid.keys_sorted
  rw [tuples, ← cut] at sorted
  rw [← cut] at directory accounting lengths
  simp only [tuplesOf_append, List.map_append, List.pairwise_append] at sorted
  simp only [liveBytes_append, List.length_append, LEAF_PAGE_HEADER_SIZE, SLOT_SIZE, PAGE_SIZE]
    at directory accounting
  simp only [fitLengths_append] at lengths
  have made := makePage_spec bytes ((page.slotArray.drop start).take count) page.bytes pid leftPid
    rightPid lengths.1.2
    sorted.1.2.1 (by simp only [LEAF_PAGE_HEADER_SIZE, SLOT_SIZE, PAGE_SIZE]; omega)
  refine ⟨by simpa [results] using made.valid, valid.makePageValues_exact ?_, ?_⟩
  · have all := congrArg liveBytes cut
    simp only [liveBytes_append] at all
    omega
  · have whole : page.tuples = tuplesOf (page.slotArray.take start) page.bytes ++
        tuplesOf ((page.slotArray.drop start).take count) page.bytes ++
        tuplesOf ((page.slotArray.drop start).drop count) page.bytes := by
      rw [← tuplesOf_append, ← tuplesOf_append, cut, tuples]
    simp only [results, removed, added, pages, List.flatMap_cons, List.flatMap_nil, List.append_nil,
      List.nil_append,
      made.tuples_eq, whole, ← List.append_assoc]
    exact List.perm_append_comm.append_right _

private theorem sound_borrow {borrower lender borrower' lender' : LeafPage} {lent : List SlotArrayElement}
    {turns : List (LeafPage × LeafPage × SlotArrayElement)}
    (loan : Lent borrower lender borrower' lender' lent turns) :
    (∀ page ∈ [borrower', lender'], page.Valid) ∧
      ([borrower', lender'].flatMap LeafPage.tuples).Perm ([borrower, lender].flatMap LeafPage.tuples) := by
  refine ⟨by simp [loan.moved.borrowerValid, loan.moved.lenderValid], ?_⟩
  simp only [List.flatMap_cons, List.flatMap_nil, List.append_nil]
  have first := loan.moved.gained.append_right lender'.tuples
  have second := loan.moved.lost.append_left borrower.tuples
  refine first.trans (List.Perm.trans ?_ second.symm)
  rw [← List.append_assoc]
  exact List.perm_append_comm.append_right _

private theorem sound_merge {toPage fromPage : LeafPage} (toValid : toPage.Valid) (fromValid : fromPage.Valid)
    (room : toPage.used + fromPage.used ≤ PAGE_SIZE - LEAF_PAGE_HEADER_SIZE) :
    (∀ page ∈ (toPage.mergePages fromPage).toOption.toList, page.Valid) ∧
      (∀ value ∈ mergeValues (mergeTurns fromPage fromPage.slotArray
        { toPage with rightPid := fromPage.rightPid }),
        Exact value) ∧
      ((toPage.mergePages fromPage).toOption.toList.flatMap LeafPage.tuples).Perm
        (toPage.tuples ++ fromPage.tuples) := by
  obtain ⟨merged, result, absorbed, turns⟩ := mergePages_spec toValid fromValid room
  refine ⟨?_, mergeValues_exact turns, ?_⟩
  · simpa [result, Except.toOption] using absorbed.valid
  · have contents : merged.tuples.Perm (toPage.tuples ++ fromPage.tuples) :=
      absorbed.tuples.trans List.perm_append_comm
    simpa only [result, Except.toOption, Option.toList_some, List.flatMap_cons, List.flatMap_nil,
      List.append_nil]
      using contents

theorem sound (operation : Operation) (valid : ∀ page ∈ operation.pages, page.Valid)
    (admissible : operation.Admissible) :
    operation.Sound := by
  cases operation with
  | fresh bytes pid leftPid rightPid =>
    have made := makePage_empty bytes bytes pid leftPid rightPid
    refine ⟨by simpa [results] using made.valid, by simp [values, makePageValues, compactValues], ?_⟩
    simp [results, removed, added, pages, made.tuples_eq]
  | makePage page bytes start count pid leftPid rightPid =>
    exact sound_makePage (valid page (.head _)) bytes start count pid leftPid rightPid
  | writeChunk page buffer bufferSize key defaultTuple =>
    obtain ⟨least, most, room, keyed⟩ := admissible
    have valid := valid page (.head _)
    obtain ⟨result, address, written, stored, -⟩ :=
      writeChunkLeaf_spec valid buffer defaultTuple least most room keyed
    refine ⟨by simpa [results, written] using stored.valid, valid.writeChunkValues_exact least most room, ?_⟩
    simpa [results, removed, added, pages, written] using stored.perm
  | writeOverflow page buffer bufferSize key overflowPage =>
    obtain ⟨least, most, room, keyed⟩ := admissible
    have valid := valid page (.head _)
    obtain ⟨result, address, written, stored, lowest⟩ :=
      writeChunkLeaf_spec valid buffer none least most room keyed
    have patched := stored.setOverflowInfo lowest 1 overflowPage
    refine ⟨by simpa [results, written] using patched.valid, valid.writeChunkValues_exact least most room, ?_⟩
    simpa [results, removed, added, pages, written] using patched.perm
  | delete page key =>
    have valid := valid page (.head _)
    rcases deleteTuple_spec valid key with ⟨absent, kept⟩ | ⟨first, tuple, second, result, found,
      deleted, discarded, contents⟩
    · refine ⟨by simpa [results, kept] using valid, ?_, ?_⟩
      · intro value member
        rcases List.mem_append.mp member with member | member
        · exact valid.deleteTupleValues_exact key value member
        · rw [kept] at member
          exact valid.usedSpaceValues_exact value member
      · have none : page.tuples.find? (fun tuple => keyOf tuple = key) = none := by
          simpa [List.find?_eq_none] using absent
        simp [results, removed, added, pages, kept, none]
    · obtain ⟨split, same, below⟩ := found
      refine ⟨by simpa [results, deleted] using discarded.valid, ?_, ?_⟩
      · intro value member
        rcases List.mem_append.mp member with member | member
        · exact valid.deleteTupleValues_exact key value member
        · rw [deleted] at member
          exact discarded.valid.usedSpaceValues_exact value member
      · have some_ : page.tuples.find? (fun tuple => keyOf tuple = key) = some tuple := by
          rw [split, List.find?_append, List.find?_eq_none.mpr (by
            intro other member
            have := below other member
            simp only [decide_eq_true_eq]
            omega)]
          simp [same]
        simp only [results, removed, added, pages, deleted, some_, List.flatMap_cons, List.flatMap_nil,
          List.append_nil,
          List.nil_append, Option.toList_some, contents]
        rw [List.append_assoc, split]
        exact List.Perm.append_left _ (List.perm_append_singleton tuple second)
  | defragment page =>
    have valid := valid page (.head _)
    refine ⟨by simpa [results] using valid.defragment.valid, valid.makePageValues_exact (Nat.le_refl _), ?_⟩
    simp [results, removed, added, pages, valid.defragment.tuples_eq]
  | split page newBytes newPid bufferSize =>
    have valid := valid page (.head _)
    have crowded : page.Crowded := by
      simp only [Admissible, HasRoom] at admissible
      simp only [Crowded]
      omega
    obtain ⟨left, right, boundaryKey, result, halved⟩ := handleSplit_spec valid crowded newBytes newPid
    refine ⟨?_, valid.splitValues_exact, ?_⟩
    · simp only [results, result, Option.toList_some, List.mem_cons, List.not_mem_nil, or_false]
      rintro page (rfl | rfl)
      · exact halved.leftMade.valid
      · exact halved.rightMade.valid
    · simp [results, removed, added, pages, result, halved.tuples]
  | leftBorrow borrower lender =>
    obtain ⟨underflown, agreed⟩ := admissible
    have borrowerValid := valid borrower (.head _)
    have lenderValid := valid lender (.tail _ (.head _))
    obtain ⟨sum, positive⟩ := borrowerValid.needed underflown
    obtain ⟨kept, lent, borrower', lender', slots, report, result, loan⟩ :=
      handleLeftBorrow_spec borrowerValid lenderValid sum positive agreed
    refine ⟨?_, ?_, ?_⟩
    · simpa only [results, report, result] using (sound_borrow loan).1
    · simp only [values, report, List.mem_append]
      rintro value (member | member)
      · exact lendingValues_exact borrowerValid lenderValid underflown liveBytes_reverse
          List.length_reverse value member
      · exact borrowValues_exact loan.turns value member
    · simpa only [results, removed, added, pages, report, result, List.append_nil,
        List.nil_append] using (sound_borrow loan).2
  | rightBorrow borrower lender =>
    obtain ⟨underflown, agreed⟩ := admissible
    have borrowerValid := valid borrower (.head _)
    have lenderValid := valid lender (.tail _ (.head _))
    obtain ⟨sum, positive⟩ := borrowerValid.needed underflown
    obtain ⟨lent, kept, borrower', lender', slots, report, result, loan⟩ :=
      handleRightBorrow_spec borrowerValid lenderValid sum positive agreed
    refine ⟨?_, ?_, ?_⟩
    · simpa only [results, report, result] using (sound_borrow loan).1
    · simp only [values, report, List.mem_append]
      rintro value (member | member)
      · exact lendingValues_exact borrowerValid lenderValid underflown rfl rfl value member
      · exact borrowValues_exact loan.turns value member
    · simpa only [results, removed, added, pages, report, result, List.append_nil,
        List.nil_append] using (sound_borrow loan).2
  | mergeLeft sibling child =>
    obtain ⟨underflown, refused⟩ := admissible
    have siblingValid := valid sibling (.head _)
    have childValid := valid child (.tail _ (.head _))
    obtain ⟨sum, positive⟩ := childValid.needed underflown
    obtain ⟨stays, exact, contents⟩ := sound_merge siblingValid childValid
      (refused_room sum (siblingValid.canLendFromRight positive) refused)
    refine ⟨stays, ?_, by simpa [results, removed, added, pages] using contents⟩
    simp only [values, List.mem_append]
    rintro value (member | member)
    · exact lendingValues_exact childValid siblingValid underflown liveBytes_reverse List.length_reverse
        value member
    · exact exact value member
  | mergeRight child sibling =>
    obtain ⟨underflown, refused⟩ := admissible
    have childValid := valid child (.head _)
    have siblingValid := valid sibling (.tail _ (.head _))
    obtain ⟨sum, positive⟩ := childValid.needed underflown
    have room := refused_room sum (siblingValid.canLendFromLeft positive) refused
    obtain ⟨stays, exact, contents⟩ := sound_merge childValid siblingValid (by omega)
    refine ⟨stays, ?_, by simpa [results, removed, added, pages] using contents⟩
    simp only [values, List.mem_append]
    rintro value (member | member)
    · exact lendingValues_exact childValid siblingValid underflown rfl rfl value member
    · exact exact value member
  | relink page leftPid =>
    have valid := valid page (.head _)
    refine ⟨?_, by simp [values], by simp [results, removed, added, pages, LeafPage.tuples]⟩
    simp only [results, List.mem_singleton, forall_eq]
    exact ⟨valid.directory, valid.lengths, valid.placed, valid.accounting, valid.garbage, valid.sorted⟩

end Operation

inductive Obtained : LeafPage → Prop
  | result (operation : Operation) (inputs : ∀ page ∈ operation.pages, Obtained page)
      (admissible : operation.Admissible)
      (page : LeafPage) (member : page ∈ operation.results) : Obtained page

theorem Obtained.valid {page : LeafPage} (obtained : Obtained page) : page.Valid := by
  induction obtained with
  | result operation inputs admissible page member ih =>
    exact (operation.sound ih admissible).valid page member

/-- The representation invariant over any sequence of operations, and what each
further operation does to the tuples it does not write or delete. -/
theorem obtained_pages_sound :
    (∀ page, Obtained page → page.Valid ∧ Exact page.availableSpaceValue) ∧
    ∀ operation : Operation, (∀ page ∈ operation.pages, Obtained page) → operation.Admissible →
      operation.Sound :=
  ⟨fun _ obtained => ⟨obtained.valid, obtained.valid.availableSpaceValue_exact⟩,
    fun operation inputs admissible =>
      operation.sound (fun page member => (inputs page member).valid) admissible⟩

/-- A page written once, and the deletion of its tuple. -/
theorem obtained_pages_sound_packed :
    (packed 4 1).Valid ∧ (Operation.delete (packed 4 1) 4).removed.length = 1 ∧
      (Operation.delete (packed 4 1) 4).Sound := by
  have empty : Obtained (makePage (fun _ => 0) [] (fun _ => 0) 3 0 0) :=
    .result (.fresh (fun _ => 0) 3 0 0) (by simp [Operation.pages]) trivial _ (.head _)
  have once : Obtained (packed 4 1) :=
    .result (.writeChunk (makePage (fun _ => 0) [] (fun _ => 0) 3 0 0)
      (.ofBuffer (LittleEndian.encode 8 4 ++ List.replicate 787 7)) 795 4 none)
      (by simpa [Operation.pages] using empty)
      (by refine ⟨?_, ?_, ?_, ?_⟩ <;> decide +kernel) _
      (List.mem_singleton.mpr rfl)
  refine ⟨(obtained_pages_sound.1 _ once).1, by decide +kernel, ?_⟩
  exact obtained_pages_sound.2 (.delete (packed 4 1) 4) (by simpa [Operation.pages] using once) trivial

end Datashil.LeafPage
