import Datashil.Proofs.LeafDelete

/-! Splitting a leaf page that has no room left. Such a page holds more than
three thousand live bytes, so the scan always stops at a proper cut and neither
fallback of the source is taken. -/

namespace Datashil.LeafPage
open Library

variable {page : LeafPage}

/-- The scan stops at the first live slot that takes the consumed bytes over
half a page. -/
private theorem splitScan_spec (slots : List SlotArrayElement) (index consumedSpace liveCount : Nat)
    (below : consumedSpace ≤ SPLIT_THRESHOLD) (above : SPLIT_THRESHOLD < consumedSpace + liveBytes slots)
    (inPage : consumedSpace + liveBytes slots < PAGE_SIZE) :
    ∃ first element second count, slots = first ++ element :: second ∧ element.isDeleted = false ∧
      consumedSpace + liveBytes first ≤ SPLIT_THRESHOLD ∧
      SPLIT_THRESHOLD < consumedSpace + liveBytes first + element.length ∧ 0 < count ∧
      splitScan slots index consumedSpace liveCount =
        (some (skipDeleted second (index + first.length + 1)), count) := by
  induction slots generalizing index consumedSpace liveCount with
  | nil => simp only [liveBytes_nil] at above; omega
  | cons current rest ih =>
    rw [liveBytes_cons] at above inPage
    cases live : current.isDeleted with
    | true =>
      simp only [live, ite_true, Nat.zero_add] at above inPage
      obtain ⟨first, element, second, count, rfl, alive, low, high, positive, scanned⟩ :=
        ih (index + 1) consumedSpace liveCount below above inPage
      refine ⟨current :: first, element, second, count, rfl, alive, ?_, ?_, positive, ?_⟩
      · simpa [live] using low
      · simpa [live] using high
      · simp only [splitScan, live, ite_true, scanned, List.length_cons, Prod.mk.injEq,
          Option.some.injEq, and_true]
        congr 1
        omega
    | false =>
      simp only [live, Bool.false_eq_true, ite_false, PAGE_SIZE] at above inPage
      have exact : u16 (consumedSpace + current.length : Int) = consumedSpace + current.length :=
        u16_eq (by omega) (by omega)
      by_cases enough : consumedSpace + current.length > SPLIT_THRESHOLD
      · refine ⟨[], current, rest, liveCount + 1, rfl,
          live, by simpa using below, by simpa using enough, by omega, ?_⟩
        simp only [splitScan, live, Bool.false_eq_true, ite_false, exact, enough, ite_true,
          List.length_nil, Nat.add_zero]
      · obtain ⟨first, element, second, count, rfl, alive, low, high, positive, scanned⟩ :=
          ih (index + 1) (consumedSpace + current.length) (liveCount + 1) (by omega) (by omega)
            (by simp only [PAGE_SIZE]; omega)
        refine ⟨current :: first, element, second, count, rfl, alive, ?_, ?_, positive, ?_⟩
        · simp only [liveBytes_cons, live, Bool.false_eq_true, ite_false]
          omega
        · simp only [liveBytes_cons, live, Bool.false_eq_true, ite_false]
          omega
        · simp only [splitScan, live, Bool.false_eq_true, ite_false, exact, enough, scanned, List.length_cons,
            Prod.mk.injEq, Option.some.injEq, and_true]
          congr 1
          omega

/-- Deleted slots at the front hold no live byte; the first live slot follows them. -/
private theorem skipDeleted_split (slots : List SlotArrayElement) (start : Nat)
    (some_live : 0 < liveBytes slots) :
    ∃ gone element rest, slots = gone ++ element :: rest ∧ liveBytes gone = 0 ∧ element.isDeleted = false ∧
      skipDeleted slots start = start + gone.length := by
  induction slots generalizing start with
  | nil => simp at some_live
  | cons current slots ih =>
    cases live : current.isDeleted with
    | true =>
      obtain ⟨gone, element, rest, rfl, none, alive, skipped⟩ :=
        ih (start + 1) (by simpa [live] using some_live)
      refine ⟨current :: gone, element, rest, rfl, by simp [live, none], alive, ?_⟩
      simp only [skipDeleted, live, ite_true, skipped, List.length_cons]
      omega
    | false => exact ⟨[], current, slots, rfl, rfl, live, by simp [skipDeleted, live]⟩

/-- A page with less room than the smallest worthwhile entry. -/
def Crowded (page : LeafPage) : Prop := page.checkAvailableSpace + page.checkGarbageBytes < MIN_LEAF_PAGE_DATA

theorem Valid.crowded_liveBytes (valid : page.Valid) (crowded : page.Crowded) :
    3157 < liveBytes page.slotArray ∧ liveBytes page.slotArray + 5 * page.slotArray.length ≤ 4065 := by
  have few := valid.slots_le
  have total := valid.totalSpace
  simp only [Crowded, used, MIN_LEAF_PAGE_DATA, LEAF_PAGE_HEADER_SIZE, SLOT_SIZE, PAGE_SIZE] at crowded total
  omega

/-- The cut of a crowded page: the first side holds more than half a page of live tuples, the
other one some, and neither more than 2840 bytes of them. -/
theorem Valid.splitPoint (valid : page.Valid) (crowded : page.Crowded) :
    ∃ first element second, page.slotArray = first ++ element :: second ∧ element.isDeleted = false ∧
      LeafPage.splitPoint page.slotArray = some first.length ∧ SPLIT_THRESHOLD < liveBytes first ∧
      liveBytes first ≤ 2840 ∧ liveBytes (element :: second) ≤ 2840 := by
  have threshold : SPLIT_THRESHOLD = 2032 := rfl
  have most : MAX_LEAF_PAGE_DATA = 813 := rfl
  obtain ⟨least, inPage⟩ := valid.crowded_liveBytes crowded
  obtain ⟨before, current, after, count, slots, live, low, high, positive, scanned⟩ :=
    splitScan_spec page.slotArray 0 0 0 (by omega) (by omega) (by simp only [PAGE_SIZE]; omega)
  have size := (valid.lengths current (by rw [slots]; simp)).2
  have total : liveBytes page.slotArray = liveBytes before + (current.length + liveBytes after) := by
    rw [slots, liveBytes_append, liveBytes_cons, live]
    simp
  simp only [SLOT_SIZE, most, threshold, Nat.zero_add] at size low high
  obtain ⟨gone, element, rest, rfl, none, alive, skipped⟩ :=
    skipDeleted_split after (0 + before.length + 1) (by omega)
  have start : 0 + before.length + 1 + gone.length = (before ++ current :: gone).length := by
    simp only [List.length_append, List.length_cons]
    omega
  have firstBytes : liveBytes (before ++ current :: gone) = liveBytes before + current.length := by
    simp [live, none]
  have restBytes : liveBytes (gone ++ element :: rest) = liveBytes (element :: rest) := by
    rw [liveBytes_append, none, Nat.zero_add]
  refine ⟨before ++ current :: gone, element, rest, by simp [slots], alive, ?_, by omega, by omega, by omega⟩
  have inside : (before ++ current :: gone).length ≠ page.slotArray.length := by
    simp only [slots, List.length_append, List.length_cons]
    omega
  have nonzero : (before ++ current :: gone).length ≠ 0 := by simp
  simp only [LeafPage.splitPoint, scanned, skipped, start, Option.getD_some]
  rw [if_neg (by omega), if_neg (by rintro (whole | empty) <;> contradiction)]

structure Halved (page : LeafPage) (newPid : Nat) (left right : LeafPage) (boundaryKey : Nat) : Prop where
  leftMade : Made left left.tuples
  rightMade : Made right right.tuples
  tuples : page.tuples = left.tuples ++ right.tuples
  half : SPLIT_THRESHOLD < (left.tuples.map List.length).sum
  cut : ∃ start, splitPoint page.slotArray = some start ∧
    left.tuples = tuplesOf (page.slotArray.take start) page.bytes ∧
    right.tuples = tuplesOf (page.slotArray.drop start) page.bytes
  nonempty : left.tuples ≠ []
  boundary : right.tuples.head?.map keyOf = some boundaryKey
  leftIds : left.pageId = page.pageId ∧ left.leftPid = page.leftPid ∧ left.rightPid = newPid
  rightIds : right.pageId = newPid ∧ right.leftPid = page.pageId ∧ right.rightPid = page.rightPid
  leftSpace : MIN_LEAF_PAGE_DATA ≤ left.checkAvailableSpace + left.checkGarbageBytes
  rightSpace : MIN_LEAF_PAGE_DATA ≤ right.checkAvailableSpace + right.checkGarbageBytes

private theorem made_space {source : List SlotArrayElement} {buffer : Memory Byte}
    (made : Made page (tuplesOf source buffer)) (bytes : liveBytes source ≤ 2840) :
    MIN_LEAF_PAGE_DATA ≤ page.checkAvailableSpace + page.checkGarbageBytes := by
  have live : liveBytes page.slotArray = liveBytes source := by
    rw [made.liveBytes_eq, sum_tuplesOf]
  have total := made.valid.totalSpace
  have least := made.valid.lengths.total
  have none : deadBytes page.slotArray = 0 := by
    have := made.valid.garbage
    rw [made.garbage] at this
    omega
  simp only [used, MIN_LEAF_PAGE_DATA, LEAF_PAGE_HEADER_SIZE, SLOT_SIZE, PAGE_SIZE] at total ⊢
  omega

theorem handleSplit_spec (valid : page.Valid) (crowded : page.Crowded) (newBytes : Memory Byte)
    (newPid : Nat) :
    ∃ left right boundaryKey, page.handleSplit newBytes newPid = (left, some right, boundaryKey) ∧
      Halved page newPid left right boundaryKey := by
  obtain ⟨first, element, second, slots, live, cut, half, firstBytes, secondBytes⟩ := valid.splitPoint crowded
  have some_live : 0 < liveBytes first := Nat.zero_lt_of_lt half
  obtain ⟨-, inPage⟩ := valid.crowded_liveBytes crowded
  have lengths := valid.lengths
  have sorted := valid.keys_sorted
  rw [slots] at lengths inPage
  rw [LeafPage.tuples, slots, tuplesOf_append, List.map_append, List.pairwise_append] at sorted
  rw [fitLengths_append] at lengths
  simp only [liveBytes_append, List.length_append] at inPage
  have left := makePage_spec page.bytes first page.bytes page.pageId page.leftPid newPid lengths.1 sorted.1
    (by simp only [LEAF_PAGE_HEADER_SIZE, SLOT_SIZE, PAGE_SIZE]; omega)
  have right := makePage_spec newBytes (element :: second) page.bytes newPid page.pageId page.rightPid
    lengths.2 sorted.2.1
    (by simp only [LEAF_PAGE_HEADER_SIZE, SLOT_SIZE, PAGE_SIZE]; omega)
  refine ⟨makePage page.bytes first page.bytes page.pageId page.leftPid newPid,
    makePage newBytes (element :: second) page.bytes newPid page.pageId page.rightPid,
    getKeyFromSlotElement page.bytes element, ?_, ?_⟩
  · simp only [handleSplit, cut]
    rw [slots, List.take_left, List.drop_left]
    simp [List.getD_eq_getElem?_getD]
  · refine ⟨left.tuples_eq ▸ left, right.tuples_eq ▸ right, ?_, ?_, ⟨first.length, cut, ?_, ?_⟩, ?_, ?_,
      ⟨rfl, rfl, rfl⟩, ⟨rfl, rfl, rfl⟩,
      made_space left firstBytes, made_space right secondBytes⟩
    · rw [left.tuples_eq, right.tuples_eq, LeafPage.tuples, slots, tuplesOf_append]
    · rw [left.tuples_eq, sum_tuplesOf]
      exact half
    · rw [left.tuples_eq, slots, List.take_left]
    · rw [right.tuples_eq, slots, List.drop_left]
    · intro none
      have bytes := left.liveBytes_eq
      rw [← left.tuples_eq, none] at bytes
      have same := sum_tuplesOf first page.bytes
      rw [← left.tuples_eq, none] at same
      simp only [List.map_nil, List.sum_nil] at same
      omega
    · rw [right.tuples_eq, tuplesOf_cons_live live, List.head?_cons, Option.map_some,
        getKey_eq_keyOf (lengths.2 element (.head _)).1]

end Datashil.LeafPage
