import Datashil.LeafPage

/-! The binary search over a slot directory is exact although it steps over
deleted slots: its window always ends before the first live slot known not to be
passed, and everything live before its start has been passed. -/

namespace Datashil.LeafPage
open Library

variable {slots : List SlotArrayElement} {bytes : Memory Byte} {goesRight : Nat → Bool}

/-- Live keys are non-decreasing in slot order; deleted slots say nothing. Their offsets may point
to bytes that have been overwritten, so a search must not compare with them. -/
def SortedSlots (slots : List SlotArrayElement) (bytes : Memory Byte) : Prop :=
  slots.Pairwise fun first second => first.isDeleted = false → second.isDeleted = false →
    getKeyFromSlotElement bytes first ≤ getKeyFromSlotElement bytes second

/-- The first live slot that does not send the search to the right, or the end. -/
structure IsBound (slots : List SlotArrayElement) (bytes : Memory Byte) (goesRight : Nat → Bool)
    (index : Nat) : Prop where
  inside : index ≤ slots.length
  passed : ∀ i element, slots[i]? = some element → element.isDeleted = false → i < index →
    goesRight (getKeyFromSlotElement bytes element) = true
  found : ∀ element, slots[index]? = some element →
    element.isDeleted = false ∧ goesRight (getKeyFromSlotElement bytes element) = false

theorem skipDeleted_spec (rest : List SlotArrayElement) (start : Nat) :
    start ≤ skipDeleted rest start ∧ skipDeleted rest start ≤ start + rest.length ∧
      (∀ i element, rest[i]? = some element → start + i < skipDeleted rest start → element.isDeleted = true) ∧
      (∀ element, rest[skipDeleted rest start - start]? = some element → element.isDeleted = false) := by
  induction rest generalizing start with
  | nil => simp [skipDeleted]
  | cons element rest ih =>
    simp only [skipDeleted]
    split
    next deleted =>
      obtain ⟨low, high, skipped, live⟩ := ih (start + 1)
      refine ⟨by omega, by simp only [List.length_cons]; omega, ?_, ?_⟩
      · intro i other found before
        cases i with
        | zero => simpa using (by simpa using found : element = other) ▸ deleted
        | succ i => exact skipped i other (by simpa using found) (by omega)
      · intro other found
        obtain ⟨steps, same⟩ := Nat.exists_eq_add_of_le low
        have shift : skipDeleted rest (start + 1) - start = steps + 1 := by omega
        rw [shift, List.getElem?_cons_succ] at found
        exact live other (by rwa [same, Nat.add_sub_cancel_left])
    next live =>
      refine ⟨Nat.le_refl _, by omega, fun i other _ before => by omega, ?_⟩
      intro other found
      simp only [Nat.sub_self, List.getElem?_cons_zero, Option.some.injEq] at found
      subst other
      simpa using live

structure Window.Valid (slots : List SlotArrayElement) (bytes : Memory Byte) (goesRight : Nat → Bool)
    (window : Window) : Prop where
  left : 0 ≤ window.l ∧ window.l ≤ window.r + 1
  right : window.r < slots.length
  ans : window.r < window.ans ∧ window.ans ≤ slots.length
  passed : ∀ (i : Nat) element, slots[i]? = some element → element.isDeleted = false → (i : Int) < window.l →
    goesRight (getKeyFromSlotElement bytes element) = true
  first : ∀ (i : Nat) element, slots[i]? = some element → element.isDeleted = false → window.r < i →
    window.ans ≤ i
  found : ∀ element, slots[window.ans.toNat]? = some element →
    element.isDeleted = false ∧ goesRight (getKeyFromSlotElement bytes element) = false

/-- A turn of the loop probes the first live slot at or after the middle. -/
theorem probe (slots : List SlotArrayElement) (start : Nat) (inside : start ≤ slots.length) :
    let mid := skipDeleted (slots.drop start) start
    start ≤ mid ∧ mid ≤ slots.length ∧
      (∀ i element, slots[i]? = some element → element.isDeleted = false → start ≤ i → mid ≤ i) ∧
      (∀ element, slots[mid]? = some element → element.isDeleted = false) := by
  obtain ⟨low, high, skipped, live⟩ := skipDeleted_spec (slots.drop start) start
  simp only [List.length_drop] at high
  refine ⟨low, by omega, ?_, ?_⟩
  · intro i element found alive from'
    by_contra before
    obtain ⟨steps, rfl⟩ := Nat.exists_eq_add_of_le from'
    have dead := skipped steps element (by simpa [List.getElem?_drop] using found) (by omega)
    simp [dead] at alive
  · intro element found
    apply live element
    rw [List.getElem?_drop, Nat.add_sub_cancel' low]
    exact found

theorem boundLoop_spec (small : slots.length ≤ 32767) (sorted : SortedSlots slots bytes)
    (down : ∀ low high, low ≤ high → goesRight high = true → goesRight low = true)
    (fuel : Nat) (window : Window) (valid : window.Valid slots bytes goesRight)
    (enough : window.r - window.l < fuel) :
    let final := boundLoop slots bytes goesRight fuel window
    final.Valid slots bytes goesRight ∧ final.r < final.l := by
  induction fuel generalizing window with
  | zero => exact ⟨valid, by simp only [boundLoop]; omega⟩
  | succ fuel ih =>
    have left := valid.left
    have right := valid.right
    simp only [boundLoop]
    split
    next inside =>
      -- The middle as a natural number, so that slots can be indexed by it.
      obtain ⟨start, middle⟩ : ∃ start : Nat, window.l + (window.r - window.l) / 2 = start :=
        ⟨(window.l + (window.r - window.l) / 2).toNat, by omega⟩
      have exact : i16 start = start := i16_eq (by omega) (by omega)
      simp only [middle, exact, Int.toNat_natCast]
      obtain ⟨low, high, nearest, live⟩ := probe slots start (by omega)
      generalize skipDeleted (slots.drop start) start = mid at low high nearest live ⊢
      have back : i16 (start - 1 : Int) = start - 1 := i16_eq (by omega) (by omega)
      split
      next missing =>
        have ended : mid = slots.length := by
          have := List.getElem?_eq_none_iff.mp missing
          omega
        apply ih
        · refine ⟨?_, ?_, ?_, valid.passed, ?_, valid.found⟩ <;> simp only [back]
          · omega
          · omega
          · have := valid.ans; omega
          · intro i element found alive after
            have := nearest i element found alive (by omega)
            have := (List.getElem?_eq_some_iff.mp found).1
            omega
        · simp only [back]; omega
      next element found =>
        have alive := live element found
        have midInside := (List.getElem?_eq_some_iff.mp found).1
        split
        next passes =>
          have bounded : (mid : Int) ≤ window.r := by
            by_contra beyond
            have least := valid.first mid element found alive (by omega)
            have isAns : window.ans.toNat = mid := by
              have probed : window.ans = mid ∨ window.ans < mid := by omega
              rcases probed with same | earlier
              · omega
              · have ans := valid.ans
                have at_ := List.getElem?_eq_getElem (show window.ans.toNat < slots.length by omega)
                have := nearest _ _ at_ (valid.found _ at_).1 (by omega)
                omega
            have stops := (valid.found element (by rwa [isAns])).2
            simp [passes] at stops
          have next' : i16 (mid + 1 : Int) = mid + 1 := i16_eq (by omega) (by omega)
          apply ih
          · refine ⟨?_, right, valid.ans, ?_, valid.first, valid.found⟩ <;> simp only [next']
            · omega
            · intro i other at_ alive' before
              by_cases same : i = mid
              · subst i
                cases found.symm.trans at_
                exact passes
              · have ordered := List.pairwise_iff_getElem.mp sorted i mid
                  (List.getElem?_eq_some_iff.mp at_).1 midInside (by omega)
                rw [(List.getElem?_eq_some_iff.mp at_).2, (List.getElem?_eq_some_iff.mp found).2] at ordered
                exact down _ _ (ordered alive' alive) passes
          · simp only [next']; omega
        next stops =>
          apply ih
          · refine ⟨?_, ?_, ?_, valid.passed, ?_, ?_⟩ <;> simp only [back]
            · omega
            · omega
            · omega
            · intro i other at_ alive' after
              have := nearest i other at_ alive' (by omega)
              omega
            · intro other at_
              rw [Int.toNat_natCast] at at_
              cases found.symm.trans at_
              exact ⟨alive, by simpa using stops⟩
          · simp only [back]; omega
    next done => exact ⟨valid, by omega⟩

def Window.whole (slots : List SlotArrayElement) : Window := ⟨0, (slots.length : Int) - 1, slots.length⟩

theorem boundLoop_whole (small : slots.length ≤ 32767) (sorted : SortedSlots slots bytes)
    (down : ∀ low high, low ≤ high → goesRight high = true → goesRight low = true) {fuel : Nat}
    (enough : slots.length ≤ fuel) :
    let final := boundLoop slots bytes goesRight fuel (.whole slots)
    final.r < final.l ∧ 0 ≤ final.ans ∧ IsBound slots bytes goesRight final.ans.toNat := by
  have start : (Window.whole slots).Valid slots bytes goesRight := by
    refine ⟨by simp only [Window.whole]; omega, by simp only [Window.whole]; omega,
      by simp only [Window.whole]; omega, ?_, ?_, ?_⟩
    · intro i element _ _ before
      simp only [Window.whole] at before
      omega
    · intro i element found _ after
      simp only [Window.whole] at after ⊢
      omega
    · intro element found
      simp [Window.whole] at found
  obtain ⟨valid, done⟩ := boundLoop_spec small sorted down fuel _ start (by simp only [Window.whole]; omega)
  generalize boundLoop slots bytes goesRight fuel _ = final at valid done ⊢
  have ans := valid.ans
  have left := valid.left
  refine ⟨done, by omega, by omega, ?_, valid.found⟩
  intro i element found alive before
  apply valid.passed i element found alive
  by_contra beyond
  have := valid.first i element found alive (by omega)
  omega

theorem bound_spec (small : slots.length ≤ 32767) (sorted : SortedSlots slots bytes)
    (down : ∀ low high, low ≤ high → goesRight high = true → goesRight low = true) :
    IsBound slots bytes goesRight (bound slots bytes goesRight) := by
  have count : i16 (slots.length : Int) = slots.length := i16_eq (by omega) (by omega)
  simp only [bound, count]
  exact (boundLoop_whole small sorted down (Nat.le_refl _)).2.2

theorem IsBound.beyond {index : Nat} (isBound : IsBound slots bytes goesRight index)
    (sorted : SortedSlots slots bytes)
    (down : ∀ low high, low ≤ high → goesRight high = true → goesRight low = true)
    {i : Nat} {element : SlotArrayElement} (found : slots[i]? = some element)
    (alive : element.isDeleted = false)
    (from' : index ≤ i) : goesRight (getKeyFromSlotElement bytes element) = false := by
  have inside := (List.getElem?_eq_some_iff.mp found).1
  have first := List.getElem?_eq_getElem (show index < slots.length by omega)
  obtain ⟨live, stops⟩ := isBound.found _ first
  rcases Nat.eq_or_lt_of_le from' with rfl | after
  · exact (isBound.found element found).2
  · have ordered := List.pairwise_iff_getElem.mp sorted index i (by omega) inside after
    rw [(List.getElem?_eq_some_iff.mp found).2] at ordered
    by_contra passes
    have := down _ _ (ordered live alive) (by simpa using passes)
    simp [stops] at this

theorem upperBound_spec {page : LeafPage} (small : page.slotArray.length ≤ 32767)
    (sorted : SortedSlots page.slotArray page.bytes) (x : Nat) :
    IsBound page.slotArray page.bytes (fun key => key ≤ x) (page.upperBound x) :=
  bound_spec small sorted fun low high le passes => by
    simp only [decide_eq_true_eq] at passes ⊢
    omega

theorem lowerBound_spec {page : LeafPage} (small : page.slotArray.length ≤ 32767)
    (sorted : SortedSlots page.slotArray page.bytes) (x : Nat) :
    IsBound page.slotArray page.bytes (fun key => key < x) (page.lowerBound x) :=
  bound_spec small sorted fun low high le passes => by
    simp only [decide_eq_true_eq] at passes ⊢
    omega

end Datashil.LeafPage
