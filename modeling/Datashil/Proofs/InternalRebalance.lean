import Datashil.Proofs.InternalRows
import Mathlib.Data.List.TakeWhile

/-! Siblings, rotations and merges of internal pages. The two pages involved are
neighbours `a, key, b` in the row of their parent. -/

namespace Datashil.InternalPage
open Library Memory

variable {page : InternalPage} {left right : List (Nat × Nat)} {child a key b : Nat}

/-! ### Siblings -/

theorem Shows.findChild (shows_ : page.Shows (Row.close left child right))
    (first : child ∉ leftChildren left) :
    page.findChild child = left.length := by
  rw [InternalPage.findChild, shows_.children_eq, children_focus, List.idxOf_append_of_notMem first,
    List.idxOf_cons_self,
    length_leftChildren, Nat.add_zero]

theorem Shows.getValueAtIndex {row : Row Nat Nat} (shows_ : page.Shows row) {index : Nat} (pid : Nat)
    (found : row.children[index]? = some pid) : page.getValueAtIndex index = pid := by
  have inside := (List.getElem?_eq_some_iff.mp found).1
  rw [Row.length_children] at inside
  rw [← shows_.children, getElem?_read _ _ _ _ inside] at found
  exact Option.some.inj found

theorem Shows.leftSibling (shows_ : page.Shows (Row.close left child right))
    (first : child ∉ leftChildren left)
    (missing : ErrType) :
    page.leftSibling child missing = match left with
      | [] => .error missing
      | (sibling, _) :: _ => .ok sibling := by
  have found := shows_.findChild first
  have numKeys := (shows_focus_iff.mp shows_).2.1
  simp only [InternalPage.leftSibling, found]
  rw [if_neg (by omega)]
  cases left with
  | nil => rfl
  | cons entry left =>
    obtain ⟨sibling, next⟩ := entry
    rw [if_neg (by simp), List.length_cons, Nat.add_sub_cancel, shows_.getValueAtIndex sibling]
    rw [children_focus, leftChildren_cons, List.append_assoc, List.getElem?_append_right (by simp)]
    simp

theorem Shows.rightSibling (shows_ : page.Shows (Row.close left child right))
    (first : child ∉ leftChildren left)
    (missing : ErrType) :
    page.rightSibling child missing = match right with
      | [] => .error missing
      | (_, sibling) :: _ => .ok sibling := by
  have found := shows_.findChild first
  have numKeys := (shows_focus_iff.mp shows_).2.1
  simp only [InternalPage.rightSibling, found]
  rw [if_neg (by omega)]
  cases right with
  | nil => rw [if_pos (by simpa using numKeys.symm)]
  | cons entry right =>
    obtain ⟨next, sibling⟩ := entry
    rw [if_neg (by simp only [List.length_cons] at numKeys; omega), shows_.getValueAtIndex sibling]
    rw [children_focus, rightChildren_cons, List.getElem?_append_right (by simp)]
    simp

/-! ### The key between two neighbours -/

theorem Shows.findKey (shows_ : page.Shows (Row.close left a ((key, b) :: right)))
    (first : a ∉ leftChildren left) (other : Nat) :
    page.findKeyFromChildren a other = KEYS_START + left.length := by
  rw [findKeyFromChildren, shows_.findChild first]

theorem Shows.keyAfter (shows_ : page.Shows (Row.close left a ((key, b) :: right))) :
    page.words (KEYS_START + left.length) = key := by
  obtain ⟨-, -, keys, -⟩ := shows_focus_iff.mp shows_
  rw [rightKeys_cons] at keys
  have cut := (read_append_iff (leftKeys left) (key :: rightKeys right)).mp
    (by simpa only [length_leftKeys, length_rightKeys, List.length_cons] using keys)
  simpa only [length_leftKeys] using (read_cons_iff.mp cut.2).1

theorem Shows.putKey (shows_ : page.Shows (Row.close left a ((key, b) :: right))) (newKey : Nat) :
    Shows { page with words := page.words.copy (KEYS_START + left.length) (fun _ => newKey) 0 1 }
      (Row.close left a ((newKey, b) :: right)) := by
  obtain ⟨fits, numKeys, keys, children⟩ := shows_focus_iff.mp shows_
  simp only [List.length_cons, NUM_KEY_SLOTS] at fits numKeys keys children
  rw [rightKeys_cons] at keys
  have put := read_put (leftKeys left) (rightKeys right) newKey
    (by simpa only [length_leftKeys, length_rightKeys] using keys)
  simp only [length_leftKeys, length_rightKeys] at put
  refine shows_focus_iff.mpr ⟨fits, numKeys, ?_, ?_⟩
  · simpa only [List.length_cons, rightKeys_cons] using put
  · simp only [List.length_cons]
    rw [read_copy_apart _ _ _ _ _ _ _ (by simp only [KEYS_START, CHILDREN_START, NUM_KEY_SLOTS]; omega),
      children]
    rfl

theorem Shows.setNewBoundaryKey (shows_ : page.Shows (Row.close left a ((key, b) :: right)))
    (first : a ∉ leftChildren left)
    (newBoundaryKey : Nat) :
    (page.setNewBoundaryKey newBoundaryKey a b).Shows (Row.close left a ((newBoundaryKey, b) :: right)) := by
  rw [InternalPage.setNewBoundaryKey, shows_.findKey first]
  exact shows_.putKey newBoundaryKey

/-! ### Rotations -/

theorem Shows.join {first second : Row Nat Nat} (shows_ : page.Shows (first.join key second)) :
    page.words.read KEYS_START first.rest.length = first.keys ∧
      page.words (KEYS_START + first.rest.length) = key ∧
      page.words.read (KEYS_START + first.rest.length + 1) second.rest.length = second.keys ∧
      page.words.read CHILDREN_START (first.rest.length + 1) = first.children ∧
      page.words.read (CHILDREN_START + first.rest.length + 1) (second.rest.length + 1) = second.children ∧
      page.numKeys = first.rest.length + second.rest.length + 1 := by
  obtain ⟨-, numKeys, keys, children⟩ := shows_
  rw [Row.length_rest_join] at numKeys keys children
  rw [Row.keys_join] at keys
  rw [Row.children_join] at children
  obtain ⟨low, rest⟩ := (read_append_iff first.keys (key :: second.keys)).mp
    (by simpa only [Row.length_keys, List.length_cons, Nat.add_assoc] using keys)
  obtain ⟨middle, high⟩ := read_cons_iff.mp rest
  obtain ⟨lowChildren, highChildren⟩ := (read_append_iff first.children second.children).mp
    (by simpa only [Row.length_children, Nat.add_assoc, Nat.add_comm 1, Nat.add_left_comm 1] using children)
  simp only [Row.length_keys, Row.length_children] at low middle high lowChildren highChildren
  exact ⟨low, middle, high, lowChildren, by simpa only [Nat.add_assoc] using highChildren, numKeys⟩

theorem shows_join {first second : Row Nat Nat}
    (fits : first.rest.length + second.rest.length + 1 ≤ NUM_KEY_SLOTS)
    (numKeys : page.numKeys = first.rest.length + second.rest.length + 1)
    (low : page.words.read KEYS_START first.rest.length = first.keys)
    (middle : page.words (KEYS_START + first.rest.length) = key)
    (high : page.words.read (KEYS_START + first.rest.length + 1) second.rest.length = second.keys)
    (lowChildren : page.words.read CHILDREN_START (first.rest.length + 1) = first.children)
    (highChildren : page.words.read (CHILDREN_START + first.rest.length + 1) (second.rest.length + 1) =
      second.children) :
    page.Shows (first.join key second) := by
  refine ⟨by simpa using fits, by simpa using numKeys, ?_, ?_⟩
  · rw [Row.keys_join, Row.length_rest_join, Nat.add_assoc, read_add, Nat.add_comm second.rest.length,
      read_add, low, read_one,
      middle, high]
    rfl
  · rw [Row.children_join, Row.length_rest_join, show first.rest.length + second.rest.length + 1 + 1 =
      (first.rest.length + 1) + (second.rest.length + 1) by
        omega, read_add, lowChildren, ← Nat.add_assoc, highChildren]

/-- The last children of the lender rotate through the parent to the borrower. -/
theorem Shows.handleLeftBorrow {borrower lender : InternalPage} {first second own : Row Nat Nat}
    {middle amount : Nat}
    (shows_ : page.Shows (Row.close left a ((key, b) :: right))) (fresh : a ∉ leftChildren left)
    (pid : lender.pageId = a)
    (lenderShows : lender.Shows (first.join middle second)) (borrowerShows : borrower.Shows own)
    (lent : second.rest.length + 1 = amount) (room : own.rest.length + amount ≤ NUM_KEY_SLOTS)
    (verdict : Bool) :
    ∃ page' borrower' lender', page.handleLeftBorrow borrower lender ⟨verdict, amount⟩ =
      (page', borrower', lender') ∧
      page'.Shows (Row.close left a ((middle, b) :: right)) ∧ borrower'.Shows (second.join key own) ∧
        lender'.Shows first ∧
      page'.pageId = page.pageId ∧ borrower'.pageId = borrower.pageId ∧ lender'.pageId = lender.pageId := by
  obtain ⟨lowKeys, middleKey, highKeys, lowChildren, highChildren, lenderCount⟩ := lenderShows.join
  have between := shows_.keyAfter
  have rotation := shows_.findKey fresh borrower.pageId
  have lenderFits := lenderShows.fits
  obtain ⟨-, ownCount, ownKeys, ownChildren⟩ := borrowerShows
  simp only [NUM_KEY_SLOTS, Row.length_rest_join] at room lenderFits
  subst lent
  simp only [InternalPage.handleLeftBorrow, pid, rotation, lenderCount, ownCount]
  rw [copy_one page.words, show KEYS_START + (first.rest.length + second.rest.length + 1) -
    (second.rest.length + 1) =
    KEYS_START + first.rest.length by omega, middleKey]
  refine ⟨_, _, _, rfl, shows_.putKey middle, ?_, ?_, rfl, rfl, rfl⟩
  · apply shows_join
    · simp only [NUM_KEY_SLOTS]; omega
    · simp only; omega
    · simp only
      rw [read_copy_inside _ _ _ _ _ _ _ (by omega) (by omega)]
      simpa only [Nat.sub_self, Nat.add_zero] using highKeys
    · simp only [copy]
      rw [if_neg (by omega), if_pos (by omega)]
      rw [show KEYS_START + left.length +
        (KEYS_START + second.rest.length - (KEYS_START + (second.rest.length + 1 - 1))) =
        KEYS_START + left.length by omega, between]
    · simp only
      rw [read_copy_apart _ _ _ _ _ _ _ (by omega), read_copy_apart _ _ _ _ _ _ _ (by omega),
        read_copy_apart _ _ _ _ _ _ _ (by simp only [KEYS_START, CHILDREN_START, NUM_KEY_SLOTS]; omega),
        read_copy_apart _ _ _ _ _ _ _ (by simp only [KEYS_START, CHILDREN_START, NUM_KEY_SLOTS]; omega),
        show KEYS_START + second.rest.length + 1 = KEYS_START + (second.rest.length + 1) by
          omega, read_copy_same, ownKeys]
    · simp only
      rw [read_copy_apart _ _ _ _ _ _ _ (by simp only [KEYS_START, CHILDREN_START, NUM_KEY_SLOTS]; omega),
        read_copy_apart _ _ _ _ _ _ _ (by simp only [KEYS_START, CHILDREN_START, NUM_KEY_SLOTS]; omega),
          read_copy_same,
        show CHILDREN_START + (first.rest.length + second.rest.length + 1 + 1) - (second.rest.length + 1) =
          CHILDREN_START + first.rest.length + 1 by omega, highChildren]
    · simp only
      rw [read_copy_apart _ _ _ _ _ _ _ (by simp only [KEYS_START, CHILDREN_START, NUM_KEY_SLOTS]; omega),
        read_copy_apart _ _ _ _ _ _ _ (by simp only [KEYS_START, CHILDREN_START, NUM_KEY_SLOTS]; omega),
        read_copy_apart _ _ _ _ _ _ _ (by omega),
        show CHILDREN_START + second.rest.length + 1 = CHILDREN_START + (second.rest.length + 1) by
          omega, read_copy_same,
        read_copy_apart _ _ _ _ _ _ _ (by simp only [KEYS_START, CHILDREN_START, NUM_KEY_SLOTS]; omega),
          ownChildren]
  · exact ⟨by simp only [NUM_KEY_SLOTS]; omega, by simp only; omega, lowKeys, lowChildren⟩

/-- The first children of the lender rotate through the parent to the borrower. -/
theorem Shows.handleRightBorrow {borrower lender : InternalPage} {first second own : Row Nat Nat}
    {middle amount : Nat}
    (shows_ : page.Shows (Row.close left a ((key, b) :: right))) (fresh : a ∉ leftChildren left)
    (pid : borrower.pageId = a)
    (lenderShows : lender.Shows (first.join middle second)) (borrowerShows : borrower.Shows own)
    (lent : first.rest.length + 1 = amount) (room : own.rest.length + amount ≤ NUM_KEY_SLOTS)
    (verdict : Bool) :
    ∃ page' borrower' lender', page.handleRightBorrow borrower lender ⟨verdict, amount⟩ =
      (page', borrower', lender') ∧
      page'.Shows (Row.close left a ((middle, b) :: right)) ∧ borrower'.Shows (own.join key first) ∧
        lender'.Shows second ∧
      page'.pageId = page.pageId ∧ borrower'.pageId = borrower.pageId ∧ lender'.pageId = lender.pageId := by
  obtain ⟨lowKeys, middleKey, highKeys, lowChildren, highChildren, lenderCount⟩ := lenderShows.join
  have between := shows_.keyAfter
  have rotation := shows_.findKey fresh lender.pageId
  have lenderFits := lenderShows.fits
  obtain ⟨-, ownCount, ownKeys, ownChildren⟩ := borrowerShows
  simp only [NUM_KEY_SLOTS, Row.length_rest_join] at room lenderFits
  subst lent
  simp only [InternalPage.handleRightBorrow, pid, rotation, lenderCount, ownCount]
  -- Only the lender's children have been shifted when its keys are read.
  generalize shifted : lender.words.copy CHILDREN_START lender.words _ _ = lenderWords
  have keysKept : ∀ start count, start + count ≤ CHILDREN_START →
      lenderWords.read start count = lender.words.read start count := by
    intro start count below
    rw [← shifted, read_copy_apart _ _ _ _ _ _ _ (by omega)]
  have childrenShifted : lenderWords.read CHILDREN_START (second.rest.length + 1) = second.children := by
    rw [← shifted, read_copy_inside _ _ _ _ _ _ _ (by omega) (by omega), Nat.sub_self, Nat.add_zero,
      ← highChildren,
      Nat.add_assoc]
  have middleKept : lenderWords (KEYS_START + first.rest.length) = middle := by
    have one := keysKept (KEYS_START + first.rest.length) 1
      (by simp only [KEYS_START, CHILDREN_START, NUM_KEY_SLOTS]; omega)
    rw [read_one, read_one, middleKey] at one
    exact List.singleton_inj.mp one
  rw [copy_one page.words, show KEYS_START + (first.rest.length + 1) - 1 = KEYS_START +
    first.rest.length by omega, middleKept]
  refine ⟨_, _, _, rfl, shows_.putKey middle, ?_, ?_, rfl, rfl, rfl⟩
  · apply shows_join
    · simp only [NUM_KEY_SLOTS]; omega
    · simp only; omega
    · simp only
      rw [read_copy_apart _ _ _ _ _ _ _ (by omega), read_copy_apart _ _ _ _ _ _ _ (by omega),
        read_copy_apart _ _ _ _ _ _ _ (by simp only [KEYS_START, CHILDREN_START, NUM_KEY_SLOTS]; omega),
          ownKeys]
    · simp only [copy]
      rw [if_neg (by omega), if_pos (by omega)]
      rw [show KEYS_START + left.length + (KEYS_START + own.rest.length - (KEYS_START + own.rest.length)) =
        KEYS_START + left.length by omega, between]
    · simp only
      rw [Nat.add_sub_cancel, read_copy_same,
        keysKept _ _ (by simp only [KEYS_START, CHILDREN_START, NUM_KEY_SLOTS]; omega),
        lowKeys]
    · simp only
      rw [read_copy_apart _ _ _ _ _ _ _ (by simp only [KEYS_START, CHILDREN_START, NUM_KEY_SLOTS]; omega),
        read_copy_apart _ _ _ _ _ _ _ (by simp only [KEYS_START, CHILDREN_START, NUM_KEY_SLOTS]; omega),
        read_copy_apart _ _ _ _ _ _ _ (by omega), ownChildren]
    · simp only
      rw [read_copy_apart _ _ _ _ _ _ _ (by simp only [KEYS_START, CHILDREN_START, NUM_KEY_SLOTS]; omega),
        read_copy_apart _ _ _ _ _ _ _ (by simp only [KEYS_START, CHILDREN_START, NUM_KEY_SLOTS]; omega),
        Nat.add_assoc CHILDREN_START, read_copy_same, lowChildren]
  · refine ⟨by simp only [NUM_KEY_SLOTS]; omega, by simp only; omega, ?_, ?_⟩
    · simp only
      rw [read_copy_inside _ _ _ _ _ _ _ (by omega) (by omega), Nat.sub_self, Nat.add_zero,
        keysKept _ _ (by simp only [KEYS_START, CHILDREN_START, NUM_KEY_SLOTS]; omega), ← Nat.add_assoc,
          highKeys]
    · simp only
      rw [read_copy_apart _ _ _ _ _ _ _
        (by simp only [KEYS_START, CHILDREN_START, NUM_KEY_SLOTS]; omega), childrenShifted]

/-! ### Merges -/

theorem Shows.mergePages {absorber absorbee : InternalPage} {first second : Row Nat Nat}
    (absorbs : absorber.Shows first)
    (absorbed : absorbee.Shows second)
    (room : first.rest.length + second.rest.length + 1 ≤ NUM_KEY_SLOTS) (key : Nat) :
    (InternalPage.mergePages key absorber absorbee).Shows (first.join key second) := by
  obtain ⟨-, firstCount, firstKeys, firstChildren⟩ := absorbs
  obtain ⟨-, secondCount, secondKeys, secondChildren⟩ := absorbed
  simp only [NUM_KEY_SLOTS] at room
  apply shows_join
  · exact room
  · simp only [InternalPage.mergePages, firstCount, secondCount]; omega
  · simp only [InternalPage.mergePages, firstCount, secondCount]
    rw [read_copy_apart _ _ _ _ _ _ _ (by simp only [KEYS_START, CHILDREN_START, NUM_KEY_SLOTS]; omega),
      read_copy_apart _ _ _ _ _ _ _ (by omega), read_copy_apart _ _ _ _ _ _ _ (by omega), firstKeys]
  · simp only [InternalPage.mergePages, firstCount, secondCount, copy]
    rw [if_neg (by simp only [KEYS_START, CHILDREN_START, NUM_KEY_SLOTS]; omega), if_neg (by omega),
      if_pos (by omega)]
  · simp only [InternalPage.mergePages, firstCount, secondCount]
    rw [read_copy_apart _ _ _ _ _ _ _ (by simp only [KEYS_START, CHILDREN_START, NUM_KEY_SLOTS]; omega),
      read_copy_same,
      secondKeys]
  · simp only [InternalPage.mergePages, firstCount, secondCount]
    rw [read_copy_apart _ _ _ _ _ _ _ (by omega),
      read_copy_apart _ _ _ _ _ _ _ (by simp only [KEYS_START, CHILDREN_START, NUM_KEY_SLOTS]; omega),
      read_copy_apart _ _ _ _ _ _ _ (by simp only [KEYS_START, CHILDREN_START, NUM_KEY_SLOTS]; omega),
        firstChildren]
  · simp only [InternalPage.mergePages, firstCount, secondCount]
    rw [Nat.add_assoc CHILDREN_START, read_copy_same, secondChildren]

private theorem shows_erase (words : Memory Nat) (shows_ : page.Shows (Row.close left a ((key, b) :: right)))
    (keys : words.read KEYS_START (left.length + right.length) = leftKeys left ++ rightKeys right)
    (children : words.read CHILDREN_START (left.length + 1 + right.length) = leftChildren left ++ a ::
      rightChildren right) :
    Shows { page with numKeys := page.numKeys - 1, words } (Row.close left a right) := by
  obtain ⟨fits, numKeys, -, -⟩ := shows_focus_iff.mp shows_
  simp only [List.length_cons, NUM_KEY_SLOTS] at fits numKeys
  refine shows_focus_iff.mpr ⟨by simp only [NUM_KEY_SLOTS]; omega, by simp only; omega, keys, ?_⟩
  rw [show left.length + (right.length + 1) = left.length + 1 + right.length by omega]
  exact children

theorem Shows.deletePartitionKeyAndChildPtr (shows_ : page.Shows (Row.close left a ((key, b) :: right)))
    (fresh : a ∉ leftChildren left) :
    ∃ page', page.deletePartitionKeyAndChildPtr a b = (page', key) ∧ page'.Shows (Row.close left a right) ∧
      page'.pageId = page.pageId := by
  have found := shows_.findChild fresh
  have between := shows_.keyAfter
  obtain ⟨fits, numKeys, keys, children⟩ := shows_focus_iff.mp shows_
  simp only [List.length_cons, NUM_KEY_SLOTS] at fits numKeys keys children
  rw [rightKeys_cons] at keys
  rw [rightChildren_cons] at children
  have children' := read_erase _ _ (leftChildren left ++ [a]) b (rightChildren right)
    (by simpa only [List.length_append, length_leftChildren, List.length_singleton,
      length_rightChildren, List.append_assoc,
      List.singleton_append, Nat.add_assoc, Nat.add_comm 1, Nat.add_left_comm 1] using children)
  simp only [List.length_append, length_leftChildren, List.length_singleton, length_rightChildren]
    at children'
  simp only [InternalPage.deletePartitionKeyAndChildPtr, found, numKeys]
  rw [show CHILDREN_START + (left.length + (right.length + 1) + 1) - (CHILDREN_START + left.length) -
    2 = right.length by omega,
    show left.length + (right.length + 1) - left.length - 1 = right.length by omega]
  rw [← Nat.add_assoc CHILDREN_START] at children'
  generalize shifted : page.words.copy _ _ _ _ = words at children' ⊢
  have keysKept : ∀ start count, start + count ≤ CHILDREN_START →
      words.read start count = page.words.read start count := by
    intro start count below
    rw [← shifted, read_copy_apart _ _ _ _ _ _ _ (by omega)]
  have keyKept : words (KEYS_START + left.length) = key := by
    have one := keysKept (KEYS_START + left.length) 1
      (by simp only [KEYS_START, CHILDREN_START, NUM_KEY_SLOTS]; omega)
    rw [read_one, read_one, between] at one
    exact List.singleton_inj.mp one
  have keys' := read_erase words KEYS_START (leftKeys left) key (rightKeys right) (by
      rw [keysKept _ _
        (by simp only [KEYS_START, CHILDREN_START, NUM_KEY_SLOTS, length_leftKeys, length_rightKeys]; omega)]
      simpa only [length_leftKeys, length_rightKeys] using keys)
  simp only [length_leftKeys, length_rightKeys] at keys'
  rw [keyKept]
  refine ⟨_, rfl, ?_, rfl⟩
  have erased := shows_erase
    (words.copy (KEYS_START + left.length) words (KEYS_START + left.length + 1) right.length)
    shows_ keys' (by
      rw [read_copy_apart _ _ _ _ _ _ _
        (by simp only [KEYS_START, CHILDREN_START, NUM_KEY_SLOTS]; omega), children',
        List.append_assoc, List.singleton_append])
  simpa only [numKeys] using erased

private theorem split_equal {keys : List Nat} {key : Nat} (sorted : keys.Pairwise (· ≤ ·))
    (below : ∀ other ∈ keys, other ≤ key) :
    ∃ first count, keys = first ++ List.replicate count key ∧ ∀ other ∈ first, other < key := by
  refine ⟨keys.takeWhile (· < key), (keys.dropWhile (· < key)).length, ?_,
    fun other member => by simpa using List.mem_takeWhile_imp member⟩
  have equal : keys.dropWhile (· < key) = List.replicate (keys.dropWhile (· < key)).length key := by
    rw [List.eq_replicate_iff]
    refine ⟨rfl, fun other member =>
      Nat.le_antisymm (below other (List.dropWhile_sublist _ |>.mem member)) ?_⟩
    have ordered := sorted.sublist (List.dropWhile_sublist (· < key))
    cases rest : keys.dropWhile (· < key) with
    | nil => simp [rest] at member
    | cons next rest' =>
      have least : key ≤ next := by
        simpa [rest] using List.dropWhile_get_zero_not (· < key) keys (by simp [rest])
      rw [rest] at ordered member
      rcases List.mem_cons.mp member with rfl | member
      · exact least
      · exact Nat.le_trans least ((List.pairwise_cons.mp ordered).1 other member)
  rw [← equal, List.takeWhile_append_dropWhile]

/-- A key is searched for and erased. Whichever it is, the child is the one between the right keys. -/
theorem Shows.erases (shows_ : page.Shows (Row.close left a ((key, b) :: right)))
    (fresh : a ∉ leftChildren left) (freshRight : b ∉ leftChildren left) (apart : a ≠ b) :
    ∃ words, page.deleteKeyAndChildPtr a b = { page with numKeys := left.length + right.length, words } ∧
      words.read KEYS_START (left.length + right.length) =
        (let found := lowerBound page.words KEYS_START page.numKeys key
        if KEYS_START + page.numKeys - found > 1 then
          page.words.copy found page.words (found + 1) (KEYS_START + page.numKeys - found - 1)
        else page.words).read KEYS_START (left.length + right.length) ∧
      words.read CHILDREN_START (left.length + 1 + right.length) = leftChildren left ++ a ::
        rightChildren right := by
  have between := shows_.keyAfter
  have located := shows_.findKey fresh b
  obtain ⟨fits, numKeys, -, children⟩ := shows_focus_iff.mp shows_
  simp only [List.length_cons, NUM_KEY_SLOTS] at fits numKeys children
  rw [rightChildren_cons] at children
  simp only [InternalPage.deleteKeyAndChildPtr, located, between, numKeys]
  generalize lowerBound _ _ _ _ = found
  generalize shifted : (if KEYS_START + (left.length + (right.length + 1)) - found > 1 then _
    else page.words) = words
  have childrenKept : words.read CHILDREN_START (left.length + (right.length + 1) + 1) =
      leftChildren left ++ a :: b :: rightChildren right := by
    rw [← shifted, ← children]
    split
    · rw [read_copy_apart _ _ _ _ _ _ _
        (by simp only [KEYS_START, CHILDREN_START, NUM_KEY_SLOTS] at *; omega)]
      rfl
    · rfl
  have position : InternalPage.findChild ⟨page.pageId, left.length + (right.length + 1), words⟩ b =
      left.length + 1 := by
    simp only [InternalPage.findChild, InternalPage.children, childrenKept]
    rw [List.idxOf_append_of_notMem freshRight, List.idxOf_cons_ne _ apart, List.idxOf_cons_self,
      length_leftChildren]
  rw [position, ite_copy _ _ (by omega), show CHILDREN_START + (left.length + (right.length + 1)) + 1 -
    (CHILDREN_START + (left.length + 1)) - 1 = right.length by omega]
  have children' := read_erase words CHILDREN_START (leftChildren left ++ [a]) b (rightChildren right)
    (by simpa only [List.length_append, length_leftChildren, List.length_singleton,
      length_rightChildren, List.append_assoc,
      List.singleton_append, Nat.add_assoc, Nat.add_comm 1, Nat.add_left_comm 1] using childrenKept)
  simp only [List.length_append, length_leftChildren, List.length_singleton, length_rightChildren]
    at children'
  refine ⟨_, rfl, ?_, ?_⟩
  · rw [read_copy_apart _ _ _ _ _ _ _ (by simp only [KEYS_START, CHILDREN_START, NUM_KEY_SLOTS]; omega)]
  · rw [children', List.append_assoc, List.singleton_append]

theorem Shows.exists_erased (shows_ : page.Shows (Row.close left a ((key, b) :: right)))
    (fresh : a ∉ leftChildren left) (freshRight : b ∉ leftChildren left) (apart : a ≠ b) :
    ∃ row, (page.deleteKeyAndChildPtr a b).Shows row ∧ row.children = (Row.close left a right).children := by
  obtain ⟨words, same, -, children⟩ := shows_.erases fresh freshRight apart
  have fits := (shows_focus_iff.mp shows_).1
  rw [List.length_cons, NUM_KEY_SLOTS] at fits
  rw [same, children_focus, ← children, Nat.add_right_comm]
  exact exists_shows _ (by simp only [NUM_KEY_SLOTS]; omega)

/-- Among sorted keys, the one that is found is like the one between the children. -/
theorem Shows.deleteKeyAndChildPtr (shows_ : page.Shows (Row.close left a ((key, b) :: right)))
    (fresh : a ∉ leftChildren left) (freshRight : b ∉ leftChildren left) (apart : a ≠ b)
    (sorted : (leftKeys left ++ key :: rightKeys right).Pairwise (· ≤ ·)) :
    (page.deleteKeyAndChildPtr a b).Shows (Row.close left a right) := by
  obtain ⟨words, same, keysKept, erasedChildren⟩ := shows_.erases fresh freshRight apart
  obtain ⟨fits, numKeys, keys, -⟩ := shows_focus_iff.mp shows_
  simp only [List.length_cons, NUM_KEY_SLOTS] at fits numKeys keys
  rw [rightKeys_cons] at keys
  rw [List.pairwise_append, List.pairwise_cons] at sorted
  obtain ⟨first, count, equal, less⟩ :=
    split_equal sorted.1 fun other member => sorted.2.2 other member key (.head _)
  have lengths : first.length + count = left.length := by
    have := congrArg List.length equal
    simpa using this.symm
  have spelled : leftKeys left ++ key :: rightKeys right = first ++ key ::
      (List.replicate count key ++ rightKeys right) := by
    rw [equal, List.append_assoc, ← List.cons_append, ← List.replicate_succ, List.replicate_succ',
      List.append_assoc]
    rfl
  rw [spelled] at keys
  have size : left.length + (right.length + 1) = first.length +
      (List.replicate count key ++ rightKeys right).length + 1 := by
    simp only [List.length_append, List.length_replicate, length_rightKeys]
    omega
  have found := lowerBound_eq key first
    (key :: (List.replicate count key ++ rightKeys right)) (by rw [size] at keys; exact keys) less (by
      intro other member
      rcases List.mem_cons.mp member with rfl | member
      · exact Nat.le_refl _
      · rcases List.mem_append.mp member with member | member
        · exact Nat.le_of_eq (List.eq_of_mem_replicate member).symm
        · exact sorted.2.1.1 other member)
  rw [List.length_cons, ← Nat.add_assoc, ← size] at found
  have keys' := read_erase _ _ first key (List.replicate count key ++ rightKeys right)
    (by rw [size] at keys; exact keys)
  rw [← List.append_assoc, ← equal] at keys'
  simp only [List.length_append, List.length_replicate, length_rightKeys, ← Nat.add_assoc, lengths] at keys'
  simp only [numKeys, found] at keysKept
  rw [ite_copy page.words page.words (by omega), show KEYS_START + (left.length + (right.length + 1)) -
    (KEYS_START + first.length) - 1 = count + right.length by omega, keys'] at keysKept
  have erased := shows_erase words shows_ keysKept erasedChildren
  rw [same]
  simpa only [numKeys, ← Nat.add_assoc, Nat.add_sub_cancel] using erased

/-! ### Lending -/

theorem canLend_spec {page : InternalPage} {keys : Nat} (few : keys ≤ 126) (enough : 127 ≤ page.numKeys)
    (fits : page.numKeys ≤ 254) :
    page.canLend (u16 ((INTERNAL_UNDERFLOW_THRESHOLD + 1) - (16 * keys + 8 : Nat))) =
      if page.numKeys + keys < 254 then ⟨false, 0⟩ else ⟨true, 127 - keys⟩ := by
  have threshold : INTERNAL_UNDERFLOW_THRESHOLD = 2026 := rfl
  have needed : u16 ((INTERNAL_UNDERFLOW_THRESHOLD + 1) - (16 * keys + 8 : Nat)) = 2019 - 16 * keys :=
    u16_eq (by omega) (by omega)
  have pairs : (2019 - 16 * keys) / 16 + (if (2019 - 16 * keys) % 16 = 0 then 0 else 1) = 127 - keys := by
    split <;> omega
  have used : page.checkUsedSpace = 16 * page.numKeys + 8 := by
    rw [checkUsedSpace, u16_eq (show _ = ((page.numKeys * SIZEOF_KEY : Nat) : Int) from rfl)
      (by simp only [SIZEOF_KEY]; omega),
      u16_eq (show _ = (((page.numKeys + 1) * SIZEOF_PAGE_ID : Nat) : Int) from rfl)
        (by simp only [SIZEOF_PAGE_ID]; omega)]
    exact u16_eq (by simp only [SIZEOF_KEY, SIZEOF_PAGE_ID]; omega) (by omega)
  have lent : u16 ((127 - keys : Nat) : Int) = 127 - keys := u16_eq rfl (by omega)
  rw [needed]
  change (if ((page.checkUsedSpace : Int) -
    (16 * ((2019 - 16 * keys) / 16 + if (2019 - 16 * keys) % 16 = 0 then 0 else 1) : Nat)) %
    18446744073709551616 ≤ (INTERNAL_UNDERFLOW_THRESHOLD : Int) then (⟨false, 0⟩ : BorrowQuery)
    else ⟨true, u16 ((2019 - 16 * keys) / 16 + if (2019 - 16 * keys) % 16 = 0 then 0 else 1 : Nat)⟩) = _
  rw [pairs, used, lent, threshold]
  by_cases low : page.numKeys + keys < 254
  · rw [if_pos low, if_pos (by omega)]
  · rw [if_neg low, if_neg (by omega)]

end Datashil.InternalPage
