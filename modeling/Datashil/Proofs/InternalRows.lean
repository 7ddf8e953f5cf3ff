import Datashil.InternalPage
import Datashil.Library.Row
import Mathlib.Data.Nat.Basic

/-! What the functions of internal pages do to a page seen as a row of child ids
with separator keys between them. -/

namespace Datashil.InternalPage
open Library Memory

/-- A page shows a row if its words spell out the keys and the children. A row holds together what
the page keeps in two arrays, so what its functions do can be said without indices. -/
structure Shows (page : InternalPage) (row : Row Nat Nat) : Prop where
  fits : row.rest.length ≤ NUM_KEY_SLOTS
  numKeys : page.numKeys = row.rest.length
  keys : page.words.read KEYS_START row.rest.length = row.keys
  children : page.words.read CHILDREN_START (row.rest.length + 1) = row.children

variable {page : InternalPage} {row : Row Nat Nat}

theorem Shows.keys_eq (shows_ : page.Shows row) : page.keys = row.keys := by
  rw [InternalPage.keys, shows_.numKeys, shows_.keys]

theorem Shows.children_eq (shows_ : page.Shows row) : page.children = row.children := by
  rw [InternalPage.children, shows_.numKeys, shows_.children]

theorem Shows.unique {other : Row Nat Nat} (first : page.Shows row) (second : page.Shows other) :
    row = other :=
  Row.ext_keys_children (first.keys_eq.symm.trans second.keys_eq)
    (first.children_eq.symm.trans second.children_eq)

theorem exists_shows (page : InternalPage) (fits : page.numKeys ≤ NUM_KEY_SLOTS) :
    ∃ row, page.Shows row ∧ row.children = page.words.read CHILDREN_START (page.numKeys + 1) := by
  refine ⟨⟨page.words CHILDREN_START,
    (page.words.read KEYS_START page.numKeys).zip (page.words.read (CHILDREN_START + 1) page.numKeys)⟩,
    ?_⟩
  have length : ((page.words.read KEYS_START page.numKeys).zip
      (page.words.read (CHILDREN_START + 1) page.numKeys)).length = page.numKeys := by
    rw [List.length_zip, length_read, length_read, Nat.min_self]
  have children : page.words.read CHILDREN_START (page.numKeys + 1) = page.words CHILDREN_START ::
      ((page.words.read KEYS_START page.numKeys).zip
        (page.words.read (CHILDREN_START + 1) page.numKeys)).map Prod.snd := by
    rw [List.map_snd_zip (by rw [length_read, length_read]), Nat.add_comm, read_add, read_one]
    rfl
  refine ⟨⟨Nat.le_trans (Nat.le_of_eq length) fits, length.symm, ?_, ?_⟩, children.symm⟩
  · rw [length, Row.keys_mk, List.map_fst_zip (by rw [length_read, length_read])]
  · rw [length, children, Row.children_mk]

section Focus
variable {left : List (Nat × Nat)} {child : Nat} {right : List (Nat × Nat)}

def leftKeys (left : List (Nat × Nat)) : List Nat := (left.map Prod.snd).reverse
def leftChildren (left : List (Nat × Nat)) : List Nat := (left.map Prod.fst).reverse
def rightKeys (right : List (Nat × Nat)) : List Nat := right.map Prod.fst
def rightChildren (right : List (Nat × Nat)) : List Nat := right.map Prod.snd

@[simp] theorem length_leftKeys : (leftKeys left).length = left.length := by simp [leftKeys]
@[simp] theorem length_leftChildren : (leftChildren left).length = left.length := by simp [leftChildren]
@[simp] theorem length_rightKeys : (rightKeys right).length = right.length := by simp [rightKeys]
@[simp] theorem length_rightChildren : (rightChildren right).length = right.length := by simp [rightChildren]

@[simp] theorem leftKeys_cons {sibling key : Nat} :
    leftKeys ((sibling, key) :: left) = leftKeys left ++ [key] := by
  simp [leftKeys]

@[simp] theorem leftChildren_cons {sibling key : Nat} :
    leftChildren ((sibling, key) :: left) = leftChildren left ++ [sibling] := by simp [leftChildren]

@[simp] theorem rightKeys_cons {key sibling : Nat} :
    rightKeys ((key, sibling) :: right) = key :: rightKeys right :=
  rfl

@[simp] theorem rightChildren_cons {key sibling : Nat} :
    rightChildren ((key, sibling) :: right) = sibling :: rightChildren right := rfl

theorem keys_focus : (Row.close left child right).keys = leftKeys left ++ rightKeys right := Row.keys_close ..
theorem children_focus : (Row.close left child right).children = leftChildren left ++ child ::
    rightChildren right :=
  Row.children_close ..

theorem mem_leftChildren {pid : Nat} : pid ∈ leftChildren left ↔ ∃ key, (pid, key) ∈ left := by
  simp [leftChildren]

theorem shows_focus_iff : page.Shows (Row.close left child right) ↔
    left.length + right.length ≤ NUM_KEY_SLOTS ∧ page.numKeys = left.length + right.length ∧
      page.words.read KEYS_START (left.length + right.length) = leftKeys left ++ rightKeys right ∧
      page.words.read CHILDREN_START (left.length + (right.length + 1)) =
        leftChildren left ++ child :: rightChildren right := by
  constructor
  · rintro ⟨fits, numKeys, keys, children⟩
    simp only [Row.length_rest_close] at fits numKeys keys children
    rw [keys_focus] at keys
    rw [children_focus] at children
    exact ⟨fits, numKeys, keys, children⟩
  · rintro ⟨fits, numKeys, keys, children⟩
    refine ⟨?_, ?_, ?_, ?_⟩
    all_goals simp only [Row.length_rest_close]
    · exact fits
    · exact numKeys
    · rw [keys_focus, keys]
    · rw [children_focus, Nat.add_assoc, children]

/-! ### Searching -/

theorem upperBound_eq {words : Memory Nat} (x : Nat) (keys : List Nat)
    (spelled : words.read 0 keys.length = keys) :
    upperBound words 0 keys.length x = Row.upperIndex keys x := by
  refine partitionPoint_congr _ _ _ fun i _ inside => ?_
  have found := getElem?_read words 0 keys.length i (by omega)
  rw [spelled, Nat.zero_add] at found
  rw [found, Option.any_some]

theorem lowerBound_eq {words : Memory Nat} {start : Nat} (x : Nat) (first second : List Nat)
    (spelled : words.read start (first.length + second.length) = first ++ second)
    (low : ∀ key ∈ first, key < x) (high : ∀ key ∈ second, x ≤ key) :
    lowerBound words start (first.length + second.length) x = start + first.length := by
  have at_ : ∀ i, i < first.length + second.length → (first ++ second)[i]? = some (words (start + i)) := by
    intro i inside
    rw [← spelled, getElem?_read _ _ _ _ inside]
  refine partitionPoint_eq _ _ _ _ (Nat.le_refl _) (by omega) (by omega) ?_ ?_
  · intro i from' upTo
    obtain ⟨offset, rfl⟩ := Nat.exists_eq_add_of_le from'
    have found := at_ offset (by omega)
    rw [List.getElem?_append_left (by omega)] at found
    simpa using low _ (List.mem_of_getElem? found)
  · intro i from' upTo
    obtain ⟨offset, rfl⟩ := Nat.exists_eq_add_of_le (show start ≤ i by omega)
    have found := at_ offset (by omega)
    rw [List.getElem?_append_right (by omega)] at found
    simpa using high _ (List.mem_of_getElem? found)

theorem Shows.upperBound_eq {key : Nat} (shows_ : page.Shows (Row.close left child right))
    (found : Row.Found left key right) :
    upperBound page.words KEYS_START page.numKeys key = KEYS_START + left.length := by
  obtain ⟨-, numKeys, keys, -⟩ := shows_focus_iff.mp shows_
  have length : (leftKeys left ++ rightKeys right).length = left.length + right.length := by simp
  rw [← length] at keys
  have spec := InternalPage.upperBound_eq key (leftKeys left ++ rightKeys right) keys
  rw [length, ← numKeys] at spec
  exact spec.trans (found.trans (Nat.zero_add _).symm)

theorem Shows.getChildPageId {key : Nat} (shows_ : page.Shows (Row.close left child right))
    (place : Row.Found left key right) :
    page.getChildPageId key = child := by
  obtain ⟨-, -, -, children⟩ := shows_focus_iff.mp shows_
  have found := shows_.upperBound_eq place
  have at_ := (read_append_iff (leftChildren left) (child :: rightChildren right)).mp
    (by simpa only [length_leftChildren, length_rightChildren, List.length_cons] using children)
  have here := (read_cons_iff.mp at_.2).1
  rw [length_leftChildren] at here
  rw [InternalPage.getChildPageId, found, getValueAtIndex, KEYS_START, Nat.zero_add, Nat.sub_zero]
  exact here

/-! ### Inserting and splitting -/

theorem Shows.insertKeyValue {boundaryKey : Nat} (newPid : Nat)
    (shows_ : page.Shows (Row.close left child right))
    (place : Row.Found left boundaryKey right) (available : page.checkSlotAvailable = true) :
    (page.insertKeyValue boundaryKey newPid).Shows
      (Row.close left child ((boundaryKey, newPid) :: right)) := by
  have found := shows_.upperBound_eq place
  obtain ⟨fits, numKeys, keys, children⟩ := shows_focus_iff.mp shows_
  have room : left.length + right.length < 254 := by
    simpa [checkSlotAvailable, NUM_KEY_SLOTS, numKeys] using available
  -- The keys first; the children behind them stay.
  have keys' := read_insert _ _ (leftKeys left) (rightKeys right) boundaryKey
    (by simpa only [length_leftKeys, length_rightKeys] using keys)
  rw [numKeys] at found
  simp only [length_leftKeys, length_rightKeys] at keys'
  simp only [InternalPage.insertKeyValue, numKeys, found, show KEYS_START + (left.length + right.length) -
    (KEYS_START + left.length) = right.length by omega, Nat.add_sub_cancel_left]
  generalize shifted : Memory.copy (Memory.copy page.words _ _ _ _) _ _ 0 1 = words at keys' ⊢
  have childrenKept : words.read CHILDREN_START (left.length + (right.length + 1)) =
      leftChildren left ++ child :: rightChildren right := by
    rw [← shifted, read_copy_apart _ _ _ _ _ _ _
      (by simp only [CHILDREN_START, KEYS_START, NUM_KEY_SLOTS]; omega),
      read_copy_apart _ _ _ _ _ _ _ (by simp only [CHILDREN_START, KEYS_START, NUM_KEY_SLOTS]; omega),
        children]
  have children' := read_insert words CHILDREN_START (leftChildren left ++ [child])
    (rightChildren right) newPid (by
      simpa only [List.length_append, List.length_singleton, length_leftChildren, length_rightChildren,
        List.append_assoc,
        List.singleton_append, Nat.add_assoc, Nat.add_comm 1] using childrenKept)
  simp only [List.length_append, List.length_singleton, length_leftChildren, length_rightChildren]
    at children'
  rw [ite_copy _ _ (by omega), show CHILDREN_START + (left.length + right.length) + 1 -
    (CHILDREN_START + (left.length + 1)) =
    right.length by omega]
  refine shows_focus_iff.mpr
    ⟨by simp only [NUM_KEY_SLOTS, List.length_cons]; omega, by simp only [List.length_cons]; omega, ?_,
    ?_⟩
  · rw [read_copy_apart _ _ _ _ _ _ _
      (by simp only [CHILDREN_START, KEYS_START, NUM_KEY_SLOTS, List.length_cons]; omega),
      read_copy_apart _ _ _ _ _ _ _
        (by simp only [CHILDREN_START, KEYS_START, NUM_KEY_SLOTS, List.length_cons]; omega)]
    simpa only [List.length_cons, rightKeys_cons] using keys'
  · simp only [List.length_cons]
    rw [show left.length + (right.length + 1 + 1) = left.length + 1 + (right.length + 1) by omega]
    simpa only [rightChildren_cons, List.append_assoc, List.singleton_append, Nat.add_assoc] using children'

theorem shows_makePage (row : Row Nat Nat) {words keysPtr childrenPtr : Memory Nat}
    {keysFrom childrenFrom pid : Nat}
    (fits : row.rest.length ≤ NUM_KEY_SLOTS) (keys : keysPtr.read keysFrom row.rest.length = row.keys)
    (children : childrenPtr.read childrenFrom (row.rest.length + 1) = row.children) :
    (makePage words keysPtr keysFrom childrenPtr childrenFrom row.rest.length pid).Shows row := by
  refine ⟨fits, rfl, ?_, ?_⟩
  · simp only [makePage]
    rw [read_copy_apart _ _ _ _ _ _ _ (by simp only [CHILDREN_START, KEYS_START] at fits ⊢; omega),
      read_copy_same, keys]
  · simp only [makePage]
    rw [read_copy_same, children]

/-- A split leaves `(n + 1) / 2` keys on the left and `n / 2` on the right. -/
theorem Shows.handleSplit {keyToInsert : Nat} (pageIdToInsert : Nat)
    (shows_ : page.Shows (Row.close left child right))
    (place : Row.Found left keyToInsert right) (newWords : Memory Nat) (newPageId : Nat) :
    ∃ low key high oldPage newPage,
      Row.close left child ((keyToInsert, pageIdToInsert) :: right) = low.join key high ∧
      low.rest.length = (left.length + right.length + 1) / 2 ∧
        high.rest.length = (left.length + right.length) / 2 ∧
      page.handleSplit newWords keyToInsert pageIdToInsert newPageId = (oldPage, newPage, key) ∧
      oldPage.Shows low ∧ newPage.Shows high ∧ oldPage.pageId = page.pageId ∧ newPage.pageId = newPageId := by
  obtain ⟨fits, numKeys, keys, children⟩ := shows_focus_iff.mp shows_
  obtain ⟨low, key, high, joined, lowCount, highCount⟩ :=
    Row.exists_join (Row.close left child ((keyToInsert, pageIdToInsert) :: right))
      ((left.length + right.length + 1) / 2)
      (by simp only [Row.length_rest_close, List.length_cons]; omega)
  simp only [Row.length_rest_close, List.length_cons] at highCount
  -- The temporary arrays with the new key and child in them.
  have tempKeys : Memory.read
    (Memory.copy (fun _ => 0) 0 page.words KEYS_START (left.length + right.length)) 0
      ((leftKeys left).length + (rightKeys right).length) = leftKeys left ++ rightKeys right := by
    rw [length_leftKeys, length_rightKeys, read_copy_same, keys]
  have tempPtrs : Memory.read
    (Memory.copy (fun _ => 0) 0 page.words CHILDREN_START (left.length + right.length + 1)) 0
      ((leftChildren left ++ [child]).length + (rightChildren right).length) =
      (leftChildren left ++ [child]) ++ rightChildren right := by
    rw [List.length_append, length_leftChildren, length_rightChildren, List.length_singleton,
      show left.length + 1 + right.length = left.length + (right.length + 1) by omega,
      show left.length + right.length + 1 = left.length + (right.length + 1) by
        omega, read_copy_same, children]
    simp
  have found := InternalPage.upperBound_eq keyToInsert _ (by rw [List.length_append]; exact tempKeys)
  rw [show Row.upperIndex (leftKeys left ++ rightKeys right) keyToInsert = left.length from place,
    List.length_append] at found
  have newKeys := read_insert _ _ _ _ keyToInsert tempKeys
  have newPtrs := read_insert _ _ _ _ pageIdToInsert tempPtrs
  simp only [length_leftKeys, length_rightKeys, Nat.zero_add] at found newKeys
  simp only [List.length_append, length_leftChildren, length_rightChildren, List.length_singleton,
    Nat.zero_add] at newPtrs
  have keysJoin : leftKeys left ++ keyToInsert :: rightKeys right = low.keys ++ key :: high.keys := by
    rw [← Row.keys_join, ← joined, keys_focus, rightKeys_cons]
  have childrenJoin : leftChildren left ++ [child] ++ pageIdToInsert :: rightChildren right =
      low.children ++ high.children := by
    rw [← Row.children_join, ← joined, children_focus, rightChildren_cons]
    simp
  rw [keysJoin] at newKeys
  rw [childrenJoin] at newPtrs
  simp only [InternalPage.handleSplit, numKeys, found]
  rw [ite_copy _ _ (by omega), ite_copy _ _ (by omega),
    show left.length + right.length - left.length = right.length by omega,
    show left.length + right.length + 1 - (left.length + 1) = right.length by omega]
  generalize Memory.copy (Memory.copy (Memory.copy (fun _ => 0) 0 page.words KEYS_START _) _ _ _ _) _ _
    0 1 = keysPtr at newKeys ⊢
  generalize Memory.copy (Memory.copy (Memory.copy (fun _ => 0) 0 page.words CHILDREN_START _) _ _ _ _)
    _ _ 0 1 = childrenPtr
    at newPtrs ⊢
  obtain ⟨lowKeys, restKeys⟩ := (read_append_iff _ (key :: high.keys)).mp (by
    rw [← newKeys, Row.length_keys, List.length_cons, Row.length_keys, lowCount, highCount]
    congr 1
    omega)
  obtain ⟨middle, highKeys⟩ := read_cons_iff.mp restKeys
  obtain ⟨lowChildren, highChildren⟩ := (read_append_iff _ _).mp (by
    rw [← newPtrs, Row.length_children, Row.length_children, lowCount, highCount]
    congr 1
    omega)
  rw [Row.length_keys, Nat.zero_add] at middle highKeys
  rw [Row.length_keys] at lowKeys highKeys
  rw [Row.length_children] at lowChildren highChildren
  rw [Row.length_children, Nat.zero_add] at highChildren
  simp only [NUM_KEY_SLOTS] at fits
  refine ⟨low, key, high, makePage page.words keysPtr 0 childrenPtr 0 low.rest.length page.pageId,
    makePage newWords keysPtr (low.rest.length + 1) childrenPtr
      (low.rest.length + 1) high.rest.length newPageId,
    joined, lowCount, by omega, ?_, ?_, ?_, rfl, rfl⟩
  · rw [← middle, lowCount, show high.rest.length = (left.length + right.length + 1 - 1) / 2 by omega]
  · exact shows_makePage _ (by simp only [NUM_KEY_SLOTS]; omega) lowKeys lowChildren
  · exact shows_makePage _ (by simp only [NUM_KEY_SLOTS]; omega) highKeys highChildren

end Focus
end Datashil.InternalPage
