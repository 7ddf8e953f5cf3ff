import Datashil.Proofs.TreeDelete

/-! How full a deletion leaves the pages of a tree. -/

namespace Datashil
open Library LeafPage

namespace Tree
variable {h : Nat} {tree tree' : Tree h} {cut : Nat → Nat → Prop} {key low high : Nat}
    {fix : Option (Nat × Nat)}

/-- A page right after it lost a child: one key short at most. -/
def Depleted : {h : Nat} → Tree h → Prop
  | 0, _ => True
  | _ + 1, node => 126 ≤ (Branch.row node).rest.length ∧ ∀ child ∈ (Branch.row node).children, Full child

theorem Full.rooted (full : Full tree) : Rooted tree := by
  cases h with
  | zero => trivial
  | succ h =>
    obtain ⟨id, row⟩ := tree
    obtain ⟨count, children⟩ := full_node.mp full
    exact rooted_node.mpr (.inr ⟨List.length_pos_iff.mp (by omega), children⟩)

theorem Rotated.full {left right left' right' : Tree h} {middle : Nat}
    (rotated : Rotated cut left key right left' middle right')
    (leftFull : Depleted left ∧ Depleted right) : Full left' ∧ Full right' := by
  cases h with
  | zero =>
    refine ⟨full_leaf.mpr rotated.nonempty, full_leaf.mpr fun none => ?_⟩
    have boundary := rotated.boundary
    rw [none] at boundary
    simp at boundary
  | succ h =>
    obtain ⟨-, -, joined, leftCount, rightCount⟩ := rotated
    have all : ∀ child ∈ ((Branch.row left').join middle (Branch.row right')).children, Full child := by
      rw [← joined]
      intro child member
      rcases Row.mem_children_join.mp member with member | member
      · exact leftFull.1.2 child member
      · exact leftFull.2.2 child member
    exact ⟨⟨leftCount, fun child member => all child (Row.mem_children_join.mpr (.inl member))⟩,
      ⟨rightCount, fun child member => all child (Row.mem_children_join.mpr (.inr member))⟩⟩

theorem Merged.full {left right merged : Tree h} (joined : Merged left key right merged)
    (depleted : Depleted left ∧ Depleted right)
    (full : Full left ∨ Full right) : Full merged := by
  cases h with
  | zero =>
    refine full_leaf.mpr fun none => ?_
    have tuples := LeafMerged.tuples joined
    rw [none] at tuples
    obtain ⟨leftNone, rightNone⟩ := List.append_eq_nil_iff.mp tuples.nil_eq.symm
    rcases full with full | full
    · exact full leftNone
    · exact full rightNone
  | succ h =>
    subst joined
    have leftCount := depleted.1.1
    refine full_node.mpr ⟨by simp only [Row.length_rest_join]; omega, ?_⟩
    intro child member
    rcases Row.mem_children_join.mp member with member | member
    · exact depleted.1.2 child member
    · exact depleted.2.2 child member

theorem Full.depleted (full : Full tree) : Depleted tree := by
  cases h with
  | zero => trivial
  | succ h => exact ⟨Nat.le_trans (by decide) full.1, full.2⟩

theorem Repaired.count {size id : Nat} {left : List (Tree h × Nat)} {child : Tree h}
    {right : List (Nat × Tree h)}
    {node' : Branch (Tree h)} (repaired : Repaired cut size id left child right node' fix) :
    node'.row.rest.length =
      if siblingLends left right size then left.length + right.length
        else left.length + right.length - 1 := by
  cases repaired with
  | @lendLeft sibling _ _ _ key _ left _ lends rotated =>
    have agreed : siblingLends ((sibling, key) :: left) right size = true := by simp [siblingLends, lends]
    simp only [agreed, ite_true, Row.length_rest_close, List.length_cons]
    omega
  | @lendRight sibling _ _ _ key _ _ right lends rotated =>
    have agreed : siblingLends left ((key, sibling) :: right) size = true := by simp [siblingLends, lends]
    simp only [agreed, ite_true, Row.length_rest_close, List.length_cons]
  | mergeLeft refused joined pages erased =>
    simp only [refused, Bool.false_eq_true, ite_false, erased.length, List.length_cons]
    omega
  | mergeRight refused joined pages erased =>
    simp only [refused, Bool.false_eq_true, ite_false, erased.length, List.length_cons, List.length_nil]
    omega
  | orphan => simp [siblingLends]

private theorem Repaired.full {size id : Nat} {left : List (Tree h × Nat)} {child : Tree h}
    {right : List (Nat × Tree h)}
    {node' : Branch (Tree h)} (repaired : Repaired cut size id left child right node' fix)
    (lefts : ∀ sibling key, (sibling, key) ∈ left → Full sibling) (depleted : Depleted child)
    (rights : ∀ key sibling, (key, sibling) ∈ right → Full sibling)
    (several : left.length + right.length ≠ 0) :
    ∀ other ∈ node'.row.children, Full other := by
  have around : ∀ {left' : List (Tree h × Nat)} {child' : Tree h} {right' : List (Nat × Tree h)},
      (∀ entry ∈ left', Full entry.1) → Full child' → (∀ entry ∈ right', Full entry.2) →
        ∀ other ∈ (Row.close left' child' right').children, Full other := by
    intro left' child' right' lefts here rights other member
    rcases Row.mem_children_close.mp member with ⟨key, inside⟩ | rfl | ⟨key, inside⟩
    · exact lefts _ inside
    · exact here
    · exact rights _ inside
  cases repaired with
  | @lendLeft sibling _ sibling' child' key middle left _ lends rotated =>
    obtain ⟨first, second⟩ := rotated.full ⟨(lefts sibling key (.head _)).depleted, depleted⟩
    refine around (fun entry member => lefts entry.1 entry.2 (.tail _ member)) first ?_
    intro entry member
    rcases List.mem_cons.mp member with rfl | member
    · exact second
    · exact rights entry.1 entry.2 member
  | @lendRight sibling _ sibling' child' key middle _ right lends rotated =>
    obtain ⟨first, second⟩ := rotated.full ⟨depleted, (rights key sibling (.head _)).depleted⟩
    refine around (fun entry member => lefts entry.1 entry.2 member) first ?_
    intro entry member
    rcases List.mem_cons.mp member with rfl | member
    · exact second
    · exact rights entry.1 entry.2 (.tail _ member)
  | @mergeLeft sibling _ merged key left _ _ refused joined pages erased =>
    have siblingFull := lefts sibling key (.head _)
    rw [erased.1]
    exact around (fun entry member => lefts entry.1 entry.2 (.tail _ member))
      (joined.full ⟨siblingFull.depleted, depleted⟩ (.inl siblingFull)) fun entry member =>
        rights entry.1 entry.2 member
  | @mergeRight sibling _ merged key right _ refused joined pages erased =>
    have siblingFull := rights key sibling (.head _)
    rw [erased.1]
    exact around (by simp) (joined.full ⟨depleted, siblingFull.depleted⟩ (.inr siblingFull))
      fun entry member => rights entry.1 entry.2 (.tail _ member)
  | orphan => exact absurd rfl several

theorem nonempty_of_used {page : LeafPage} (valid : page.Valid)
    (enough : LEAF_UNDERFLOW_THRESHOLD < page.used) :
    page.tuples ≠ [] := by
  intro none
  have bytes := valid.liveBytes_eq
  have few := valid.slots_le
  have threshold : LEAF_UNDERFLOW_THRESHOLD = 1626 := rfl
  rw [none] at bytes
  simp only [List.map_nil, List.sum_nil] at bytes
  simp only [used, SLOT_SIZE] at enough
  omega

/-- Unless it reports an underflow, a deletion leaves enough behind. -/
theorem Deleted.full (deleted : Deleted cut key tree tree' fix)
    (valid : ∀ leaf ∈ tree.leaves, leaf.Valid) (full : Full tree) :
    Depleted tree' ∧ ((report key tree).underflown = false → Full tree') := by
  induction h generalizing fix with
  | zero =>
    obtain ⟨rfl, -⟩ := deleted_leaf.mp deleted
    refine ⟨trivial, fun enough => ?_⟩
    have enough : LEAF_UNDERFLOW_THRESHOLD < (LeafPage.deleteTuple tree key).1.used := by
      simpa [report] using enough
    exact full_leaf.mpr (nonempty_of_used (tuples_deleteTuple (valid tree (by simp)) key).1 enough)
  | succ h ih =>
    obtain ⟨id, row⟩ := tree
    obtain ⟨left, child, right, child', below, here, rfl, found, deletedChild, -, repaired⟩ :=
      deleted_node.mp deleted
    obtain ⟨count, children⟩ := full_node.mp full
    obtain ⟨lefts, childFull, rights⟩ := siblings_of_children children
    obtain ⟨depleted, stays⟩ := ih deletedChild
      (fun leaf member => valid leaf (mem_leaves_node.mpr ⟨child, by simp, member⟩)) childFull
    simp only [Row.length_rest_close] at count
    rw [report_node found]
    split at repaired
    next underflown =>
      have all := repaired.full lefts depleted rights (by omega)
      have left_over := repaired.count
      simp only [underflown, ite_true, repairReport]
      split at left_over
      next lends => exact ⟨⟨by omega, all⟩, fun _ => full_node.mpr ⟨by omega, all⟩⟩
      next refuses =>
        refine ⟨⟨by omega, all⟩, fun enough => full_node.mpr ⟨?_, all⟩⟩
        simp only [refuses, Bool.false_eq_true, ite_false,
          show ¬ left.length + right.length = 0 by omega] at enough
        have enough := of_decide_eq_false enough
        simp only [INTERNAL_UNDERFLOW_THRESHOLD, PAGE_SIZE, INTERNAL_PAGE_HEADER_SIZE, SIZEOF_KEY,
          SIZEOF_PAGE_ID] at enough
        omega
    next calm =>
      obtain ⟨rfl, -⟩ := repaired
      have whole : Full (h := h + 1) ⟨id, Row.close left child' right⟩ := by
        refine full_node.mpr ⟨by simpa using count, ?_⟩
        intro other member
        rcases Row.mem_children_close.mp member with ⟨next, inside⟩ | rfl | ⟨next, inside⟩
        · exact lefts other next inside
        · exact stays (by simpa using calm)
        · exact rights next other inside
      exact ⟨whole.depleted, fun _ => whole⟩

theorem Deleted.rooted (deleted : Deleted cut key tree tree' fix)
    (valid : ∀ leaf ∈ tree.leaves, leaf.Valid) (rooted : Rooted tree) :
    Rooted tree' := by
  induction h generalizing fix with
  | zero => trivial
  | succ h ih =>
    obtain ⟨id, row⟩ := tree
    obtain ⟨left, child, right, child', below, here, rfl, found, deletedChild, -, repaired⟩ :=
      deleted_node.mp deleted
    have childValid : ∀ leaf ∈ child.leaves, leaf.Valid :=
      fun leaf member => valid leaf (mem_leaves_node.mpr ⟨child, by simp, member⟩)
    rcases rooted_node.mp rooted with ⟨single, headRooted⟩ | ⟨several, children⟩
    · obtain ⟨rfl, rfl⟩ : left = [] ∧ right = [] := by
        have := congrArg List.length single
        simpa using this
      have below := ih deletedChild childValid headRooted
      split at repaired
      · cases repaired
        exact rooted_node.mpr (.inl ⟨rfl, below⟩)
      · obtain ⟨rfl, -⟩ := repaired
        exact rooted_node.mpr (.inl ⟨rfl, below⟩)
    · obtain ⟨lefts, childFull, rights⟩ := siblings_of_children children
      obtain ⟨depleted, stays⟩ := deletedChild.full childValid childFull
      split at repaired
      · have keys : left.length + right.length ≠ 0 := by
          rw [← Row.length_rest_close left child right]
          exact fun none => several (List.length_eq_zero_iff.mp none)
        have all := repaired.full lefts depleted rights keys
        by_cases single : tree'.row.rest = []
        · exact rooted_node.mpr (.inl ⟨single, (all _ (by simp [Row.children])).rooted⟩)
        · exact rooted_node.mpr (.inr ⟨single, all⟩)
      next calm =>
        obtain ⟨rfl, -⟩ := repaired
        refine rooted_node.mpr (.inr ⟨?_, ?_⟩)
        · intro none
          have := congrArg List.length none
          simp only [Row.length_rest_close, List.length_nil] at this
          exact several (List.length_eq_zero_iff.mp (by simpa using this))
        · intro other member
          rcases Row.mem_children_close.mp member with ⟨next, inside⟩ | rfl | ⟨next, inside⟩
          · exact lefts other next inside
          · exact stays (by simpa using calm)
          · exact rights next other inside

theorem report_internal (tree : Tree (h + 1)) : (report key tree).pageType = .internalPage := by
  obtain ⟨id, row⟩ := tree
  simp only [report]
  split
  · simp only [repairReport]
    split
    · rfl
    · split <;> rfl
  · rfl

theorem Deleted.underflown {tree tree' : Tree (h + 1)} (deleted : Deleted cut key tree tree' fix)
    (underflown : (report key tree).underflown = true) :
    (report key tree).currentSize = 16 * (Branch.row tree').rest.length + 8 ∧
      (Branch.row tree').rest.length ≤ 126 := by
  obtain ⟨id, row⟩ := tree
  obtain ⟨left, child, right, child', below, here, rfl, found, deletedChild, -, repaired⟩ :=
    deleted_node.mp deleted
  rw [report_node found] at underflown ⊢
  split at repaired
  next low =>
    have left_over := repaired.count
    simp only [low, ite_true, repairReport] at underflown ⊢
    split at underflown
    next => simp [BTree.settled] at underflown
    next refuses =>
      split at underflown
      next => simp [BTree.settled] at underflown
      next several =>
        have small := of_decide_eq_true underflown
        simp only [refuses, several, Bool.false_eq_true, ite_false] at left_over ⊢
        simp only [INTERNAL_UNDERFLOW_THRESHOLD, PAGE_SIZE, INTERNAL_PAGE_HEADER_SIZE, SIZEOF_KEY,
          SIZEOF_PAGE_ID] at small ⊢
        omega
  next calm => simp [calm, BTree.settled] at underflown

end Tree
end Datashil
