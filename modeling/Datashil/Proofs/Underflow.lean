import Datashil.Proofs.TreeOrder
import Datashil.Proofs.TreeDelete

/-! Which pages a deletion leaves with too few bytes, and what it reports of them. -/

namespace Datashil
open Library LeafPage

namespace Tree
variable {h : Nat} {tree : Tree h} {key : Nat}

/-- The bytes a deletion leaves in a page, if these are too few. -/
def lowSize (key : Nat) : {h : Nat} → Tree h → Option Nat
  | 0, page =>
    let used := (LeafPage.deleteTuple page key).1.used
    if used ≤ LEAF_UNDERFLOW_THRESHOLD then some used else none
  | _ + 1, node =>
    let (left, child, right) := (Branch.row node).focus key
    match lowSize key child with
    | none => none
    | some size =>
      let keys := (Branch.row node).rest.length
      let used := (keys - 1) * SIZEOF_KEY + (keys - 1 + 1) * SIZEOF_PAGE_ID
      if siblingLends left right size = false ∧ keys ≠ 0 ∧ used ≤ INTERNAL_UNDERFLOW_THRESHOLD then
        some used else none

/-- On the way of a key, the only child of a page without keys is left with too few bytes. There is
no sibling to repair it from, and `Delete` then reports that nothing has been deleted. -/
def Orphaned (key : Nat) : {h : Nat} → Tree h → Prop
  | 0, _ => False
  | _ + 1, node =>
    let (_, child, _) := (Branch.row node).focus key
    ((Branch.row node).rest = [] ∧ (lowSize key child).isSome) ∨ Orphaned key child

theorem report_lowSize (key : Nat) (tree : Tree h) :
    (report key tree).underflown = (lowSize key tree).isSome ∧
    ∀ size, lowSize key tree = some size → (report key tree).currentSize = size := by
  induction h with
  | zero =>
    simp only [report, lowSize]
    split
    next low => exact ⟨by simp [low], fun size same => Option.some.inj same⟩
    next enough => exact ⟨by simpa using enough, fun size same => by cases same⟩
  | succ h ih =>
    obtain ⟨id, row⟩ := tree
    generalize found : row.focus key = place
    obtain ⟨left, child, right⟩ := place
    obtain ⟨low, size⟩ := ih child
    simp only [report, lowSize, found]
    cases sizes : lowSize key child with
    | none => simp [low, sizes, BTree.settled]
    | some used =>
      have same := size used sizes
      simp only [low, sizes, Option.isSome_some, if_true, same, repairReport]
      by_cases lends : siblingLends left right used = true
      · simp [lends, BTree.settled]
      by_cases alone : row.rest.length = 0
      · simp [lends, alone, BTree.settled]
      simp only [lends, alone, Bool.false_eq_true, ite_false, ne_eq, not_false_eq_true, true_and]
      split
      next little => exact ⟨by simpa using little, fun size same => Option.some.inj same⟩
      next much => exact ⟨by simpa using much, fun size same => by cases same⟩

def loses (key : Nat) : {h : Nat} → Tree h → Bool
  | 0, page => (LeafPage.deleteTuple page key).2
  | _ + 1, node => loses key ((Branch.row node).focus key).2.1

theorem Located.loses {page : LeafPage} (nodup : tree.pids.Nodup) (member : page ∈ tree.leaves)
    (located : Located key page.pageId tree) :
    tree.loses key = (page.deleteTuple key).2 := by
  induction h with
  | zero =>
    obtain rfl : page = tree := by simpa using member
    rfl
  | succ h ih =>
    obtain ⟨id, row⟩ := tree
    obtain ⟨left, child, right, rfl, bracket, located⟩ := located_node.mp located
    rw [Tree.loses, Row.focus_close child bracket]
    obtain ⟨other, inside, found⟩ := mem_leaves_node.mp member
    have apart := focused nodup
    have here := located.mem_pids
    rcases Row.mem_children_close.mp inside with ⟨next, among⟩ | rfl | ⟨next, among⟩
    · exact absurd here ((apart.left other next among).2 _ (pageId_mem_pids found)).2
    · exact ih apart.nodup found located
    · exact absurd here ((apart.right next other among).2 _ (pageId_mem_pids found)).2

/-- A deletion is reported as such if its leaf loses a tuple and no page is orphaned. -/
theorem report_success (tree : Tree h) : (report key tree).success = true ↔ tree.loses key = true ∧
    ¬ tree.Orphaned key := by
  induction h with
  | zero => simp [report, loses, Orphaned]
  | succ h ih =>
    obtain ⟨id, row⟩ := tree
    generalize found : row.focus key = place
    obtain ⟨left, child, right⟩ := place
    have low := (report_lowSize key child).1
    have below := ih child
    simp only [report, loses, Orphaned, found, not_or, not_and]
    by_cases underflown : (report key child).underflown = true
    · rw [low] at underflown
      simp only [low, underflown, if_true, repairReport, not_true_eq_false, imp_false]
      by_cases alone : row.rest = []
      · have none : siblingLends left right (report key child).currentSize = false := by
          obtain ⟨head, rest⟩ := row
          subst alone
          cases found
          rfl
        simp [none, alone, BTree.settled]
      · have several : row.rest.length ≠ 0 := by simpa using alone
        simp only [several, ite_false, alone, not_false_eq_true, true_and]
        split
        · simpa [BTree.settled] using below
        · exact below
    · rw [low] at underflown
      simp [low, underflown, BTree.settled, below]

end Tree

end Datashil
