import Datashil.History
import Datashil.Proofs.FindPageToWrite
import Datashil.Proofs.Represents

/-! Reading the leaves of a tree off its pages. -/

namespace Datashil
open Library LeafPage BTree

def BTree.tuples (st : BTree) : List (List Byte) := st.leaves.flatMap LeafPage.tuples

namespace Tree
variable {h : Nat} {tree : Tree h} {pages : Nat → Page} {fuel key target : Nat}

theorem Holds.leavesFrom (holds : tree.Holds pages) (enough : h < fuel) :
    leavesFrom pages fuel tree.pid = tree.leaves := by
  induction h generalizing fuel with
  | zero =>
    obtain ⟨fuel, rfl⟩ := Nat.exists_eq_add_of_lt enough
    simp only [BTree.leavesFrom, pid_leaf, holds_leaf.mp holds, leaves_leaf]
  | succ h ih =>
    obtain ⟨fuel, rfl⟩ : ∃ rest, fuel = rest + 1 := ⟨fuel - 1, by omega⟩
    obtain ⟨id, row⟩ := tree
    obtain ⟨⟨page, stored, -, shown⟩, below⟩ := holds_node.mp holds
    have children : page.children = row.children.map Tree.pid := by simpa using shown.children_eq
    have each : ∀ child ∈ row.children, BTree.leavesFrom pages fuel child.pid = child.leaves :=
      fun child member =>
      ih (below child member) (by omega)
    simp only [BTree.leavesFrom, pid_node, stored, children, List.flatMap_map, leaves_node]
    rw [List.flatMap_congr each]
    obtain ⟨head, rest⟩ := row
    simp [Row.trail, List.flatMap_map]

theorem Holds.leafFrom (holds : tree.Holds pages) (enough : h < fuel) (located : Located key target tree) :
    ∃ leaf ∈ tree.leaves, leaf.pageId = target ∧ leafFrom pages key fuel tree.pid = some leaf := by
  induction h generalizing fuel with
  | zero =>
    obtain ⟨fuel, rfl⟩ := Nat.exists_eq_add_of_lt enough
    refine ⟨tree, by simp, located, ?_⟩
    simp only [BTree.leafFrom, pid_leaf, holds_leaf.mp holds]
  | succ h ih =>
    obtain ⟨fuel, rfl⟩ : ∃ rest, fuel = rest + 1 := ⟨fuel - 1, by omega⟩
    obtain ⟨id, row⟩ := tree
    obtain ⟨left, child, right, rfl, place, located⟩ := located_node.mp located
    obtain ⟨⟨page, stored, -, shown⟩, -, below, -⟩ := holds_focus.mp holds
    have enough : h < fuel := by omega
    obtain ⟨leaf, member, named, found⟩ := ih below enough located
    refine ⟨leaf, mem_leaves_node.mpr ⟨child, by simp, member⟩, named, ?_⟩
    simp only [BTree.leafFrom, pid_node, stored, shown.getChildPageId (found_pids place), found]

end Tree

variable {cut : Nat → Nat → Prop} {st : BTree} {h : Nat} {tree : Tree h} {key : Nat}

theorem Represents.leaves (represents : Represents cut st tree) : st.leaves = tree.leaves := by
  rw [BTree.leaves, represents.root, represents.holds.leavesFrom represents.fuel]

theorem Represents.leafOf (represents : Represents cut st tree) {leaf : LeafPage}
    (member : leaf ∈ tree.leaves)
    (located : Tree.Located key leaf.pageId tree) : st.leafOf key = some leaf := by
  obtain ⟨other, among, named, found⟩ := represents.holds.leafFrom represents.fuel located
  obtain rfl := Tree.leaf_unique represents.nodup among member named
  rw [BTree.leafOf, represents.root, found]

end Datashil
