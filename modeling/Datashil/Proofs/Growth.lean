import Datashil.Proofs.TreePages

/-! The height of the tree. It goes up only when a full root is split, so that it stays
logarithmic in the number of pages, even above pages that have lost all their keys. -/

namespace Datashil
open Library LeafPage BTree

namespace Tree
variable {h : Nat} {tree : Tree h}

theorem Full.le_leaves (full : tree.Full) : 128 ^ h ≤ tree.leaves.length := by
  induction h with
  | zero => exact Nat.le_refl _
  | succ h ih =>
    obtain ⟨id, row⟩ := tree
    obtain ⟨count, children⟩ := full_node.mp full
    calc 128 ^ (h + 1) = 128 * 128 ^ h := Nat.pow_succ'
      _ ≤ (row.rest.length + 1) * 128 ^ h := Nat.mul_le_mul_right _ (by omega)
      _ ≤ (leaves (h := h + 1) ⟨id, row⟩).length := by
        rw [leaves_node]
        exact Row.le_length_trail _ fun child member => ih (children child member)

theorem Rooted.le_leaves {tree : Tree (h + 1)} (rooted : tree.Rooted) (keyed : tree.Keyed) :
    2 * 128 ^ h ≤ tree.leaves.length := by
  obtain ⟨id, row⟩ := tree
  obtain ⟨some, children⟩ := (rooted_node.mp rooted).resolve_left fun none => keyed none.1
  have count : 1 ≤ row.rest.length := List.length_pos_iff.mpr some
  calc 2 * 128 ^ h ≤ (row.rest.length + 1) * 128 ^ h := Nat.mul_le_mul_right _ (by omega)
    _ ≤ (leaves (h := h + 1) ⟨id, row⟩).length := by
      rw [leaves_node]
      exact Row.le_length_trail _ fun child member => (children child member).le_leaves

end Tree

variable {cut : Nat → Nat → Prop} {st st' : BTree} {h h' : Nat} {tree : Tree h} {tree' : Tree h'}

theorem Represents.leaves_le (represents : Represents cut st tree) :
    tree.leaves.length ≤ st.newPageOffsetIndex := by
  have inRange : tree.leaves.map LeafPage.pageId ⊆ List.range st.newPageOffsetIndex := by
    intro pid member
    obtain ⟨leaf, inside, rfl⟩ := List.mem_map.mp member
    exact List.mem_range.mpr (represents.bounded _ (Tree.pageId_mem_pids inside)).2
  have count := (List.subperm_of_subset (Tree.leaves_nodup represents.nodup) inRange).length_le
  simpa using count

def Affords (st : BTree) (h : Nat) : Prop := h = 0 ∨ 2 * 128 ^ (h - 1) ≤ st.newPageOffsetIndex

theorem Represents.affords {tree : Tree (h + 1)} (represents : Represents cut st tree)
    (keyed : tree.Keyed) : Affords st (h + 1) :=
  .inr (Nat.le_trans (represents.rooted.le_leaves keyed) represents.leaves_le)

theorem Evolves.affords (evolves : Evolves st tree tree') (affords : Affords st h)
    (grows : st.newPageOffsetIndex ≤ st'.newPageOffsetIndex)
    (represents : Represents cut st' tree') : Affords st' h' := by
  rcases evolves.height with lower | ⟨rfl, keyed⟩
  · rcases affords with rfl | enough
    · exact .inl (Nat.le_zero.mp lower)
    · refine .inr (Nat.le_trans (Nat.mul_le_mul_left 2 ?_) (Nat.le_trans enough grows))
      exact Nat.pow_le_pow_right (by decide) (Nat.sub_le_sub_right lower 1)
  · exact represents.affords keyed

/-- Page ids of 64 bits are enough for eleven levels. -/
theorem Affords.le (affords : Affords st h) (addressable : Addressable st) : h ≤ 10 := by
  rcases affords with rfl | enough
  · exact Nat.zero_le _
  · by_contra more
    have high : 128 ^ 10 ≤ 128 ^ (h - 1) := Nat.pow_le_pow_right (by decide) (by omega)
    have bound : 2 * 128 ^ (h - 1) ≤ 18446744073709551616 := Nat.le_trans enough addressable
    omega

end Datashil
