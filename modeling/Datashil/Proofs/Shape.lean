import Datashil.Proofs.Histories

/-! The shape of the tree a store holds: how many keys its pages have, and in which
order. -/

namespace Datashil
open Library LeafPage BTree

namespace Tree
variable {h : Nat} {tree : Tree h}

/-- No internal page has more keys than there is room for, and its keys increase strictly. -/
def Ordered : {h : Nat} → Tree h → Prop
  | 0, _ => True
  | _ + 1, node => (Branch.row node).rest.length ≤ 254 ∧ (Branch.row node).keys.Pairwise (· < ·) ∧
      ∀ child ∈ (Branch.row node).children, Ordered child

theorem ordered_node {id : Nat} {row : Row Nat (Tree h)} : Ordered (h := h + 1) ⟨id, row⟩ ↔
    row.rest.length ≤ 254 ∧ row.keys.Pairwise (· < ·) ∧ ∀ child ∈ row.children, Ordered child := Iff.rfl

theorem Holds.ordered {pages : Nat → Page} {low high : Nat} (holds : Holds pages tree)
    (within : Within (· < ·) low tree high) :
    Ordered tree := by
  induction h generalizing low high with
  | zero => trivial
  | succ h ih =>
    obtain ⟨id, row⟩ := tree
    obtain ⟨⟨page, -, -, shown⟩, below⟩ := holds_node.mp holds
    have few : row.rest.length ≤ NUM_KEY_SLOTS := by simpa using shown.fits
    refine ordered_node.mpr ⟨few, ?_, ?_⟩
    · exact (within.row_keys Cut.strict).sublist
        ((List.sublist_append_left _ _).trans (List.sublist_cons_self _ _))
    · intro child member
      obtain ⟨low, high, -, -, inner⟩ := within.child Cut.strict member
      exact ih (below child member) inner

end Tree

/-- After any history that inserts only absent keys, the pages spell out a tree: leaves at
one depth, at most 254 separators in a page and one child more, separators that increase
strictly, every key between the separators around it and those of all ancestors, and no
page twice. -/
theorem tree_shape (operations : List Operation) (fresh : Fresh .empty operations) :
    Ran (run operations) bootstrapped fun _ st => ∃ (h : Nat) (tree : Tree h),
      st.rootPageId = tree.pid ∧ tree.Holds st.pages ∧
      tree.Ordered ∧ tree.Within (· < ·) 0 KEY_LIMIT ∧ tree.pids.Nodup := by
  refine (run_keeps operations fresh).imp ?_
  rintro - st ⟨h, tree, payloads, stores, -⟩
  have represents := stores.represents
  exact ⟨h, tree, represents.root, represents.holds,
    represents.holds.ordered (represents.within Cut.strict), represents.within Cut.strict,
    represents.nodup⟩

theorem tree_shape_varied : Ran (run varied) bootstrapped fun _ st => ∃ (h : Nat) (tree : Tree h),
    st.rootPageId = tree.pid ∧
    tree.Holds st.pages ∧ tree.Ordered ∧ tree.Within (· < ·) 0 KEY_LIMIT ∧ tree.pids.Nodup :=
  tree_shape varied fresh_varied

end Datashil
