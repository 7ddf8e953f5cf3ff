import Datashil.Proofs.Shape

/-! The chain of right links: it visits the leaves of the tree in order. -/

namespace Datashil
open Library LeafPage BTree

/-- The leaf pages on the chain of right links from a page on, until a link is 0. -/
def follow (pages : Nat → Page) : (steps pid : Nat) → List LeafPage
  | 0, _ => []
  | steps + 1, pid =>
    match pages pid with
    | .leaf page => page :: if page.rightPid = 0 then [] else follow pages steps page.rightPid
    | _ => []

namespace Tree
variable {h : Nat} {tree : Tree h} {low high : Nat}

def leftmost : {h : Nat} → Tree h → Nat
  | 0, page => LeafPage.pageId page
  | _ + 1, node => leftmost (Branch.row node).head

theorem firstPid_leaves (next : Nat) : firstPid tree.leaves next = tree.leftmost := by
  induction h generalizing next with
  | zero => rfl
  | succ h ih =>
    obtain ⟨id, ⟨head, rest⟩⟩ := tree
    rw [leaves_node, Row.trail_mk, firstPid_append, leftmost]
    exact ih _

theorem keys_node {id : Nat} {row : Row Nat (Tree h)} :
    keys (h := h + 1) ⟨id, row⟩ = row.trail keys fun _ => [] := by
  obtain ⟨head, rest⟩ := row
  simp only [keys, Tree.tuples, leaves_node, Row.trail_mk, Row.after, List.flatMap_append,
    List.map_append, List.map_flatMap,
    List.flatMap_assoc, List.nil_append]

theorem Within.sorted (within : Within (· ≤ ·) low tree high) (valid : ∀ leaf ∈ tree.leaves, leaf.Valid) :
    low ≤ high ∧ tree.keys.Pairwise (· ≤ ·) ∧ ∀ key ∈ tree.keys, low ≤ key ∧ key ≤ high := by
  induction h generalizing low high with
  | zero =>
    obtain ⟨bounds, keys⟩ := within_leaf.mp within
    have same : Tree.keys (h := 0) tree = (LeafPage.tuples tree).map keyOf := by simp [Tree.keys, Tree.tuples]
    rw [same]
    refine ⟨bounds, (valid tree (by simp)).keys_sorted, fun key member => ?_⟩
    obtain ⟨tuple, inside, rfl⟩ := List.mem_map.mp member
    exact keys tuple inside
  | succ h ih =>
    obtain ⟨id, row⟩ := tree
    rw [keys_node]
    -- Only children of the row are known to have sound leaves.
    have chain := Row.chain_imp (Q := fun l child h => Within (· ≤ ·) l child h ∧
      ∀ leaf ∈ Tree.leaves child, leaf.Valid) (within_node.mp within)
      fun l child h member inside =>
        ⟨inside, fun leaf found => valid leaf (mem_leaves_node.mpr ⟨child, member, found⟩)⟩
    exact Row.chain_items (r := (· ≤ ·)) (fun a b c => Nat.le_trans)
      (fun l child h inside => ih inside.1 inside.2) chain

end Tree

/-- A chain of leaves that are stored where their ids say is followed to its end. -/
theorem RightLinked.follow {pages : Nat → Page} {leaves : List LeafPage} (linked : RightLinked leaves 0)
    (stored : ∀ page ∈ leaves, pages page.pageId = .leaf page ∧ page.pageId ≠ 0) {steps next : Nat}
    (enough : leaves.length ≤ steps)
    (nonempty : leaves ≠ []) : follow pages steps (firstPid leaves next) = leaves := by
  induction leaves generalizing steps next with
  | nil => exact absurd rfl nonempty
  | cons page rest ih =>
    obtain ⟨steps, rfl⟩ : ∃ less, steps = less + 1 :=
      ⟨steps - 1, by simp only [List.length_cons] at enough; omega⟩
    obtain ⟨here, -⟩ := stored page (.head _)
    rw [firstPid_cons, Datashil.follow, here]
    cases rest with
    | nil => simp [linked.1, firstPid]
    | cons other rest =>
      have next : page.rightPid = other.pageId := linked.1
      have valid := (stored other (.tail _ (.head _))).2
      simp only [next, if_neg valid]
      rw [show other.pageId = firstPid (other :: rest) 0 from rfl,
        ih linked.2 (fun page member => stored page (.tail _ member)) (by simpa using enough) (by simp)]

/-- After any history that inserts only absent keys, the right links lead from the leftmost
leaf through all leaves of the tree, each once and in order, and through no other page;
their keys increase strictly and are the present ones. -/
theorem leaf_chain (operations : List Operation) (fresh : Fresh .empty operations) :
    Ran (run operations) bootstrapped fun _ st => ∃ (h : Nat) (tree : Tree h),
      st.rootPageId = tree.pid ∧ tree.Holds st.pages ∧
      (∀ steps, tree.leaves.length ≤ steps → follow st.pages steps tree.leftmost = tree.leaves) ∧
      (tree.leaves.map LeafPage.pageId).Nodup ∧ tree.keys.Pairwise (· < ·) ∧
      ∀ key, key ∈ tree.keys ↔ (Contents.empty.applyAll operations key).isSome := by
  refine (run_keeps operations fresh).imp ?_
  rintro - st ⟨h, tree, payloads, stores, lists⟩
  have represents := stores.represents
  refine ⟨h, tree, represents.root, represents.holds, ?_, Tree.leaves_nodup represents.nodup, ?_, ?_⟩
  · intro steps enough
    rw [← Tree.firstPid_leaves 0]
    refine (stores.linked Cut.strict).follow (fun page member => ⟨represents.holds.leaf member, ?_⟩)
      enough Tree.leaves_ne_nil
    have := (represents.bounded _ (Tree.pageId_mem_pids member)).1
    simp only [DATABASE_META_PAGE_ID] at this
    omega
  · have sorted := (((represents.within Cut.strict).weaken Cut.strict).sorted represents.valid).2.1
    have distinct : tree.keys.Nodup := stores.keys ▸ lists.distinct
    exact (sorted.and distinct).imp fun both => Nat.lt_of_le_of_ne both.1 both.2
  · intro key
    rw [stores.keys, List.mem_map, Option.isSome_iff_exists]
    simp only [lists.mem]

theorem leaf_chain_varied : Ran (run varied) bootstrapped fun _ st => ∃ (h : Nat) (tree : Tree h),
    st.rootPageId = tree.pid ∧
    tree.Holds st.pages ∧ (∀ steps, tree.leaves.length ≤ steps →
      follow st.pages steps tree.leftmost = tree.leaves) ∧
      (tree.leaves.map LeafPage.pageId).Nodup ∧ tree.keys.Pairwise (· < ·) ∧
      ∀ key, key ∈ tree.keys ↔ (Contents.empty.applyAll varied key).isSome :=
  leaf_chain varied fresh_varied

end Datashil
