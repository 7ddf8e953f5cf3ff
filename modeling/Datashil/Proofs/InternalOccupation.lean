import Datashil.Proofs.Waves

/-! How many keys internal pages have: enough, unless the last two internal children of
the root are merged, which leaves the root without a key. -/

namespace Datashil
open Library LeafPage BTree

namespace Tree
variable {h : Nat} {tree : Tree h}

/-- Between 127 and 254 keys in every internal page: above the underflow threshold, and within the
slots. -/
def Filled : {h : Nat} → Tree h → Prop
  | 0, _ => True
  | _ + 1, node => 127 ≤ (Branch.row node).rest.length ∧ (Branch.row node).rest.length ≤ 254 ∧
      ∀ child ∈ (Branch.row node).children, Filled child

/-- The same below a root with at least one key. -/
def Occupied : {h : Nat} → Tree h → Prop
  | 0, _ => True
  | _ + 1, node => 1 ≤ (Branch.row node).rest.length ∧ (Branch.row node).rest.length ≤ 254 ∧
      ∀ child ∈ (Branch.row node).children, Filled child

theorem Holds.few {pages : Nat → Page} {id : Nat} {row : Row Nat (Tree h)}
    (holds : Holds (h := h + 1) pages ⟨id, row⟩) :
    row.rest.length ≤ 254 := by
  obtain ⟨⟨page, -, -, shown⟩, -⟩ := holds_node.mp holds
  have fits : row.rest.length ≤ NUM_KEY_SLOTS := by simpa using shown.fits
  exact fits

theorem Holds.filled {pages : Nat → Page} (holds : Holds pages tree) (full : Full tree) : Filled tree := by
  induction h with
  | zero => trivial
  | succ h ih =>
    obtain ⟨id, row⟩ := tree
    obtain ⟨count, children⟩ := full_node.mp full
    exact ⟨count, holds.few, fun child member => ih (holds.2 child member) (children child member)⟩

theorem Holds.occupied {pages : Nat → Page} (holds : Holds pages tree) (rooted : Rooted tree)
    (keyed : Keyed tree) : Occupied tree := by
  cases h with
  | zero => trivial
  | succ h =>
    obtain ⟨id, row⟩ := tree
    rcases rooted_node.mp rooted with ⟨none, -⟩ | ⟨several, children⟩
    · exact absurd none keyed
    · refine ⟨List.length_pos_iff.mpr several, holds.few, fun child member => ?_⟩
      exact (holds.2 child member).filled (children child member)

theorem Keyed.nonempty {tree : Tree (h + 1)} (keyed : Keyed tree) (rooted : Rooted tree) :
    tree.keys ≠ [] := by
  obtain ⟨id, row⟩ := tree
  intro none
  exact keyed (rooted.thin (by rw [none]; exact Nat.zero_le _)).1

end Tree

/-- Deleting a key merges the last two internal children of the root. -/
def BTree.MergesLastChildren (st : BTree) (key : Nat) : Prop :=
  ∃ (h : Nat) (tree : Tree h), st.rootPageId = tree.pid ∧ tree.Holds st.pages ∧ tree.LosesLastKey key

/-- Every history of insertions of absent keys, and of deletions that never merge the last
two internal children of the root. -/
abbrev KeepsRoot (st : BTree) (operation : Operation) : Prop :=
  ∀ key, operation = .delete key → ¬ st.MergesLastChildren key

/-- The root loses its last key with one of the deletions, or it has a key in the end. -/
theorem reaches_keyed {Allowed : BTree → Operation → Prop} {operations : List Operation} {st : BTree}
    (reaches : Reaches Allowed operations st)
    (fresh : Fresh .empty operations) :
    (∃ earlier st₀ key, Reaches Allowed earlier st₀ ∧ Fresh .empty earlier ∧ Allowed st₀ (.delete key) ∧
      ∃ (h : Nat) (tree : Tree h),
      Keeps st₀ tree (Contents.empty.applyAll earlier) ∧ tree.LosesLastKey key) ∨
    ∃ (h : Nat) (tree : Tree h), Keeps st tree (Contents.empty.applyAll operations) ∧ tree.Keyed := by
  induction reaches with
  | start constructed =>
    have stores := (construct_spec (· < ·) (by decide)).elim constructed
    exact .inr ⟨0, _, ⟨[], stores, by simp, by simp [Contents.applyAll, Contents.empty]⟩, trivial⟩
  | @step operations operation outcome st st' reaches allows performed ih =>
    obtain ⟨before, here⟩ := fresh_append.mp fresh
    rcases ih before with lost | ⟨h, tree, keeps, keyed⟩
    · exact .inl lost
    have history : Contents.empty.applyAll (operations ++ [operation]) =
        (Contents.empty.applyAll operations).apply operation := by
      simp only [Contents.applyAll, List.foldl_append, List.foldl_cons, List.foldl_nil]
    rw [history]
    by_cases loses : ∃ key, operation = .delete key ∧ tree.LosesLastKey key
    · obtain ⟨key, rfl, loses⟩ := loses
      exact .inl ⟨operations, st, key, reaches, before, allows, h, tree, keeps, loses⟩
    refine .inr ?_
    suffices step : Ran (perform operation) st fun _ st' => ∃ (h' : Nat) (tree' : Tree h'),
        Keeps st' tree' ((Contents.empty.applyAll operations).apply operation) ∧ tree'.Keyed from
          step.elim performed
    cases operation with
    | insert buffer key =>
      refine ran_bind.mpr ((insert_keeps keeps here.1.1 here.1.2).imp fun result st' inserted =>
        ran_pure.mpr ?_)
      obtain ⟨-, h', tree', inserted, keeps'⟩ := inserted
      exact ⟨h', tree', keeps', inserted.keyed keyed⟩
    | delete key =>
      refine ran_bind.mpr ((delete_keeps keeps key).imp fun result st' deleted => ran_pure.mpr ?_)
      obtain ⟨-, h', tree', reduced, keeps'⟩ := deleted
      exact ⟨h', tree', keeps', reduced.keyed keyed fun lost => loses ⟨key, rfl, lost⟩⟩
    | search key =>
      refine ran_bind.mpr ((search_keeps keeps key).imp fun stream st' searched => ran_pure.mpr ?_)
      exact ⟨h, tree, searched.2.1, keyed⟩

/-- As long as no deletion merges the last two internal children of the root, an internal
root has a key, every other internal page has between 127 and 254 keys, and a tree without
keys is a single leaf. -/
theorem internal_pages_occupied {operations : List Operation} {st : BTree}
    (reaches : Reaches KeepsRoot operations st)
    (fresh : Fresh .empty operations) : ∃ (h : Nat) (tree : Tree h), st.rootPageId = tree.pid ∧
      tree.Holds st.pages ∧ tree.Occupied ∧
      ((∀ key, Contents.empty.applyAll operations key = none) → h = 0) := by
  rcases reaches_keyed reaches fresh with ⟨_, st₀, key, -, -, allows, h, tree, keeps, loses⟩ | ⟨h, tree,
    keeps, keyed⟩
  · exact absurd ⟨h, tree, keeps.represents.root, keeps.represents.holds, loses⟩ (allows key rfl)
  have represents := keeps.represents
  refine ⟨h, tree, represents.root, represents.holds, represents.holds.occupied represents.rooted keyed,
    fun none => ?_⟩
  match h, tree with
  | 0, _ => rfl
  | h + 1, tree =>
    obtain ⟨key, member⟩ := List.exists_mem_of_ne_nil _ (keyed.nonempty represents.rooted)
    have present := keeps.mem_keys.mp member
    rw [none key] at present
    cases present

def Low (st : BTree) (_ : Operation) : Prop :=
  match st.pages st.rootPageId with
  | .internal page => (match st.pages (page.getValueAtIndex 0) with | .internal _ => false | _ => true) = true
  | _ => True

instance (st : BTree) (operation : Operation) : Decidable (Low st operation) := by
  rw [Low]
  split <;> infer_instance

theorem Low.keepsRoot {st : BTree} {operation : Operation} (low : Low st operation) :
    KeepsRoot st operation := by
  rintro key - ⟨h, tree, root, holds, loses⟩
  match h, tree with
  | 0, _ | 1, _ => exact loses.elim
  | h + 2, ⟨id, row⟩ =>
    obtain ⟨⟨page, stored, -, shown⟩, children⟩ := Tree.holds_node.mp holds
    obtain ⟨head, rest⟩ := row
    obtain ⟨child, found⟩ : ∃ child, st.pages head.pid = .internal child := by
      obtain ⟨_, row⟩ := head
      obtain ⟨⟨child, found, -⟩, -⟩ := Tree.holds_node.mp (children _ (.head _))
      exact ⟨child, found⟩
    have first : page.getValueAtIndex 0 = head.pid :=
      shown.getValueAtIndex _ (by simp [Row.children, Row.map])
    have here : st.pages st.rootPageId = .internal page := root ▸ stored
    simp only [Low, here, first, found] at low
    cases low

theorem internal_pages_occupied_varied : ∃ st, Reaches KeepsRoot ([] ++ varied) st ∧
    ∃ (h : Nat) (tree : Tree h), st.rootPageId = tree.pid ∧
    tree.Holds st.pages ∧ tree.Occupied ∧
      ((∀ key, Contents.empty.applyAll ([] ++ varied) key = none) → h = 0) := by
  have checked : Ran construct bootstrapped fun _ st => Checked Low (fun _ => True) varied st := by
    decide +kernel
  obtain ⟨_, st₀, constructed, checked⟩ := checked
  obtain ⟨st, reaches, -⟩ := Reaches.checked (fun _ _ low => low.keepsRoot) (.start constructed) checked
  exact ⟨st, reaches, internal_pages_occupied reaches fresh_varied⟩

/-- A tall tree with a single tuple has a root without keys. -/
theorem Keeps.thin_root {st : BTree} {h : Nat} {tree : Tree h} {contents : Contents}
    (keeps : Keeps st tree contents) (high : 2 ≤ h)
    (few : tree.keys.length ≤ 1) : ∃ page, st.pages st.rootPageId = .internal page ∧ page.numKeys = 0 := by
  have represents := keeps.represents
  obtain ⟨h, rfl⟩ : ∃ less, h = less + 1 := ⟨h - 1, by omega⟩
  obtain ⟨id, row⟩ := tree
  obtain ⟨⟨page, stored, -, shown⟩, -⟩ := Tree.holds_node.mp represents.holds
  have none := (represents.rooted.thin few).1
  refine ⟨page, ?_, ?_⟩
  · rw [represents.root]
    exact stored
  · rw [shown.numKeys, Row.length_rest_map, none, List.length_nil]

/-- After 39781 insertions in order and 39780 deletions in order, the root is an internal page
without keys. -/
theorem root_without_keys : Ran (run (drained 39780)) bootstrapped fun _ st =>
    ∃ page, st.pages st.rootPageId = .internal page ∧ page.numKeys = 0 := by
  refine (run_drained (by decide) (Nat.le_refl _)).imp ?_
  rintro - st ⟨h, tree, high, keeps, few⟩
  exact keeps.thin_root high few

end Datashil
