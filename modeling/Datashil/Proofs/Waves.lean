import Datashil.Proofs.LeafChain

/-! A wave of insertions and the deletion of all it inserted: the tree grows high and
is emptied without shrinking, which leaves pages without keys above a single leaf. -/

namespace Datashil
open Library LeafPage BTree

def inserts (keys : List Nat) : List Operation := keys.map fun key => .insert (keyBuffer key) key

def deletes (keys : List Nat) : List Operation := keys.map .delete

section Contents
variable {contents : Contents} {keys : List Nat} {key : Nat}

theorem applyAll_inserts : contents.applyAll (inserts keys) key = if key ∈ keys then
    some (keyBuffer key) else contents key := by
  induction keys generalizing contents with
  | nil => simp [inserts, Contents.applyAll]
  | cons first keys ih =>
    have rest := @ih (contents.apply (.insert (keyBuffer first) first))
    simp only [inserts, Contents.applyAll, List.map_cons, List.foldl_cons] at rest ⊢
    rw [rest]
    by_cases inside : key ∈ keys
    · simp [inside]
    · by_cases here : key = first
      · simp [here, Contents.apply]
      · simp [inside, here, Contents.apply]

theorem applyAll_deletes : contents.applyAll (deletes keys) key = if key ∈ keys then none
    else contents key := by
  induction keys generalizing contents with
  | nil => simp [deletes, Contents.applyAll]
  | cons first keys ih =>
    have rest := @ih (contents.apply (.delete first))
    simp only [deletes, Contents.applyAll, List.map_cons, List.foldl_cons] at rest ⊢
    rw [rest]
    by_cases inside : key ∈ keys
    · simp [inside]
    · by_cases here : key = first
      · simp [here, Contents.apply]
      · simp [inside, here, Contents.apply]

theorem fresh_inserts (distinct : keys.Nodup) (small : ∀ key ∈ keys, key < KEY_LIMIT)
    (absent : ∀ key ∈ keys, contents key = none) :
    Fresh contents (inserts keys) := by
  induction keys generalizing contents with
  | nil => trivial
  | cons first keys ih =>
    obtain ⟨apart, distinct⟩ := List.nodup_cons.mp distinct
    refine ⟨⟨storable_keyBuffer (small first (.head _)), absent first (.head _)⟩, ?_⟩
    refine ih distinct (fun key member => small key (.tail _ member)) fun key member => ?_
    have different : key ≠ first := fun same => apart (same ▸ member)
    simpa [Contents.apply, different] using absent key (.tail _ member)

theorem fresh_deletes : Fresh contents (deletes keys) := by
  induction keys generalizing contents with
  | nil => trivial
  | cons first keys ih => exact ⟨trivial, ih⟩

end Contents

namespace Tree
variable {h : Nat} {tree : Tree h} {key : Nat}

theorem length_tuples_le {page : LeafPage} (valid : page.Valid) : page.tuples.length ≤ 156 := by
  refine Nat.le_trans ?_ valid.slots_le
  rw [LeafPage.tuples, tuplesOf, List.length_map]
  exact List.length_filter_le ..

/-- A page has at most 255 children, a leaf at most 156 tuples. -/
theorem Holds.capacity {pages : Nat → Page} (holds : tree.Holds pages)
    (valid : ∀ leaf ∈ tree.leaves, leaf.Valid) :
    tree.keys.length ≤ 156 * 255 ^ h := by
  induction h with
  | zero => simpa [Tree.keys, Tree.tuples] using length_tuples_le (valid tree (by simp))
  | succ h ih =>
    obtain ⟨id, row⟩ := tree
    obtain ⟨⟨page, -, -, shown⟩, below⟩ := holds_node.mp holds
    have few : row.rest.length ≤ NUM_KEY_SLOTS := by simpa using shown.fits
    have each : ∀ child ∈ row.children, child.keys.length ≤ 156 * 255 ^ h := fun child member =>
      ih (below child member) fun leaf found => valid leaf (mem_leaves_node.mpr ⟨child, member, found⟩)
    rw [keys_node]
    calc (row.trail Tree.keys fun _ => []).length ≤ (row.rest.length + 1) * (156 * 255 ^ h) := Row.length_trail_le _ each
      _ ≤ 255 * (156 * 255 ^ h) := Nat.mul_le_mul_right _ (by simp only [NUM_KEY_SLOTS] at few; omega)
      _ = 156 * 255 ^ (h + 1) := by rw [Nat.pow_succ]; omega

/-- One tuple, however many deleted slots are around it, is no use of a leaf. -/
theorem used_of_single {page : LeafPage} (valid : page.Valid) (few : page.tuples.length ≤ 1) :
    page.used ≤ LEAF_UNDERFLOW_THRESHOLD := by
  have slots := valid.slots_le
  have live : liveBytes page.slotArray ≤ 808 := by
    rw [valid.liveBytes_eq]
    match tuples : page.tuples with
    | [] => simp
    | [tuple] =>
      have short : tuple.length ≤ 808 := (valid.length_tuple (show tuple ∈ page.tuples by simp [tuples])).2
      simpa using short
    | first :: second :: rest =>
      rw [tuples] at few
      simp at few
  simp only [used, SLOT_SIZE, show LEAF_UNDERFLOW_THRESHOLD = 1626 from rfl]
  omega

/-- With a single tuple or none, every page has a single child: a full one would have more. -/
theorem Rooted.thin {id : Nat} {row : Row Nat (Tree h)} (rooted : Rooted (h := h + 1) ⟨id, row⟩)
    (few : (keys (h := h + 1) ⟨id, row⟩).length ≤ 1) :
    row.rest = [] ∧ Rooted row.head ∧ row.head.keys.length ≤ 1 := by
  have nonempty : ∀ {h : Nat} {tree : Tree h}, Full tree → 0 < tree.keys.length := by
    intro h tree full
    induction h with
    | zero => simpa [Tree.keys, Tree.tuples] using List.length_pos_iff.mpr (full_leaf.mp full)
    | succ h ih =>
      obtain ⟨id, ⟨head, rest⟩⟩ := tree
      rw [keys_node, Row.trail_mk, List.length_append]
      exact Nat.lt_of_lt_of_le (ih ((full_node.mp full).2 head (by simp))) (Nat.le_add_right _ _)
  obtain ⟨head, rest⟩ := row
  rw [keys_node, Row.trail_mk, List.length_append] at few
  rcases rooted_node.mp rooted with ⟨single, headRooted⟩ | ⟨several, children⟩
  · exact ⟨single, headRooted, by simp only at few ⊢; omega⟩
  · exfalso
    cases rest with
    | nil => exact several rfl
    | cons entry rest =>
      have first := nonempty (children head (by simp))
      have second := nonempty (children entry.2 (by simp))
      rw [Row.after_cons, List.length_append, List.length_append] at few
      omega

/-- Deleting from a high tree with a single tuple or none orphans its leaf. -/
theorem Rooted.orphaned (rooted : Rooted tree) (valid : ∀ leaf ∈ tree.leaves, leaf.Valid)
    (few : tree.keys.length ≤ 1) (high : h ≠ 0) :
    tree.Orphaned key := by
  induction h with
  | zero => exact absurd rfl high
  | succ h ih =>
    obtain ⟨id, ⟨head, rest⟩⟩ := tree
    obtain ⟨rfl, headRooted, headFew⟩ := rooted.thin few
    have headValid : ∀ leaf ∈ head.leaves, leaf.Valid :=
      fun leaf member => valid leaf (mem_leaves_node.mpr ⟨head, by simp, member⟩)
    cases h with
    | succ h => exact .inr (ih headRooted headValid headFew (by omega))
    | zero =>
      refine .inl ⟨rfl, ?_⟩
      have after := tuples_deleteTuple (headValid head (by simp)) key
      have little : (LeafPage.deleteTuple head key).1.tuples.length ≤ 1 := by
        have same : Tree.keys (h := 0) head = (LeafPage.tuples head).map keyOf := by
          simp [Tree.keys, Tree.tuples]
        rw [same, List.length_map] at headFew
        exact Nat.le_trans after.2.2.2.2.length_le headFew
      have low := used_of_single after.1 little
      show (lowSize (h := 0) key head).isSome = true
      simp [lowSize, low]

end Tree

/-! ### The wave -/

section Run
variable {st : BTree} {h : Nat} {tree : Tree h} {contents : Contents}

theorem ran_performAll_append {first second : List Operation} {post : BTree → Prop}
    (ran : Ran (performAll first) st fun _ st' => Ran (performAll second) st' fun _ st'' => post st'') :
    Ran (performAll (first ++ second)) st fun _ st' => post st' := by
  induction first generalizing st with
  | nil => simpa only [performAll, ran_pure, List.nil_append] using ran
  | cons operation first ih =>
    simp only [performAll, List.cons_append, ran_bind, ran_pure] at ran ⊢
    exact ran.imp fun _ _ rest => ih rest

theorem Keeps.mem_keys (keeps : Keeps st tree contents) {key : Nat} :
    key ∈ tree.keys ↔ (contents key).isSome := by
  obtain ⟨payloads, stores, lists⟩ := keeps
  rw [stores.keys, List.mem_map, Option.isSome_iff_exists]
  simp only [lists.mem]

theorem Keeps.keys_nodup (keeps : Keeps st tree contents) : tree.keys.Nodup := by
  obtain ⟨payloads, stores, lists⟩ := keeps
  exact stores.keys ▸ lists.distinct

theorem Keeps.represents (keeps : Keeps st tree contents) : Represents (· < ·) st tree := by
  obtain ⟨payloads, stores, -⟩ := keeps
  exact stores.represents

/-- A tree with two levels of internal pages or more never gets lower. -/
theorem deletes_high (keys : List Nat) (keeps : Keeps st tree contents) (high : 2 ≤ h) :
    Ran (performAll (deletes keys)) st fun _ st' => ∃ (h' : Nat) (tree' : Tree h'), 2 ≤ h' ∧
      Keeps st' tree' (contents.applyAll (deletes keys)) := by
  induction keys generalizing st h contents with
  | nil => exact ran_pure.mpr ⟨h, tree, high, keeps⟩
  | cons key keys ih =>
    simp only [deletes, List.map_cons, performAll, ran_bind, perform, ran_pure]
    refine (delete_keeps keeps key).imp ?_
    rintro result st₁ ⟨-, h₁, tree₁, reduced, keeps₁⟩
    obtain ⟨_, _, -, -, height⟩ := reduced.leaves
    exact ih keeps₁ (by omega)

/-- Keys up to some number, and all of them but the last deleted again. -/
def drained (last : Nat) : List Operation := inserts (List.range (last + 1)) ++ deletes (List.range last)

variable {last : Nat}

theorem fresh_drained (small : last < KEY_LIMIT) : Fresh .empty (drained last) := by
  refine fresh_append.mpr ⟨fresh_inserts List.nodup_range (fun key member => ?_) fun _ _ => rfl,
    fresh_deletes⟩
  have := List.mem_range.mp member
  omega

theorem applyAll_drained (last : Nat) : Contents.empty.applyAll (drained last) =
    (Contents.empty.applyAll (inserts (List.range (last + 1)))).applyAll (deletes (List.range last)) := by
  simp only [drained, Contents.applyAll, List.foldl_append]

theorem drained_isSome (last key : Nat) : (Contents.empty.applyAll (drained last) key).isSome ↔
    key = last := by
  rw [applyAll_drained, applyAll_deletes, applyAll_inserts]
  simp only [List.mem_range, Contents.empty]
  split
  · simp only [Option.isSome_none, Bool.false_eq_true, false_iff]
    omega
  · split
    · simp only [Option.isSome_some, true_iff]
      omega
    · simp only [Option.isSome_none, Bool.false_eq_true, false_iff]
      omega

private theorem Keeps.high (keeps : Keeps st tree contents) (keys : List Nat) (distinct : keys.Nodup)
    (inside : keys ⊆ tree.keys)
    (many : 39780 < keys.length) : 2 ≤ h := by
  have represents := keeps.represents
  have count := (List.subperm_of_subset distinct inside).length_le
  have capacity := represents.holds.capacity represents.valid
  by_contra low
  obtain rfl | rfl : h = 0 ∨ h = 1 := by omega
  all_goals omega

/-- After the wave, a single tuple is left below two levels of internal pages or more. -/
theorem run_drained (small : last < KEY_LIMIT) (many : 39780 ≤ last) :
    Ran (run (drained last)) bootstrapped fun _ st =>
    ∃ (h : Nat) (tree : Tree h), 2 ≤ h ∧ Keeps st tree (Contents.empty.applyAll (drained last)) ∧
      tree.keys.length ≤ 1 := by
  have fresh := fresh_append.mp (fresh_drained small)
  refine ran_bind.mpr ((construct_spec (· < ·) (by decide)).imp fun _ st stores => ran_performAll_append ?_)
  have start : Keeps st (h := 0) (emptyLeaf 2) .empty := ⟨[], stores, by simp, by simp [Contents.empty]⟩
  refine (performAll_keeps _ start fresh.1).imp ?_
  rintro - st₁ ⟨h₁, tree₁, keeps₁⟩
  have high : 2 ≤ h₁ := by
    refine keeps₁.high (List.range (last + 1)) List.nodup_range (fun key member => ?_)
      (by rw [List.length_range]; omega)
    exact keeps₁.mem_keys.mpr (by rw [applyAll_inserts, if_pos member, Option.isSome_some])
  refine (deletes_high (List.range last) keeps₁ high).imp ?_
  rintro - st₂ ⟨h₂, tree₂, high, keeps₂⟩
  rw [← applyAll_drained] at keeps₂
  refine ⟨h₂, tree₂, high, keeps₂, ?_⟩
  have only : tree₂.keys ⊆ [last] :=
    fun key member => List.mem_singleton.mpr ((drained_isSome last key).mp (keeps₂.mem_keys.mp member))
  exact (List.subperm_of_subset keeps₂.keys_nodup only).length_le

end Run
end Datashil
