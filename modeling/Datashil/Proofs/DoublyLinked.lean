import Datashil.Proofs.Histories

/-! Both links of the leaves. A split does not tell the leaf right of the one it
splits, so links agree as long as only the last leaf is split. Keys may repeat here. -/

namespace Datashil
open Library LeafPage BTree Datashil.Tree

/-- Inserting a buffer splits a leaf that has a leaf to its right. -/
def BTree.SplitsInnerLeaf (st : BTree) (buffer : List Byte) (key : Nat) : Prop :=
  ∃ leaf, st.leafOf key = some leaf ∧ ¬ leaf.HasRoom buffer.length ∧ leaf.rightPid ≠ 0

/-- Every history whose insertions split no leaf but the last one. -/
abbrev SplitsLast (st : BTree) (operation : Operation) : Prop :=
  ∀ buffer key, operation = .insert buffer key → Storable buffer key ∧ ¬ st.SplitsInnerLeaf buffer key

/-- A tree of any keys whose leaves are linked both ways. -/
structure Linked (st : BTree) {h : Nat} (tree : Tree h) : Prop where
  stores : ∃ payloads, Stores (· ≤ ·) st tree payloads
  left : LeftLinked 0 tree.leaves

variable {st : BTree} {h : Nat} {tree : Tree h}

theorem Represents.leaf_ne_zero {cut : Nat → Nat → Prop} (represents : Represents cut st tree)
    {leaf : LeafPage} (member : leaf ∈ tree.leaves) :
    leaf.pageId ≠ 0 := by
  intro zero
  have above := (represents.bounded _ (pageId_mem_pids member)).1
  rw [zero] at above
  exact absurd above (by decide)

/-- The leaf without a right link is the last one. -/
theorem Linked.last (linked : Linked st tree) {first second : List LeafPage} {leaf : LeafPage}
    (parts : tree.leaves = first ++ leaf :: second)
    (none : leaf.rightPid = 0) : second = [] := by
  obtain ⟨payloads, stores⟩ := linked.stores
  have right := stores.linked Cut.weak
  rw [parts] at right
  cases second with
  | nil => rfl
  | cons next second =>
    have named := stores.represents.leaf_ne_zero (show next ∈ tree.leaves by rw [parts]; simp)
    exact absurd ((rightLinked_append.mp right).2.1.symm.trans none) named

theorem insert_linked (linked : Linked st tree) {buffer : List Byte} {key : Nat}
    (storable : Storable buffer key)
    (outer : ¬ st.SplitsInnerLeaf buffer key) :
    Ran (BTree.insert buffer key) st fun _ st' => ∃ (h' : Nat) (tree' : Tree h'), Linked st' tree' := by
  obtain ⟨payloads, stores⟩ := linked.stores
  have represents := stores.represents
  have lone : ∀ leaf ∈ tree.leaves, Located key leaf.pageId tree → ¬ leaf.HasRoom buffer.length →
      leaf.rightPid = 0 := by
    intro leaf member located crowded
    by_contra some
    exact outer ⟨leaf, represents.leafOf member located, crowded, some⟩
  have splittable : tree.Splittable (· ≤ ·) key buffer.length := by
    refine ⟨fun leaf member _ _ => cleanSplit_weak (represents.valid leaf member), .inr ?_⟩
    intro leaf member located crowded
    obtain ⟨first, second, parts⟩ := List.append_of_mem member
    obtain rfl := linked.last parts (lone leaf member located crowded)
    rw [parts, List.getLast?_concat]
  refine (insert_spec .weak represents storable fun _ => splittable).imp ?_
  rintro result st' ⟨-, h', tree', inserted⟩
  obtain ⟨front, page, pages, back, raw, before, after, located, leaf, -⟩ := inserted.row Cut.weak
  obtain ⟨before_linked, here⟩ := leftLinked_append.mp (before ▸ linked.left)
  obtain ⟨made, same⟩ := leaf.leftLinked here.1
  obtain ⟨payloads', -, stores'⟩ := inserted.stores stores storable.keyed
  refine ⟨h', tree', ⟨_, stores'⟩, ?_⟩
  rw [after]
  refine leftLinked_append.mpr ⟨before_linked, leftLinked_append.mpr ⟨made, ?_⟩⟩
  by_cases room : page.HasRoom buffer.length
  · rw [same room]
    exact here.2
  · obtain rfl := linked.last before (lone page (by rw [before]; simp) located room)
    trivial

theorem delete_linked (linked : Linked st tree) (key : Nat) :
    Ran (BTree.delete (fun _ => 0) key) st fun _ st' => ∃ (h' : Nat) (tree' : Tree h'), Linked st' tree' := by
  obtain ⟨payloads, stores⟩ := linked.stores
  have represents := stores.represents
  refine (delete_spec .weak represents stores.known
    (cleanDelete_weak (represents.within Cut.weak) represents.valid)).imp ?_
  rintro result st' ⟨-, h', tree', reduced⟩
  obtain ⟨-, -, -, -, -, kept, -, -, -, stores'⟩ := reduced.stores stores
  refine ⟨h', tree', ⟨kept, stores'⟩, ?_⟩
  obtain ⟨middle, fix, deleted, leaves, -⟩ := reduced.leaves
  obtain ⟨page, first, old, new, second, located, member, before, after, leaf⟩ := deleted.leaves
  have distinct := leaves_nodup stores'.represents.nodup
  rw [leaves, after] at distinct
  simp only [List.map_map, Function.comp_def, pageId_relink] at distinct
  rw [leaves, after]
  refine leaf.leftLinked (represents.valid page member) (before ▸ linked.left) ?_ distinct
    fun other inside => ?_
  · have right := stores.linked Cut.weak
    rw [before] at right
    exact right.replace fun _ here => leaf.rightLinked (represents.valid page member) here
  · exact represents.leaf_ne_zero (show other ∈ tree.leaves by rw [before]; simp [inside])

theorem search_linked (linked : Linked st tree) (key : Nat) :
    Ran (BTree.search key) st fun _ st' => Linked st' tree := by
  obtain ⟨payloads, stores⟩ := linked.stores
  have represents := stores.represents
  simp only [BTree.search, ran_bind, ran_get, represents.root]
  refine (searchFrom_spec _ represents.fuel represents.holds).imp ?_
  rintro _ st' ⟨agrees, -⟩
  exact ⟨⟨payloads, stores.agrees agrees⟩, linked.left⟩

private theorem reaches_linked {operations : List Operation} (reaches : Reaches SplitsLast operations st) :
    ∃ (h : Nat) (tree : Tree h), Linked st tree := by
  induction reaches with
  | start constructed =>
    exact ⟨0, _, ⟨[], (construct_spec (· ≤ ·) (Nat.zero_le _)).elim constructed⟩, rfl, trivial⟩
  | @step operations operation outcome st st' reaches allows performed ih =>
    obtain ⟨h, tree, linked⟩ := ih
    suffices step : Ran (perform operation) st fun _ st' => ∃ (h' : Nat) (tree' : Tree h'),
      Linked st' tree' from step.elim performed
    cases operation with
    | insert buffer key =>
      obtain ⟨storable, outer⟩ := allows buffer key rfl
      exact ran_bind.mpr ((insert_linked linked storable outer).imp fun _ _ inserted => ran_pure.mpr inserted)
    | delete key =>
      exact ran_bind.mpr ((delete_linked linked key).imp fun _ _ deleted => ran_pure.mpr deleted)
    | search key =>
      exact ran_bind.mpr ((search_linked linked key).imp fun _ _ searched =>
        ran_pure.mpr ⟨h, tree, searched⟩)

/-- As long as no insertion splits a leaf that has a leaf to its right, right and left links
of the leaves agree, and the ends are marked by 0. -/
theorem leaves_doubly_linked {operations : List Operation} (reaches : Reaches SplitsLast operations st) :
    (∀ p ∈ st.leaves, ∀ q ∈ st.leaves, p.rightPid = q.pageId ↔ q.leftPid = p.pageId) ∧
      st.leaves.head?.map LeafPage.leftPid = some 0 ∧ st.leaves.getLast?.map LeafPage.rightPid = some 0 := by
  obtain ⟨h, tree, linked⟩ := reaches_linked reaches
  obtain ⟨payloads, stores⟩ := linked.stores
  have represents := stores.represents
  have left := linked.left
  have right := stores.linked Cut.weak
  rw [represents.leaves]
  refine ⟨fun p pMem q qMem => ?_, ?_, ?_⟩
  · exact right.eq_iff left (leaves_nodup represents.nodup)
      (fun page member => represents.leaf_ne_zero member) pMem qMem
  · cases parts : tree.leaves with
    | nil => exact absurd parts leaves_ne_nil
    | cons page rest =>
      rw [parts] at left
      exact congrArg some left.1
  · rcases List.eq_nil_or_concat' tree.leaves with none | ⟨front, page, parts⟩
    · exact absurd none leaves_ne_nil
    · rw [parts] at right
      rw [parts, List.getLast?_concat]
      exact congrArg some (rightLinked_append.mp right).2.1

/-- Splits of the last leaf, a deletion, and a key that is inserted while it is present. -/
theorem leaves_doubly_linked_varied :
    ∃ st, Reaches SplitsLast ([] ++ (varied ++ [.insert (paddedBuffer 30 100) 30])) st ∧
    (∀ p ∈ st.leaves, ∀ q ∈ st.leaves, p.rightPid = q.pageId ↔ q.leftPid = p.pageId) ∧
      st.leaves.head?.map LeafPage.leftPid = some 0 ∧ st.leaves.getLast?.map LeafPage.rightPid = some 0 := by
  have checked : Ran construct bootstrapped fun _ st =>
      Checked (Fits (fun leaf _ => leaf.rightPid = 0) true) (fun _ => True)
        (varied ++ [.insert (paddedBuffer 30 100) 30]) st := by
    decide +kernel
  obtain ⟨_, st₀, constructed, checked⟩ := checked
  have implies : ∀ st operation, Fits (fun leaf _ => leaf.rightPid = 0) true st operation →
      SplitsLast st operation := by
    rintro st _ fits buffer key rfl
    refine ⟨fits.1, ?_⟩
    rintro ⟨leaf, found, crowded, neighbour⟩
    exact (fits.2 leaf found).elim crowded neighbour
  obtain ⟨st, reaches, -⟩ := Reaches.checked implies (.start constructed) checked
  exact ⟨st, reaches, leaves_doubly_linked reaches⟩

/-- Six keys fill two leaves, three smaller ones split the first of them: the last leaf still
points back to it, not to the new leaf in between. -/
theorem left_link_stale :
    Ran (run ([10, 20, 30, 40, 50, 60, 1, 2, 3].map fun key => .insert (paddedBuffer key 795) key))
      bootstrapped
    fun _ st => ∃ p ∈ st.leaves, ∃ q ∈ st.leaves, p.rightPid = q.pageId ∧ q.leftPid ≠ p.pageId := by
  decide +kernel

end Datashil
