import Datashil.Proofs.Payload
import Datashil.Proofs.TreeOrder
import Mathlib.Data.List.Perm.Subperm

/-! The invariant of the tree object: its store spells out a tree whose pages are
sound, distinct and in order. -/

namespace Datashil
open Library LeafPage BTree

def KEY_LIMIT : Nat := 18446744073709551616

/-- The store spells out a tree with its root where the tree object and the meta page say. Its
keys are in order as far as the relation says anything about them. -/
structure Represents (cut : Nat → Nat → Prop) (st : BTree) {h : Nat} (tree : Tree h) : Prop where
  root : st.rootPageId = tree.pid
  metaPage : st.pages DATABASE_META_PAGE_ID = .databaseMeta DATABASE_MAGIC_NUMBER tree.pid
  holds : tree.Holds st.pages
  nodup : tree.pids.Nodup
  bounded : ∀ pid ∈ tree.pids, DATABASE_META_PAGE_ID < pid ∧ pid < st.newPageOffsetIndex
  valid : ∀ leaf ∈ tree.leaves, leaf.Valid
  ordered : (∃ a b, ¬ cut a b) → tree.Within cut 0 KEY_LIMIT
  rooted : tree.Rooted

/-- A page that holds a leaf goes on holding one, be it in the tree or not. -/
def LeafKept (st st' : BTree) : Prop :=
  ∀ pid page, pid < st.newPageOffsetIndex → st.pages pid = .leaf page → ∃ page', st'.pages pid = .leaf page'

namespace Tree
variable {h : Nat} {tree : Tree h}

def Keyed : {h : Nat} → Tree h → Prop
  | 0, _ => True
  | _ + 1, node => (Branch.row node).rest ≠ []

theorem height_lt_length_pids : h < tree.pids.length := by
  induction h with
  | zero => simp [pids]
  | succ h ih =>
    obtain ⟨id, ⟨head, rest⟩⟩ := tree
    have below : h < head.pids.length := ih
    rw [pids_node, Row.trail_mk, List.length_cons, List.length_append]
    omega

theorem height_lt (nodup : tree.pids.Nodup) {bound : Nat} (bounded : ∀ pid ∈ tree.pids, pid < bound) :
    h < bound := by
  have inRange : tree.pids ⊆ List.range bound := fun pid inside => List.mem_range.mpr (bounded pid inside)
  have count := (List.subperm_of_subset nodup inRange).length_le
  have deep : h < tree.pids.length := height_lt_length_pids
  rw [List.length_range] at count
  omega

theorem Full.mapLeaves {f : LeafPage → LeafPage} (full : Full tree)
    (nonempty : ∀ leaf ∈ tree.leaves, leaf.tuples ≠ [] → (f leaf).tuples ≠ []) : Full (tree.mapLeaves f) := by
  induction h with
  | zero => exact nonempty tree (by simp) full
  | succ h ih =>
    obtain ⟨id, row⟩ := tree
    obtain ⟨count, children⟩ := full_node.mp full
    refine full_node.mpr ⟨by simpa using count, ?_⟩
    intro child member
    obtain ⟨before, inside, rfl⟩ := List.mem_map.mp (by simpa using member)
    exact ih (children before inside) fun leaf found =>
      nonempty leaf (mem_leaves_node.mpr ⟨before, inside, found⟩)

theorem Rooted.mapLeaves {f : LeafPage → LeafPage} (rooted : Rooted tree)
    (nonempty : ∀ leaf ∈ tree.leaves, leaf.tuples ≠ [] → (f leaf).tuples ≠ []) :
    Rooted (tree.mapLeaves f) := by
  induction h with
  | zero => trivial
  | succ h ih =>
    obtain ⟨id, row⟩ := tree
    have inside : ∀ child ∈ row.children, ∀ leaf ∈ child.leaves, leaf.tuples ≠ [] → (f leaf).tuples ≠ [] :=
      fun child member leaf found => nonempty leaf (mem_leaves_node.mpr ⟨child, member, found⟩)
    rcases rooted_node.mp rooted with ⟨single, headRooted⟩ | ⟨several, children⟩
    · exact rooted_node.mpr
        (.inl ⟨by simp [Row.map, single], ih headRooted (inside row.head (by simp [Row.children]))⟩)
    · refine rooted_node.mpr (.inr ⟨by simpa [Row.map] using several, ?_⟩)
      intro child member
      obtain ⟨before, among, rfl⟩ := List.mem_map.mp (by simpa using member)
      exact (children before among).mapLeaves (inside before among)

theorem Keyed.mapLeaves {f : LeafPage → LeafPage} (keyed : Keyed tree) : Keyed (tree.mapLeaves f) := by
  cases h with
  | zero => trivial
  | succ h =>
    obtain ⟨id, row⟩ := tree
    simpa [Keyed, Row.map] using keyed

theorem leaf_unique (nodup : tree.pids.Nodup) {first second : LeafPage} (firstMem : first ∈ tree.leaves)
    (secondMem : second ∈ tree.leaves) (same : first.pageId = second.pageId) : first = second := by
  induction h with
  | zero =>
    obtain rfl : first = tree := by simpa using firstMem
    exact (by simpa using secondMem : second = first).symm
  | succ h ih =>
    obtain ⟨id, row⟩ := tree
    obtain ⟨child, member, found⟩ := mem_leaves_node.mp firstMem
    obtain ⟨other, otherMember, otherFound⟩ := mem_leaves_node.mp secondMem
    obtain ⟨left, right, rfl⟩ := row.exists_close member
    have apart := focused nodup
    rcases Row.mem_children_close.mp otherMember with ⟨key, inside⟩ | rfl | ⟨key, inside⟩
    · exact absurd (same ▸ pageId_mem_pids found)
        ((apart.left other key inside).2 _ (pageId_mem_pids otherFound)).2
    · exact ih apart.nodup found otherFound
    · exact absurd (same ▸ pageId_mem_pids found)
        ((apart.right key other inside).2 _ (pageId_mem_pids otherFound)).2

/-- A store holds one tree below a page. -/
theorem Holds.unique {pages : Nat → Page} {h' : Nat} {tree' : Tree h'} (holds : tree.Holds pages)
    (holds' : tree'.Holds pages)
    (same : tree.pid = tree'.pid) : (⟨h, tree⟩ : (h : Nat) × Tree h) = ⟨h', tree'⟩ := by
  induction h generalizing h' with
  | zero =>
    have stored := holds_leaf.mp holds
    rw [← pid_leaf, same] at stored
    cases h' with
    | zero =>
      rw [pid_leaf, holds_leaf.mp holds'] at stored
      cases stored
      rfl
    | succ h' =>
      obtain ⟨id', row'⟩ := tree'
      obtain ⟨⟨page, found, -⟩, -⟩ := holds_node.mp holds'
      rw [pid_node, found] at stored
      cases stored
  | succ h ih =>
    obtain ⟨id, row⟩ := tree
    obtain ⟨⟨page, stored, -, shown⟩, below⟩ := holds_node.mp holds
    change pages (Tree.pid (h := h + 1) ⟨id, row⟩) = .internal page at stored
    rw [same] at stored
    cases h' with
    | zero =>
      rw [pid_leaf, holds_leaf.mp holds'] at stored
      cases stored
    | succ h' =>
      obtain ⟨id', row'⟩ := tree'
      obtain ⟨⟨page', found, -, shown'⟩, below'⟩ := holds_node.mp holds'
      rw [pid_node, found] at stored
      cases stored
      obtain rfl : id = id' := same
      have rows := shown.unique shown'
      have heads := ih (below row.head (by simp [Row.children]))
        (below' row'.head (by simp [Row.children])) (congrArg Row.head rows)
      obtain rfl : h = h' := congrArg Sigma.fst heads
      have equal : row = row' := by
        refine Row.map_injOn rows fun child member child' member' named => ?_
        exact eq_of_heq (Sigma.mk.inj (ih (below child member) (below' child' member') named)).2
      rw [equal]

theorem leaves_sublist_pids : (tree.leaves.map LeafPage.pageId).Sublist tree.pids := by
  induction h with
  | zero => simp [pids]
  | succ h ih =>
    obtain ⟨id, row⟩ := tree
    rw [leaves_node, pids_node]
    have same : (row.trail leaves fun _ => []).map LeafPage.pageId =
        row.trail (fun child => child.leaves.map LeafPage.pageId) fun _ => [] := by
      obtain ⟨head, rest⟩ := row
      simp [Row.trail, List.map_flatMap]
    rw [same]
    exact (Row.trail_sublist _ _ fun child _ => ih).cons id

theorem leaves_nodup (nodup : tree.pids.Nodup) : (tree.leaves.map LeafPage.pageId).Nodup :=
  nodup.sublist leaves_sublist_pids

theorem map_replaceLeaf {before after : List LeafPage} {leaf final : LeafPage}
    (nodup : ((before ++ leaf :: after).map LeafPage.pageId).Nodup) (named : final.pageId = leaf.pageId) :
    (before ++ leaf :: after).map (replaceLeaf final) = before ++ final :: after := by
  simp only [List.map_append, List.map_cons, List.nodup_append, List.nodup_cons, List.mem_cons,
    List.mem_map] at nodup
  obtain ⟨-, ⟨outside, -⟩, apart⟩ := nodup
  have kept : ∀ other, other.pageId ≠ leaf.pageId → replaceLeaf final other = other := fun other away => by
    rw [replaceLeaf, if_neg (by rw [named]; exact away)]
  have same : ∀ items : List LeafPage, (∀ other ∈ items, other.pageId ≠ leaf.pageId) →
      items.map (replaceLeaf final) = items := by
    intro items away
    conv_rhs => rw [← List.map_id items]
    exact List.map_congr_left fun other member => kept other (away other member)
  rw [List.map_append, List.map_cons, same before fun other member =>
    apart _ ⟨other, member, rfl⟩ _ (.inl rfl),
    same after fun other member shared => outside ⟨other, member, shared⟩, replaceLeaf, if_pos named.symm]

end Tree

variable {cut : Nat → Nat → Prop} {st st' : BTree} {h : Nat} {tree : Tree h}

theorem Represents.within (rel : Cut cut) (represents : Represents cut st tree) :
    tree.Within cut 0 KEY_LIMIT :=
  represents.ordered rel.some_not

theorem Represents.loosen (represents : Represents cut st tree) : Represents Loose st tree :=
  { represents with ordered := fun some_not => absurd trivial some_not.choose_spec.choose_spec }

theorem Represents.fuel (represents : Represents cut st tree) : h < st.newPageOffsetIndex :=
  Tree.height_lt represents.nodup fun pid inside => (represents.bounded pid inside).2

theorem Represents.agrees (represents : Represents cut st tree) (agrees : st.Agrees st') :
    Represents cut st' tree := by
  obtain ⟨root, metaPage, holds, nodup, bounded, valid, ordered, rooted⟩ := represents
  exact ⟨agrees.root.trans root, agrees.pages ▸ metaPage, agrees.pages ▸ holds, nodup,
    agrees.counter ▸ bounded, valid, ordered, rooted⟩

structure Rewritten (leaf final : LeafPage) (raw : List Byte) : Prop where
  valid : final.Valid
  ids : final.pageId = leaf.pageId ∧ final.leftPid = leaf.leftPid ∧ final.rightPid = leaf.rightPid
  tuples : Placement leaf.tuples raw final.tuples

theorem LeafPage.Stored.rewritten {page result : LeafPage} {raw : List Byte} {address : Nat}
    (stored : Stored page result raw address) : Rewritten page result raw :=
  ⟨stored.valid, ⟨stored.pageId, stored.leftPid, stored.rightPid⟩, stored.tuples⟩

theorem Rewritten.mem {leaf final : LeafPage} {raw : List Byte} (rewritten : Rewritten leaf final raw)
    {tuple : List Byte} :
    tuple ∈ final.tuples ↔ tuple = raw ∨ tuple ∈ leaf.tuples := by
  obtain ⟨first, second, before, after, -⟩ := rewritten.tuples
  rw [before, after]
  simp only [List.mem_append, List.mem_cons]
  exact or_left_comm

theorem Represents.rewrite (order : Order cut) (represents : Represents cut st tree)
    {leaf final : LeafPage} {raw : List Byte}
    (member : leaf ∈ tree.leaves) (located : Cut cut → Tree.Located (keyOf raw) leaf.pageId tree)
    (fits : keyOf raw < KEY_LIMIT)
    (rewritten : Rewritten leaf final raw) (root : st'.rootPageId = st.rootPageId)
    (grows : st.newPageOffsetIndex ≤ st'.newPageOffsetIndex) (stored : st'.pages leaf.pageId = .leaf final)
    (frame : ∀ pid, pid < st.newPageOffsetIndex → pid ≠ leaf.pageId → st'.pages pid = st.pages pid) :
    Represents cut st' (tree.mapLeaves (Tree.replaceLeaf final)) := by
  have named := rewritten.ids.1
  have inside := Tree.pageId_mem_pids member
  have pids : (tree.mapLeaves (Tree.replaceLeaf final)).pids = tree.pids :=
    Tree.pids_mapLeaves (Tree.pageId_replaceLeaf final)
  have pid : (tree.mapLeaves (Tree.replaceLeaf final)).pid = tree.pid :=
    Tree.pid_mapLeaves (Tree.pageId_replaceLeaf final)
  have only : ∀ other ∈ tree.leaves, ∀ tuple ∈ (Tree.replaceLeaf final other).tuples,
      tuple ∈ other.tuples ∨ (other.pageId = leaf.pageId ∧ tuple = raw) := by
    intro other among tuple found
    rw [Tree.replaceLeaf] at found
    split at found
    next same =>
      obtain rfl := Tree.leaf_unique represents.nodup among member (same.trans named)
      rcases rewritten.mem.mp found with rfl | found
      · exact .inr ⟨rfl, rfl⟩
      · exact .inl found
    next => exact .inl found
  refine ⟨by rw [root, represents.root, pid], ?_, ?_, by rw [pids]; exact represents.nodup, ?_, ?_, ?_, ?_⟩
  · have low := (represents.bounded _ inside).1
    have high := (represents.bounded _ inside).2
    rw [frame _ (by omega) (by omega), pid, represents.metaPage]
  · refine represents.holds.replaceLeaf member named stored fun other among away => ?_
    exact frame other (represents.bounded other among).2 away
  · rw [pids]
    intro other among
    have := represents.bounded other among
    omega
  · rw [Tree.leaves_mapLeaves]
    intro other among
    obtain ⟨before, found, rfl⟩ := List.mem_map.mp among
    rw [Tree.replaceLeaf]
    split
    · exact rewritten.valid
    · exact represents.valid before found
  · intro some_not
    have rel := order.tells some_not
    refine (represents.ordered some_not).mapLeaves rel (located rel) represents.nodup (Nat.zero_le _)
      (rel.lt fits) ?_
    intro other among tuple found
    rcases only other among tuple found with old | ⟨here, rfl⟩
    · exact .inl ⟨tuple, old, rfl⟩
    · exact .inr ⟨here, rfl⟩
  · refine represents.rooted.mapLeaves fun other among nonempty => ?_
    rw [Tree.replaceLeaf]
    split
    next same =>
      intro none
      have stays : raw ∈ final.tuples ↔ _ := rewritten.mem
      rw [none] at stays
      simp at stays
    next => exact nonempty

end Datashil
