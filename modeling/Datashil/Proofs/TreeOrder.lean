import Datashil.Tree

/-! Order in a tree: the bounds every subtree keeps to, and where a key belongs. -/

namespace Datashil
open Library LeafPage

variable {cut : Nat → Nat → Prop}

/-- Relations that can say what a key is to the key closing its range: `<` where keys are distinct,
`≤` where equal keys may stand on both sides of a separator. -/
structure Cut (cut : Nat → Nat → Prop) : Prop where
  le : ∀ {a b}, cut a b → a ≤ b
  lt : ∀ {a b}, a < b → cut a b
  left : ∀ {a b c}, a ≤ b → cut b c → cut a c
  right : ∀ {a b c}, cut a b → b ≤ c → cut a c

theorem Cut.strict : Cut (· < ·) := ⟨Nat.le_of_lt, id, Nat.lt_of_le_of_lt, Nat.lt_of_lt_of_le⟩

theorem Cut.weak : Cut (· ≤ ·) := ⟨id, Nat.le_of_lt, Nat.le_trans, Nat.le_trans⟩

theorem Cut.some_not (rel : Cut cut) : ∃ a b, ¬ cut a b :=
  ⟨1, 0, fun below => absurd (rel.le below) (by decide)⟩

/-- The relation that says nothing: where tuples with one key have been torn apart, keys may be
out of order. -/
def Loose (_ _ : Nat) : Prop := True

/-- What holds of a tree whether its keys are in order or not is stated for any of the three. -/
inductive Order (cut : Nat → Nat → Prop) : Prop
  | kept (rel : Cut cut)
  | lost (all : ∀ a b, cut a b)

theorem Order.strict : Order (· < ·) := .kept .strict
theorem Order.weak : Order (· ≤ ·) := .kept .weak
theorem Order.loose : Order Loose := .lost fun _ _ => trivial

theorem Order.tells (order : Order cut) (some_not : ∃ a b, ¬ cut a b) : Cut cut := by
  cases order with
  | kept rel => exact rel
  | lost all =>
    obtain ⟨a, b, not⟩ := some_not
    exact absurd (all a b) not

namespace Tree
variable {h : Nat} {tree : Tree h} {cut : Nat → Nat → Prop} {low high : Nat}

theorem Within.bounds (rel : Cut cut) (within : Within cut low tree high) : cut low high := by
  induction h generalizing low high with
  | zero => exact (within_leaf.mp within).1
  | succ h ih =>
    obtain ⟨id, row⟩ := tree
    have keys := Row.chain_keys (r := cut) (fun _ _ _ first second => rel.left (rel.le first) second)
      (fun _ _ _ => ih) (within_node.mp within)
    rw [List.cons_append, List.pairwise_cons] at keys
    exact keys.1 high (by simp)

theorem Within.row_keys (rel : Cut cut) {id : Nat} {row : Row Nat (Tree h)}
    (within : Within (h := h + 1) cut low ⟨id, row⟩ high) : (low :: row.keys ++ [high]).Pairwise cut :=
  Row.chain_keys (r := cut) (fun _ _ _ first second => rel.left (rel.le first) second)
    (fun _ _ _ inside => inside.bounds rel)
    (within_node.mp within)

theorem Within.child (rel : Cut cut) {id : Nat} {row : Row Nat (Tree h)}
    (within : Within (h := h + 1) cut low ⟨id, row⟩ high) {child : Tree h} (member : child ∈ row.children) :
    ∃ l h, low ≤ l ∧ h ≤ high ∧ Within cut l child h :=
  Row.chain_mem (r := (· ≤ ·)) (fun _ => Nat.le_refl _) (fun _ _ _ => Nat.le_trans)
    (fun _ _ _ inside => rel.le (inside.bounds rel))
    (within_node.mp within) member

theorem Within.weaken (rel : Cut cut) (within : Within cut low tree high) : Within (· ≤ ·) low tree high := by
  induction h generalizing low high with
  | zero =>
    obtain ⟨bounds, keys⟩ := within_leaf.mp within
    exact within_leaf.mpr ⟨rel.le bounds, fun tuple member =>
      ⟨(keys tuple member).1, rel.le (keys tuple member).2⟩⟩
  | succ h ih =>
    obtain ⟨id, row⟩ := tree
    exact within_node.mpr (Row.chain_imp (within_node.mp within) fun _ _ _ _ inside => ih inside)

theorem mem_leaves_node {id : Nat} {row : Row Nat (Tree h)} {leaf : LeafPage} :
    leaf ∈ leaves (h := h + 1) ⟨id, row⟩ ↔ ∃ child ∈ row.children, leaf ∈ child.leaves := by
  rw [leaves_node, Row.mem_trail]
  simp

theorem Within.key (rel : Cut cut) (within : Within cut low tree high) {leaf : LeafPage}
    (member : leaf ∈ tree.leaves)
    {tuple : List Byte} (inside : tuple ∈ leaf.tuples) : low ≤ keyOf tuple ∧ cut (keyOf tuple) high := by
  induction h generalizing low high with
  | zero =>
    obtain rfl : leaf = tree := by simpa [leaves] using member
    exact (within_leaf.mp within).2 tuple inside
  | succ h ih =>
    obtain ⟨id, row⟩ := tree
    obtain ⟨child, among, found⟩ := mem_leaves_node.mp member
    obtain ⟨l, h, above, below, inner⟩ := within.child rel among
    have key := ih inner found
    exact ⟨Nat.le_trans above key.1, rel.right key.2 below⟩

theorem leaves_focus {id : Nat} {left : List (Tree h × Nat)} {child : Tree h} {right : List (Nat × Tree h)} :
    leaves (h := h + 1) ⟨id, Row.close left child right⟩ =
      Row.before leaves (fun _ => []) left ++ (child.leaves ++ Row.after leaves (fun _ => []) right) :=
  Row.trail_close ..

/-! ### Where a key belongs -/

def Located (key target : Nat) : {h : Nat} → Tree h → Prop
  | 0, page => LeafPage.pageId page = target
  | _ + 1, node =>
    ∃ left child right, (Branch.row node) = Row.close left child right ∧ Row.Found left key right ∧
      Located key target child

theorem located_leaf {key target : Nat} {page : LeafPage} :
    Located (h := 0) key target page ↔ page.pageId = target :=
  Iff.rfl

theorem located_node {key target id : Nat} {row : Row Nat (Tree h)} :
    Located (h := h + 1) key target ⟨id, row⟩ ↔ ∃ left child right, row = Row.close left child right ∧
      Row.Found left key right ∧ Located key target child := Iff.rfl

theorem Within.sorted_keys (rel : Cut cut) {id : Nat} {row : Row Nat (Tree h)}
    (within : Within (h := h + 1) cut low ⟨id, row⟩ high) : row.keys.Pairwise (· ≤ ·) := by
  have keys := within.row_keys rel
  rw [List.cons_append, List.pairwise_cons, List.pairwise_append] at keys
  exact keys.2.1.imp rel.le

theorem exists_located (key : Nat) (tree : Tree h) : ∃ target, Located key target tree := by
  induction h with
  | zero => exact ⟨_, located_leaf.mpr rfl⟩
  | succ h ih =>
    obtain ⟨id, row⟩ := tree
    obtain ⟨left, child, right, rfl, found⟩ := row.exists_found key
    obtain ⟨target, located⟩ := ih child
    exact ⟨target, left, child, right, rfl, found, located⟩

private theorem leftChain_key (rel : Cut cut) {left : List (Tree h × Nat)}
    (chain : Row.leftChain (Within cut) low left)
    {leaf : LeafPage} (member : leaf ∈ Row.before leaves (fun _ => []) left) {tuple : List Byte}
    (inside : tuple ∈ leaf.tuples) :
    ∃ entry ∈ left, cut (keyOf tuple) entry.2 := by
  induction left with
  | nil => simp at member
  | cons entry left ih =>
    obtain ⟨sibling, key⟩ := entry
    rw [Row.before_cons, List.append_nil, List.mem_append] at member
    rcases member with member | member
    · obtain ⟨entry, among, found⟩ := ih chain.1 member
      exact ⟨entry, .tail _ among, found⟩
    · exact ⟨(sibling, key), .head _, (chain.2.key rel member inside).2⟩

private theorem rightChain_key (rel : Cut cut) {right : List (Nat × Tree h)}
    (chain : Row.rightChain (Within cut) right high)
    {leaf : LeafPage} (member : leaf ∈ Row.after leaves (fun _ => []) right) {tuple : List Byte}
    (inside : tuple ∈ leaf.tuples) :
    ∃ entry ∈ right, entry.1 ≤ keyOf tuple := by
  induction right with
  | nil => simp at member
  | cons entry right ih =>
    obtain ⟨key, sibling⟩ := entry
    rw [Row.after_cons, List.nil_append, List.mem_append] at member
    rcases member with member | member
    · exact ⟨(key, sibling), .head _, (chain.1.key rel member inside).1⟩
    · obtain ⟨entry, among, found⟩ := ih chain.2 member
      exact ⟨entry, .tail _ among, found⟩

/-- The leaf a key belongs to: keys before it are cut off by the key, keys after it are above. -/
theorem Within.split_leaves (rel : Cut cut) {key target : Nat} (within : Within cut low tree high)
    (located : Located key target tree) :
    ∃ first leaf second, tree.leaves = first ++ leaf :: second ∧ leaf.pageId = target ∧
      (∀ other ∈ first, ∀ tuple ∈ other.tuples, cut (keyOf tuple) key) ∧
      (∀ other ∈ second, ∀ tuple ∈ other.tuples, key < keyOf tuple) := by
  induction h generalizing low high with
  | zero => exact ⟨[], tree, [], by simp [leaves], located, by simp, by simp⟩
  | succ h ih =>
    obtain ⟨id, row⟩ := tree
    obtain ⟨left, child, right, rfl, found, located⟩ := located_node.mp located
    have bracket := found.bracket (within.sorted_keys rel)
    obtain ⟨before, here, after⟩ := Row.chain_close.mp (within_node.mp within)
    obtain ⟨first, leaf, second, split, named, below, above⟩ := ih here located
    refine ⟨Row.before leaves (fun _ => []) left ++ first, leaf,
      second ++ Row.after leaves (fun _ => []) right, ?_, named, ?_, ?_⟩
    · rw [leaves_focus, split]
      simp
    · intro other member tuple inside
      rcases List.mem_append.mp member with member | member
      · obtain ⟨entry, among, found⟩ := leftChain_key rel before member inside
        exact rel.right found (bracket.1 entry among)
      · exact below other member tuple inside
    · intro other member tuple inside
      rcases List.mem_append.mp member with member | member
      · exact above other member tuple inside
      · obtain ⟨entry, among, found⟩ := rightChain_key rel after member inside
        exact Nat.lt_of_lt_of_le (bracket.2 entry among) found

theorem Within.located_mem (rel : Cut cut) {key target : Nat} (within : Within cut low tree high)
    (located : Located key target tree) :
    ∃ leaf ∈ tree.leaves, leaf.pageId = target := by
  obtain ⟨first, leaf, second, split, named, -, -⟩ := within.split_leaves rel located
  exact ⟨leaf, by rw [split]; simp, named⟩

/-! ### Changing leaves -/

theorem Within.mapLeaves_same {f : LeafPage → LeafPage} (within : Within cut low tree high)
    (same : ∀ leaf ∈ tree.leaves, ∀ tuple ∈ (f leaf).tuples, ∃ other ∈ leaf.tuples,
      keyOf other = keyOf tuple) :
    Within cut low (tree.mapLeaves f) high := by
  induction h generalizing low high with
  | zero =>
    refine within_leaf.mpr ⟨(within_leaf.mp within).1, ?_⟩
    intro tuple member
    obtain ⟨other, inside, equal⟩ := same tree (by simp [leaves]) tuple member
    rw [← equal]
    exact (within_leaf.mp within).2 other inside
  | succ h ih =>
    obtain ⟨id, row⟩ := tree
    rw [mapLeaves_node, within_node, Row.chain_map]
    refine Row.chain_imp (within_node.mp within) fun l child h member inside => ih inside ?_
    intro leaf found
    exact same leaf (mem_leaves_node.mpr ⟨child, member, found⟩)

theorem Located.mem_pids {key target : Nat} (located : Located key target tree) : target ∈ tree.pids := by
  induction h with
  | zero =>
    rw [← located_leaf.mp located]
    exact pid_mem_pids
  | succ h ih =>
    obtain ⟨id, row⟩ := tree
    obtain ⟨left, child, right, rfl, -, located⟩ := located_node.mp located
    exact mem_pids_child (by simp) (ih located)

theorem pids_focus {id : Nat} {left : List (Tree h × Nat)} {child : Tree h} {right : List (Nat × Tree h)} :
    pids (h := h + 1) ⟨id, Row.close left child right⟩ =
      id :: (Row.before pids (fun _ => []) left ++ (child.pids ++ Row.after pids (fun _ => []) right)) := by
  rw [pids_node, Row.trail_close]

theorem mem_pids_left {left : List (Tree h × Nat)} {sibling : Tree h} {key pid : Nat}
    (member : (sibling, key) ∈ left)
    (inside : pid ∈ sibling.pids) : pid ∈ Row.before pids (fun _ => []) left :=
  (Row.mem_before _ _).mpr ⟨_, member, .inl inside⟩

theorem mem_pids_right {right : List (Nat × Tree h)} {sibling : Tree h} {key pid : Nat}
    (member : (key, sibling) ∈ right)
    (inside : pid ∈ sibling.pids) : pid ∈ Row.after pids (fun _ => []) right :=
  (Row.mem_after _ _).mpr ⟨_, member, .inr inside⟩

structure Focused (id : Nat) (left : List (Tree h × Nat)) (child : Tree h)
    (right : List (Nat × Tree h)) : Prop where
  node : id ∉ child.pids
  nodup : child.pids.Nodup
  left : ∀ sibling key, (sibling, key) ∈ left → sibling.pids.Nodup ∧ ∀ pid ∈ sibling.pids, pid ≠ id ∧
    pid ∉ child.pids
  right : ∀ key sibling, (key, sibling) ∈ right → sibling.pids.Nodup ∧ ∀ pid ∈ sibling.pids, pid ≠ id ∧
    pid ∉ child.pids

private theorem nodup_sibling {row : Row Nat (Tree h)} (nodup : (row.trail pids fun _ => []).Nodup)
    {child : Tree h}
    (member : child ∈ row.children) : child.pids.Nodup := by
  obtain ⟨left, right, rfl⟩ := row.exists_close member
  rw [Row.trail_close, List.nodup_append, List.nodup_append] at nodup
  exact nodup.2.1.1

theorem focused {id : Nat} {left : List (Tree h × Nat)} {child : Tree h} {right : List (Nat × Tree h)}
    (nodup : (pids (h := h + 1) ⟨id, Row.close left child right⟩).Nodup) : Focused id left child right := by
  have siblings := (List.nodup_cons.mp (pids_node ▸ nodup)).2
  rw [pids_focus] at nodup
  obtain ⟨outside, nodup⟩ := List.nodup_cons.mp nodup
  rw [List.nodup_append, List.nodup_append] at nodup
  obtain ⟨-, ⟨own, -, apartRight⟩, apartLeft⟩ := nodup
  simp only [List.mem_append, not_or] at outside
  refine ⟨outside.2.1, own, ?_, ?_⟩
  · intro sibling key member
    refine ⟨nodup_sibling siblings (Row.mem_children_close.mpr (.inl ⟨key, member⟩)), ?_⟩
    intro pid inside
    have before := mem_pids_left member inside
    exact ⟨fun same => outside.1 (same ▸ before), fun shared =>
      apartLeft pid before pid (by simp [shared]) rfl⟩
  · intro key sibling member
    refine ⟨nodup_sibling siblings (Row.mem_children_close.mpr (.inr (.inr ⟨key, member⟩))), ?_⟩
    intro pid inside
    have after := mem_pids_right member inside
    exact ⟨fun same => outside.2.2 (same ▸ after), fun shared => apartRight pid shared pid after rfl⟩

theorem lowBound_le {key : Nat} {left : List (Tree h × Nat)} {right : List (Nat × Tree h)} (above : low ≤ key)
    (bracket : Row.Bracket left key right) : Row.lowBound low left ≤ key := by
  cases left with
  | nil => exact above
  | cons entry left => exact bracket.1 entry (.head _)

theorem cut_highBound (rel : Cut cut) {key : Nat} {left : List (Tree h × Nat)} {right : List (Nat × Tree h)}
    (below : cut key high) (bracket : Row.Bracket left key right) : cut key (Row.highBound right high) := by
  cases right with
  | nil => exact below
  | cons entry right => exact rel.lt (bracket.2 entry (.head _))

/-- Leaves may change as long as no new key appears but one, in the leaf it belongs to. -/
theorem Within.mapLeaves (rel : Cut cut) {key target : Nat} {f : LeafPage → LeafPage}
    (within : Within cut low tree high)
    (located : Located key target tree) (nodup : tree.pids.Nodup) (above : low ≤ key) (below : cut key high)
    (only : ∀ leaf ∈ tree.leaves, ∀ tuple ∈ (f leaf).tuples,
      (∃ other ∈ leaf.tuples, keyOf other = keyOf tuple) ∨ (leaf.pageId = target ∧ keyOf tuple = key)) :
    Within cut low (tree.mapLeaves f) high := by
  induction h generalizing low high with
  | zero =>
    refine within_leaf.mpr ⟨(within_leaf.mp within).1, ?_⟩
    intro tuple member
    rcases only tree (by simp [leaves]) tuple member with ⟨other, inside, same⟩ | ⟨-, rfl⟩
    · rw [← same]
      exact (within_leaf.mp within).2 other inside
    · exact ⟨above, below⟩
  | succ h ih =>
    obtain ⟨id, row⟩ := tree
    obtain ⟨left, child, right, rfl, found, located⟩ := located_node.mp located
    have bracket := found.bracket (within.sorted_keys rel)
    obtain ⟨before, here, after⟩ := Row.chain_close.mp (within_node.mp within)
    have apart := focused nodup
    have onlyChild : ∀ other ∈ (Row.close left child right).children, ∀ leaf ∈ other.leaves,
      ∀ tuple ∈ (f leaf).tuples,
        (∃ kept ∈ leaf.tuples, keyOf kept = keyOf tuple) ∨ (leaf.pageId = target ∧ keyOf tuple = key) :=
      fun other member leaf inside => only leaf (mem_leaves_node.mpr ⟨other, member, inside⟩)
    -- The siblings do not hold the leaf the key belongs to.
    have siblings : ∀ other ∈ (Row.close left child right).children, target ∉ other.pids → ∀ l h,
      Within cut l other h →
        Within cut l (other.mapLeaves f) h := by
      intro other member outside l h inside
      refine inside.mapLeaves_same fun leaf found tuple among => ?_
      rcases onlyChild other member leaf found tuple among with same | ⟨same, -⟩
      · exact same
      · exact absurd (same ▸ pageId_mem_pids found) outside
    rw [mapLeaves_node, within_node, Row.chain_map]
    refine Row.chain_close.mpr ⟨Row.leftChain_imp before ?_, ?_, Row.rightChain_imp after ?_⟩
    · intro l sibling key member inside
      exact siblings sibling (Row.mem_children_close.mpr (.inl ⟨key, member⟩))
        (fun shared => ((apart.left sibling key member).2 target shared).2 located.mem_pids) l key inside
    · exact ih here located apart.nodup (lowBound_le above bracket) (cut_highBound rel below bracket)
        (onlyChild child (Row.mem_children_close.mpr (.inr (.inl rfl))))
    · intro key sibling h member inside
      exact siblings sibling (Row.mem_children_close.mpr (.inr (.inr ⟨key, member⟩)))
        (fun shared => ((apart.right key sibling member).2 target shared).2 located.mem_pids) key h inside

end Tree
end Datashil
