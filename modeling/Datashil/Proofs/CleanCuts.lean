import Datashil.Proofs.Contents

/-! Where splits and borrows cut between tuples: the order of keys is always kept,
and no key ends up on both sides unless tuples with one key meet at the cut. -/

namespace Datashil
open Library LeafPage Datashil.Tree

variable {h : Nat} {tree : Tree h} {key size low high : Nat} {cut : Nat → Nat → Prop}

/-! ### Around the leaf of a key -/

def Tree.Around (key : Nat) : {h : Nat} → Tree h → List (Tree 0 × Nat) → LeafPage → List (Nat × Tree 0) → Prop
  | 0, _, _, _, _ => False
  | 1, node, left, child, right => Branch.row node = Row.close left child right ∧ Row.Found left key right
  | _ + 2, node, left, child, right => ∃ before inner after, Branch.row node = Row.close before inner after ∧
      Row.Found before key after ∧ Around key inner left child right

variable {left : List (Tree 0 × Nat)} {child : LeafPage} {right : List (Nat × Tree 0)}

/-- A deletion only asks for clean cuts around the leaf of its key. -/
theorem cleanDelete_of_around (clean : ∀ left child right, Around key tree left child right →
    (child.deleteTuple key).1.used ≤ LEAF_UNDERFLOW_THRESHOLD →
      CleanRepair cut left (child.deleteTuple key).1 right) :
    CleanDelete cut key tree := by
  induction h using Nat.strong_induction_on with
  | _ h ih =>
    match h, tree with
    | 0, _ => trivial
    | 1, _ => exact fun left child right row found => clean left child right ⟨row, found⟩
    | h + 2, _ =>
      intro before inner after row found
      exact ih (h + 1) (by omega) fun left child right around =>
        clean left child right ⟨before, inner, after, row, found, around⟩

/-- The bounds of a tree reach down to the leaf of a key and its siblings. -/
theorem Tree.Around.within (around : Around key tree left child right)
    (within : Within cut low tree high) (id : Nat) :
    ∃ low high, Within (h := 1) cut low ⟨id, Row.close left child right⟩ high := by
  induction h using Nat.strong_induction_on generalizing low high with
  | _ h ih =>
    match h, tree with
    | 0, _ => cases around
    | 1, ⟨_, row⟩ =>
      obtain ⟨rfl, -⟩ := around
      exact ⟨low, high, within⟩
    | h + 2, ⟨_, row⟩ =>
      obtain ⟨before, inner, after, rfl, -, around⟩ := around
      exact ih (h + 1) (by omega) around (Row.chain_close.mp (within_node.mp within)).2.1

theorem Tree.leaves_bottom (id : Nat) (row : Row Nat (Tree 0)) :
    Tree.leaves (h := 1) ⟨id, row⟩ = row.children := by
  obtain ⟨head, rest⟩ := row
  have single : rest.flatMap (fun entry => [] ++ [entry.2]) = rest.map Prod.snd :=
    (List.map_eq_flatMap ..).symm
  rw [leaves_node (h := 0), Row.trail_mk, Row.children_mk, ← single]
  rfl

theorem Tree.Keyed.several {tree : Tree (h + 1)} (keyed : tree.Keyed) : 2 ≤ tree.leaves.length := by
  obtain ⟨id, head, rest⟩ := tree
  cases rest with
  | nil => exact absurd rfl keyed
  | cons entry rest =>
    have first := List.length_pos_iff.mpr (show Tree.leaves head ≠ [] from leaves_ne_nil)
    have second := List.length_pos_iff.mpr (show Tree.leaves entry.2 ≠ [] from leaves_ne_nil)
    rw [leaves_node, Row.trail_mk, Row.after_cons, List.length_append, List.length_append, List.length_append]
    omega

theorem Tree.Around.leaves (around : Around key tree left child right) :
    ∃ first second, tree.leaves = first ++ ((Row.close left child right).children ++ second) := by
  induction h using Nat.strong_induction_on with
  | _ h ih =>
    match h, tree with
    | 0, _ => cases around
    | 1, ⟨_, row⟩ =>
      obtain ⟨rfl, -⟩ := around
      refine ⟨[], [], ?_⟩
      rw [leaves_bottom, List.nil_append, List.append_nil]
    | h + 2, ⟨_, row⟩ =>
      obtain ⟨before, inner, after, rfl, -, around⟩ := around
      obtain ⟨first, second, leaves⟩ := ih (h + 1) (by omega) around
      refine ⟨Row.before Tree.leaves (fun _ => []) before ++ first,
        second ++ Row.after Tree.leaves (fun _ => []) after, ?_⟩
      rw [leaves_focus, leaves]
      simp only [List.append_assoc]

theorem Tree.Around.mem (around : Around key tree left child right) {leaf : LeafPage}
    (member : leaf ∈ (Row.close left child right).children) : leaf ∈ tree.leaves := by
  obtain ⟨first, second, leaves⟩ := around.leaves
  rw [leaves]
  exact List.mem_append_right _ (List.mem_append_left _ member)

inductive Tree.Mended (cut : Nat → Nat → Prop) (key : Nat) (left : List (Tree 0 × Nat))
    (child : LeafPage) (right : List (Nat × Tree 0)) :
    List LeafPage → Prop
  | calm (enough : LEAF_UNDERFLOW_THRESHOLD < (child.deleteTuple key).1.used) :
      Mended cut key left child right (Row.close left (child.deleteTuple key).1 right).children
  | repaired {id : Nat} {node' : Branch (Tree 0)} {fix : Option (Nat × Nat)}
      (low : (child.deleteTuple key).1.used ≤ LEAF_UNDERFLOW_THRESHOLD)
      (repaired : Repaired (h := 0) cut (child.deleteTuple key).1.used id left
        (child.deleteTuple key).1 right node' fix) :
      Mended cut key left child right node'.row.children

theorem Tree.Deleted.around {tree tree' : Tree (h + 1)} {fix : Option (Nat × Nat)}
    (deleted : Deleted cut key tree tree' fix) :
    ∃ left child right first new second, Around key tree left child right ∧
      tree.leaves = first ++ ((Row.close left child right).children ++ second) ∧
        tree'.leaves = first ++ (new ++ second) ∧
        Mended cut key left child right new := by
  induction h generalizing fix with
  | zero =>
    obtain ⟨id, row⟩ := tree
    obtain ⟨left, child, right, child', below, here, rfl, found, deletedChild, -, repaired⟩ :=
      deleted_node.mp deleted
    obtain ⟨rfl, -⟩ := deleted_leaf.mp deletedChild
    have bottom : ∀ row : Row Nat (Tree 0), Tree.leaves (h := 1) ⟨id, row⟩ = [] ++ (row.children ++ []) := by
      intro row
      rw [leaves_bottom, List.nil_append, List.append_nil]
    have low : (report key child).underflown = true ↔
        (LeafPage.deleteTuple child key).1.used ≤ LEAF_UNDERFLOW_THRESHOLD := by
      simp only [report, decide_eq_true_eq]
    split at repaired
    next underflown =>
      obtain ⟨id', row'⟩ := tree'
      have same : Tree.leaves (h := 1) ⟨id', row'⟩ = [] ++ (row'.children ++ []) := by
        rw [leaves_bottom, List.nil_append, List.append_nil]
      exact ⟨left, child, right, [], row'.children, [], ⟨rfl, found⟩, bottom _, same,
        .repaired (low.mp underflown) repaired⟩
    next calm =>
      obtain ⟨rfl, -⟩ := repaired
      exact ⟨left, child, right, [], _, [], ⟨rfl, found⟩, bottom _, bottom _,
        .calm (Nat.lt_of_not_le (calm ∘ low.mpr))⟩
  | succ h ih =>
    obtain ⟨id, row⟩ := tree
    obtain ⟨before, inner, after, inner', below, here, rfl, found, deletedChild, -, repaired⟩ :=
      deleted_node.mp deleted
    obtain ⟨left, child, right, first, new, second, around, old, now, mended⟩ := ih deletedChild
    have leaves : Tree.leaves (h := h + 2) tree' =
        Tree.leaves (h := h + 2) ⟨id, Row.close before inner' after⟩ := by
      split at repaired
      · exact repaired.leaves_above.1
      · rw [repaired.1]
    refine ⟨left, child, right, Row.before Tree.leaves (fun _ => []) before ++ first, new,
      second ++ Row.after Tree.leaves (fun _ => []) after,
      ⟨before, inner, after, rfl, found, around⟩, ?_, ?_, mended⟩
    · rw [leaves_focus, old]
      simp only [List.append_assoc]
    · rw [leaves, leaves_focus, now]
      simp only [List.append_assoc]

private theorem separated_of_within (rel : Cut cut) {first second : LeafPage} {middle : Nat}
    (firstIn : Within (h := 0) cut low first middle)
    (secondIn : Within (h := 0) cut middle second high) : Separated cut first second := by
  intro lower lowerMem upper upperMem
  exact rel.right ((within_leaf.mp firstIn).2 lower lowerMem).2 ((within_leaf.mp secondIn).2 upper upperMem).1

/-- A repair is clean if no sibling has to cut between tuples that must stay together. -/
theorem cleanRepair_of (rel : Cut cut) {id : Nat}
    (within : Within (h := 1) cut low ⟨id, Row.close left child right⟩ high)
    (valid : ∀ leaf ∈ (Row.close left child right).children, LeafPage.Valid leaf)
    (underflown : (child.deleteTuple key).1.used ≤ LEAF_UNDERFLOW_THRESHOLD)
    (fromLeft : ∀ entry ∈ left.head?, ∀ kept lent, LeafPage.tuples entry.1 = kept ++ lent →
      lent.length = (LeafPage.canLendFromRight entry.1 (child.deleteTuple key).1.shortage).borrowAmount →
      (LeafPage.canLendFromRight entry.1 (child.deleteTuple key).1.shortage).canBorrow = true →
      ∀ first ∈ kept, ∀ second ∈ lent, cut (keyOf first) (keyOf second))
    (fromRight : left.head?.any (fun entry => lendsFromRight entry.1 (child.deleteTuple key).1.used) = false →
      ∀ entry ∈ right.head?, ∀ lent kept, LeafPage.tuples entry.2 = lent ++ kept →
      lent.length = (LeafPage.canLendFromLeft entry.2 (child.deleteTuple key).1.shortage).borrowAmount →
      (LeafPage.canLendFromLeft entry.2 (child.deleteTuple key).1.shortage).canBorrow = true →
      ∀ first ∈ lent, ∀ second ∈ kept, cut (keyOf first) (keyOf second)) :
    CleanRepair cut left (child.deleteTuple key).1 right := by
  obtain ⟨before, here, after⟩ := Row.chain_close.mp (within_node.mp within)
  have childValid : child.Valid := valid child (by simp)
  have after_valid := tuples_deleteTuple childValid key
  have here : Within (h := 0) cut (Row.lowBound low left) (child.deleteTuple key).1
      (Row.highBound right high) := by
    obtain ⟨bounds, keys⟩ := within_leaf.mp here
    exact within_leaf.mpr ⟨bounds, fun tuple member => keys tuple (after_valid.2.2.2.2.mem member)⟩
  refine ⟨?_, fun refused => ?_⟩
  · rintro ⟨sibling, middle⟩ member lends
    have siblingValid : LeafPage.Valid sibling :=
      valid sibling (Row.mem_children_close.mpr (.inl ⟨middle, List.mem_of_mem_head? member⟩))
    cases left with
    | nil => cases member
    | cons entry left =>
      cases member
      exact leftBorrowed_clean after_valid.1 siblingValid underflown (separated_of_within rel before.2 here)
        (fun kept lent parts amount => fromLeft _ rfl kept lent parts amount lends) lends
  · rintro ⟨middle, sibling⟩ member lends
    have siblingValid : LeafPage.Valid sibling :=
      valid sibling (Row.mem_children_close.mpr (.inr (.inr ⟨middle, List.mem_of_mem_head? member⟩)))
    cases right with
    | nil => cases member
    | cons entry right =>
      cases member
      exact rightBorrowed_clean after_valid.1 siblingValid underflown (separated_of_within rel here after.1)
        (fun lent kept parts amount => fromRight refused _ rfl lent kept parts amount lends) lends

/-! ### Order -/

/-- Deletions keep the order of keys. -/
theorem cleanDelete_weak (within : Within (· ≤ ·) low tree high) (valid : ∀ leaf ∈ tree.leaves, leaf.Valid) :
    CleanDelete (· ≤ ·) key tree := by
  refine cleanDelete_of_around fun left child right around underflown => ?_
  obtain ⟨low, high, inside⟩ := around.within within 0
  have sound : ∀ leaf ∈ (Row.close left child right).children, LeafPage.Valid leaf :=
    fun leaf member => valid leaf (around.mem member)
  refine cleanRepair_of Cut.weak inside sound underflown ?_ ?_
  · intro entry member kept lent parts _ _
    exact (sound entry.1 (Row.mem_children_close.mpr
      (.inl ⟨entry.2, List.mem_of_mem_head? member⟩))).parts_ordered parts
  · intro _ entry member lent kept parts _ _
    exact (sound entry.2 (Row.mem_children_close.mpr
      (.inr (.inr ⟨entry.1, List.mem_of_mem_head? member⟩)))).parts_ordered parts

theorem cleanSplit_weak {page : LeafPage} (valid : page.Valid) : CleanSplit (· ≤ ·) page :=
  fun _ _ _ _ halved => valid.parts_ordered halved.tuples

/-! ### Equal keys -/

namespace LeafPage

/-- Tuples on both sides of a cut have one key. A search goes to the right of a separator that
equals its key, and does not come to the tuples on the left. -/
def SharesKey (first second : List (List Byte)) : Prop :=
  ∃ lower ∈ first, ∃ upper ∈ second, keyOf lower = keyOf upper

/-- A split of the page cuts between tuples with one key. -/
def SplitTears (page : LeafPage) : Prop :=
  ∃ start, splitPoint page.slotArray = some start ∧
    SharesKey (tuplesOf (page.slotArray.take start) page.bytes)
      (tuplesOf (page.slotArray.drop start) page.bytes)

/-- What a sibling lends from its right end has a key with what it keeps. -/
def LendsTornLeft (sibling child : LeafPage) : Prop :=
  let report := sibling.canLendFromRight child.shortage
  report.canBorrow = true ∧ ∃ kept lent, sibling.tuples = kept ++ lent ∧
    lent.length = report.borrowAmount ∧ SharesKey kept lent

def LendsTornRight (child sibling : LeafPage) : Prop :=
  let report := sibling.canLendFromLeft child.shortage
  report.canBorrow = true ∧ ∃ lent kept, sibling.tuples = lent ++ kept ∧
    lent.length = report.borrowAmount ∧ SharesKey lent kept

end LeafPage

/-- Deleting a key makes a sibling lend some, and not all, of its tuples with one key. The right
sibling is asked only where the left one has refused. -/
def Tree.BorrowTears (key : Nat) (tree : Tree h) : Prop :=
  ∃ left child right, Around key tree left child right ∧
    (child.deleteTuple key).1.used ≤ LEAF_UNDERFLOW_THRESHOLD ∧
    ((∃ entry ∈ left.head?, LendsTornLeft entry.1 (child.deleteTuple key).1) ∨
      left.head?.any (fun entry => lendsFromRight entry.1 (child.deleteTuple key).1.used) = false ∧
        ∃ entry ∈ right.head?, LendsTornRight (child.deleteTuple key).1 entry.2)

private theorem parts_strict {page : LeafPage} (valid : page.Valid) {first second : List (List Byte)}
    (parts : page.tuples = first ++ second)
    (whole : ¬ SharesKey first second) : ∀ lower ∈ first, ∀ upper ∈ second, keyOf lower < keyOf upper := by
  intro lower lowerMem upper upperMem
  refine Nat.lt_of_le_of_ne (valid.parts_ordered parts lower lowerMem upper upperMem) fun same => ?_
  exact whole ⟨lower, lowerMem, upper, upperMem, same⟩

/-- If no borrow tears tuples with one key apart, no key ends up in two leaves. -/
theorem cleanDelete_whole (within : Within (· < ·) low tree high) (valid : ∀ leaf ∈ tree.leaves, leaf.Valid)
    (whole : ¬ tree.BorrowTears key) : CleanDelete (· < ·) key tree := by
  refine cleanDelete_of_around fun left child right around underflown => ?_
  obtain ⟨low, high, inside⟩ := around.within within 0
  have sound : ∀ leaf ∈ (Row.close left child right).children, LeafPage.Valid leaf :=
    fun leaf member => valid leaf (around.mem member)
  refine cleanRepair_of Cut.strict inside sound underflown ?_ ?_
  · intro entry member kept lent parts amount lends
    have siblingValid := sound entry.1
      (Row.mem_children_close.mpr (.inl ⟨entry.2, List.mem_of_mem_head? member⟩))
    refine parts_strict siblingValid parts fun shared =>
      whole ⟨left, child, right, around, underflown, .inl ?_⟩
    exact ⟨entry, member, lends, kept, lent, parts, amount, shared⟩
  · intro refused entry member lent kept parts amount lends
    have siblingValid := sound entry.2
      (Row.mem_children_close.mpr (.inr (.inr ⟨entry.1, List.mem_of_mem_head? member⟩)))
    refine parts_strict siblingValid parts fun shared =>
      whole ⟨left, child, right, around, underflown, .inr ?_⟩
    exact ⟨refused, entry, member, lends, lent, kept, parts, amount, shared⟩

theorem cleanSplit_whole {page : LeafPage} (valid : page.Valid) (whole : ¬ page.SplitTears) :
    CleanSplit (· < ·) page := by
  intro newPid left right boundaryKey halved
  obtain ⟨start, found, lower, upper⟩ := halved.cut
  refine parts_strict valid halved.tuples fun shared => whole ⟨start, found, ?_⟩
  rw [← lower, ← upper]
  exact shared

/-! ### Distinct keys -/

theorem Tree.keys_leaf {leaf : LeafPage} (member : leaf ∈ tree.leaves) :
    (leaf.tuples.map keyOf).Sublist tree.keys := by
  obtain ⟨first, second, leaves⟩ := List.append_of_mem member
  rw [keys, Tree.tuples, leaves, List.flatMap_append, List.flatMap_cons]
  exact ((List.sublist_append_left _ _).trans (List.sublist_append_right _ _)).map keyOf

private theorem not_sharesKey {page : LeafPage} {first second : List (List Byte)}
    (parts : page.tuples = first ++ second)
    (distinct : (page.tuples.map keyOf).Nodup) : ¬ SharesKey first second := by
  rintro ⟨lower, lowerMem, upper, upperMem, same⟩
  rw [parts, List.map_append] at distinct
  exact (List.nodup_append.mp distinct).2.2 _ (List.mem_map_of_mem lowerMem) _
    (List.mem_map_of_mem upperMem) same

theorem not_splitTears (distinct : tree.keys.Nodup) {leaf : LeafPage} (member : leaf ∈ tree.leaves) :
    ¬ leaf.SplitTears := by
  rintro ⟨start, -, shared⟩
  refine not_sharesKey ?_ (distinct.sublist (keys_leaf member)) shared
  rw [← tuplesOf_append, List.take_append_drop, LeafPage.tuples]

theorem not_borrowTears (distinct : tree.keys.Nodup) : ¬ tree.BorrowTears key := by
  rintro ⟨left, child, right, around, -,
    ⟨entry, member, -, kept, lent, parts, -, shared⟩ | ⟨-, entry, member, -, lent, kept, parts, -,
    shared⟩⟩
  · have inside := around.mem (Row.mem_children_close.mpr (.inl ⟨entry.2, List.mem_of_mem_head? member⟩))
    exact not_sharesKey parts (distinct.sublist (keys_leaf inside)) shared
  · have inside := around.mem
      (Row.mem_children_close.mpr (.inr (.inr ⟨entry.1, List.mem_of_mem_head? member⟩)))
    exact not_sharesKey parts (distinct.sublist (keys_leaf inside)) shared

theorem splittable_strict (valid : ∀ leaf ∈ tree.leaves, leaf.Valid) (distinct : tree.keys.Nodup) :
    Splittable (· < ·) key size tree :=
  ⟨fun leaf member _ _ => cleanSplit_whole (valid leaf member) (not_splitTears distinct member),
    .inl fun _ _ less => less⟩

theorem cleanDelete_strict (within : Within (· < ·) low tree high) (valid : ∀ leaf ∈ tree.leaves, leaf.Valid)
    (distinct : tree.keys.Nodup) : CleanDelete (· < ·) key tree :=
  cleanDelete_whole within valid (not_borrowTears distinct)

end Datashil
