import Datashil.Proofs.AnyKeys
import Datashil.Proofs.SlotReuse

/-! How much a leaf uses after a repair: it takes in tuples with their slots, less the slots
of deleted tuples that it uses again or drops on the way. -/

namespace Datashil
open Library LeafPage BTree Datashil.Tree

def gained (tuples : List (Nat × Nat)) : Nat := (tuples.map fun tuple => tuple.2 + SLOT_SIZE).sum

theorem Directory.length_add_le (directory : Directory) (key size : Nat) :
    (directory.add key size).cells.length ≤ directory.cells.length + 1 := by
  have packed : (directory.packed size).cells.length ≤ directory.cells.length := by
    rw [Directory.packed]
    split
    · exact List.length_filter_le _ _
    · exact Nat.le_refl _
  have put : ((directory.packed size).put key size).cells.length ≤
      (directory.packed size).cells.length + 1 := by
    rw [Directory.put]
    split
    · rw [List.length_set]
      exact Nat.le_succ _
    · rw [List.length_insertIdx]
      split <;> omega
  exact Nat.le_trans put (Nat.succ_le_succ packed)

theorem Directory.length_addAll_le (directory : Directory) (tuples : List (Nat × Nat)) :
    (directory.addAll tuples).cells.length ≤ directory.cells.length + tuples.length := by
  induction tuples generalizing directory with
  | nil => exact Nat.le_refl _
  | cons tuple tuples ih =>
    have later := ih (directory.add tuple.1 (tuple.2 + SLOT_SIZE))
    have here := directory.length_add_le tuple.1 (tuple.2 + SLOT_SIZE)
    rw [Directory.addAll, List.length_cons]
    omega

theorem sum_gained (tuples : List (Nat × Nat)) :
    gained tuples = (tuples.map Prod.snd).sum + SLOT_SIZE * tuples.length := by
  induction tuples with
  | nil => rfl
  | cons tuple tuples ih =>
    rw [gained, List.map_cons, List.sum_cons, ← gained, ih, List.map_cons, List.sum_cons,
      List.length_cons, Nat.mul_add]
    omega

namespace LeafPage
variable {page result : LeafPage} {slots : List SlotArrayElement} {bytes : Memory Byte}

/-- Some tuples get a page above the threshold, less the slots that are gone after them. -/
def Replenishes (page : LeafPage) (tuples : List (Nat × Nat)) : Prop :=
  LEAF_UNDERFLOW_THRESHOLD + SLOT_SIZE * page.slotDirectory.reclaimed tuples < page.usedSpace + gained tuples

instance (page : LeafPage) (tuples : List (Nat × Nat)) : Decidable (page.Replenishes tuples) :=
  inferInstanceAs (Decidable (_ < _))

theorem lengths_entries (slots : List SlotArrayElement) (bytes : Memory Byte) :
    (entries slots bytes).map Prod.snd = (tuplesOf slots bytes).map List.length := by
  rw [entries, tuplesOf, List.map_map, List.map_map]
  exact List.map_congr_left fun element _ => (Memory.length_read ..).symm

theorem take_entries (first second : List SlotArrayElement) (bytes : Memory Byte) :
    (entries (first ++ second) bytes).take (liveCount first) = entries first bytes := by
  have length : (entries first bytes).length = liveCount first := by
    rw [entries, List.length_map, liveCount, List.countP_eq_length_filter]
  have parts : entries (first ++ second) bytes = entries first bytes ++ entries second bytes := by
    rw [entries, List.filter_append, List.map_append]
    rfl
  rw [← length, parts, List.take_left]

theorem used_of_gained {lent : List (List Byte)} {tuples : List (Nat × Nat)}
    (gains : result.tuples.Perm (lent ++ page.tuples))
    (directory : result.slotDirectory = page.slotDirectory.addAll tuples)
    (lengths : (tuples.map Prod.snd).sum = (lent.map List.length).sum) :
    result.used + SLOT_SIZE * page.slotDirectory.reclaimed tuples = page.used + gained tuples := by
  have cells := congrArg (fun directory => directory.cells.length) directory
  have most := page.slotDirectory.length_addAll_le tuples
  have bytes := (gains.map List.length).sum_nat
  rw [List.map_append, List.sum_append, LeafPage.tuples, LeafPage.tuples, sum_tuplesOf, sum_tuplesOf] at bytes
  simp only [LeafPage.slotDirectory, List.length_map] at cells most
  rw [sum_gained, used, used, Directory.reclaimed]
  simp only [LeafPage.slotDirectory, List.length_map, SLOT_SIZE]
  omega

theorem replenishes_iff {lent : List (List Byte)} {tuples : List (Nat × Nat)} (valid : page.Valid)
    (gains : result.tuples.Perm (lent ++ page.tuples))
    (directory : result.slotDirectory = page.slotDirectory.addAll tuples)
    (lengths : (tuples.map Prod.snd).sum = (lent.map List.length).sum) :
    LEAF_UNDERFLOW_THRESHOLD < result.used ↔ page.Replenishes tuples := by
  have used := used_of_gained gains directory lengths
  rw [Replenishes, valid.usedSpace]
  omega

/-! ### What a repair leaves behind -/

/-- The tuples a page gives away at its right end, and those it gives away at its left end. -/
def lentFromRight (sibling : LeafPage) (amount : Nat) : List (Nat × Nat) :=
  (entries sibling.slotArray.reverse sibling.bytes).take amount

def lentFromLeft (sibling : LeafPage) (amount : Nat) : List (Nat × Nat) :=
  (entries sibling.slotArray sibling.bytes).take amount

section
variable {rest sibling merged : LeafPage} (restValid : rest.Valid) (siblingValid : sibling.Valid)
include restValid siblingValid

theorem leftBorrowed_used (underflown : rest.used ≤ LEAF_UNDERFLOW_THRESHOLD)
    (lends : (sibling.canLendFromRight rest.shortage).canBorrow = true) :
    LEAF_UNDERFLOW_THRESHOLD < (rest.leftBorrowed sibling).2.1.used ∧
      (LEAF_UNDERFLOW_THRESHOLD < (rest.leftBorrowed sibling).1.used ↔
      rest.Replenishes (sibling.lentFromRight (sibling.canLendFromRight rest.shortage).borrowAmount)) := by
  obtain ⟨short, positive⟩ := shortage_spec underflown
  obtain ⟨kept, lent, borrower', lender', slots, answer, result, loan⟩ :=
    handleLeftBorrow_spec restValid siblingValid short positive lends
  have directory := borrowLoop_directory _ _ rest sibling (List.nodup_reverse.mpr List.nodup_range) loan.turns
  have same : borrowLoop (List.range sibling.slotArray.length).reverse (liveCount lent) rest sibling =
      (borrower', lender') := by
    simp only [handleLeftBorrow, Prod.mk.injEq] at result
    exact Prod.ext result.1 result.2.1
  have given : sibling.lentFromRight (liveCount lent) = entries lent.reverse sibling.bytes := by
    rw [lentFromRight, slots, List.reverse_append, ← liveCount_reverse, take_entries]
  rw [same, List.map_reverse, map_getD_range, ← lentFromRight, given] at directory
  rw [leftBorrowed, answer, result, given]
  refine ⟨loan.stays, replenishes_iff restValid loan.moved.gained directory ?_⟩
  rw [lengths_entries, tuplesOf_reverse, List.map_reverse, List.sum_reverse]

theorem rightBorrowed_used (underflown : rest.used ≤ LEAF_UNDERFLOW_THRESHOLD)
    (lends : (sibling.canLendFromLeft rest.shortage).canBorrow = true) :
    LEAF_UNDERFLOW_THRESHOLD < (rest.rightBorrowed sibling).2.1.used ∧
      (LEAF_UNDERFLOW_THRESHOLD < (rest.rightBorrowed sibling).1.used ↔
      rest.Replenishes (sibling.lentFromLeft (sibling.canLendFromLeft rest.shortage).borrowAmount)) := by
  obtain ⟨short, positive⟩ := shortage_spec underflown
  obtain ⟨lent, kept, borrower', lender', slots, answer, result, loan⟩ :=
    handleRightBorrow_spec restValid siblingValid short positive lends
  have directory := borrowLoop_directory _ _ rest sibling List.nodup_range loan.turns
  have same : borrowLoop (List.range sibling.slotArray.length) (liveCount lent) rest sibling =
      (borrower', lender') := by
    simp only [handleRightBorrow, Prod.mk.injEq] at result
    exact Prod.ext result.1 result.2.1
  have given : sibling.lentFromLeft (liveCount lent) = entries lent sibling.bytes := by
    rw [lentFromLeft, slots, take_entries]
  rw [same, map_getD_range, ← lentFromLeft, given] at directory
  rw [rightBorrowed, answer, result, given]
  refine ⟨loan.stays, replenishes_iff restValid loan.moved.gained directory ?_⟩
  rw [lengths_entries]

theorem mergePages_used (room : rest.used + sibling.used ≤ PAGE_SIZE - LEAF_PAGE_HEADER_SIZE)
    (merges : rest.mergePages sibling = .ok merged) :
    LEAF_UNDERFLOW_THRESHOLD < merged.used ↔ rest.Replenishes (entries sibling.slotArray sibling.bytes) := by
  obtain ⟨merged', result, absorbed, whole⟩ := mergePages_spec restValid siblingValid room
  rw [merges] at result
  cases result
  have directory := mergeLoop_directory sibling _ _ merged whole merges
  exact replenishes_iff restValid absorbed.tuples directory (congrArg List.sum (lengths_entries _ _))

end
end LeafPage

/-! ### The repair of a leaf -/

inductive LeafRepair
  | borrowLeft (sibling : LeafPage)
  | borrowRight (sibling : LeafPage)
  | mergeLeft (sibling : LeafPage)
  | mergeRight (sibling : LeafPage)

/-- The siblings are asked from left to right. If neither lends, the leaf is merged with the left
one, or with the right one if there is no left one. -/
def LeafPage.repairFrom (rest : LeafPage) (left right : Option LeafPage) : Option LeafRepair :=
  ((left.filter fun sibling => (sibling.canLendFromRight rest.shortage).canBorrow).map .borrowLeft).or
    (((right.filter fun sibling => (sibling.canLendFromLeft rest.shortage).canBorrow).map .borrowRight).or
      ((left.map .mergeLeft).or (right.map .mergeRight)))

namespace LeafRepair

def touched (rest : LeafPage) : LeafRepair → List Nat
  | borrowLeft sibling => [sibling.pageId, rest.pageId]
  | borrowRight sibling => [rest.pageId, sibling.pageId]
  | mergeLeft sibling => [sibling.pageId]
  | mergeRight _ => [rest.pageId]

def merges : LeafRepair → Bool
  | mergeLeft _ | mergeRight _ => true
  | _ => false

/-- The page that takes in tuples gets above the threshold. -/
def Replenishes (rest : LeafPage) : LeafRepair → Prop
  | borrowLeft sibling =>
    rest.Replenishes (sibling.lentFromRight (sibling.canLendFromRight rest.shortage).borrowAmount)
  | borrowRight sibling =>
    rest.Replenishes (sibling.lentFromLeft (sibling.canLendFromLeft rest.shortage).borrowAmount)
  | mergeLeft sibling => sibling.Replenishes (entries rest.slotArray rest.bytes)
  | mergeRight sibling => rest.Replenishes (entries sibling.slotArray sibling.bytes)

end LeafRepair

section
variable {cut : Nat → Nat → Prop} {key id : Nat} {left : List (Tree 0 × Nat)} {rest : LeafPage}
    {right : List (Nat × Tree 0)}
  {node' : Branch (Tree 0)} {fix : Option (Nat × Nat)}

structure Mends (rest : LeafPage) (repair : LeafRepair) (before after : List LeafPage)
    (pages : List LeafPage) : Prop where
  ids : pages.map LeafPage.pageId = repair.touched rest
  kept : ∀ page ∈ pages, page ∈ after
  count : after.length + (if repair.merges then 1 else 0) = before.length
  used : (∀ page ∈ pages, LEAF_UNDERFLOW_THRESHOLD < page.used) ↔ repair.Replenishes rest

private theorem left_refuses
    (refused : left.head?.any (fun entry => Tree.lendsFromRight entry.1 rest.used) = false) :
    (left.head?.map Prod.fst).filter (fun sibling =>
      (LeafPage.canLendFromRight sibling rest.shortage).canBorrow) = none := by
  cases left with
  | nil => rfl
  | cons entry left =>
    have stays : (LeafPage.canLendFromRight entry.1 rest.shortage).canBorrow = false := refused
    rw [List.head?_cons, Option.map_some, Option.filter_some, stays]
    rfl

private theorem right_refuses
    (refused : right.head?.any (fun entry => Tree.lendsFromLeft entry.2 rest.used) = false) :
    (right.head?.map Prod.snd).filter (fun sibling =>
      (LeafPage.canLendFromLeft sibling rest.shortage).canBorrow) = none := by
  cases right with
  | nil => rfl
  | cons entry right =>
    have stays : (LeafPage.canLendFromLeft entry.2 rest.shortage).canBorrow = false := refused
    rw [List.head?_cons, Option.map_some, Option.filter_some, stays]
    rfl

theorem Tree.Repaired.mends (repaired : Repaired (h := 0) cut rest.used id left rest right node' fix)
    (valid : ∀ leaf ∈ (Row.close left rest right).children, LeafPage.Valid leaf)
    (low : rest.used ≤ LEAF_UNDERFLOW_THRESHOLD)
    (siblings : left ≠ [] ∨ right ≠ []) :
    ∃ repair pages, rest.repairFrom (left.head?.map Prod.fst) (right.head?.map Prod.snd) = some repair ∧
      Mends rest repair (Row.close left rest right).children node'.row.children pages := by
  obtain ⟨leftValid, restValid, rightValid⟩ := siblings_of_children valid
  cases repaired with
  | @lendLeft sibling _ sibling' child' middle _ left _ lends rotated lent =>
    have used := leftBorrowed_used restValid (leftValid sibling _ (.head _)) low lends
    obtain ⟨rfl, rfl⟩ := lent
    refine ⟨.borrowLeft sibling, [(rest.leftBorrowed sibling).2.1, (rest.leftBorrowed sibling).1], ?_,
      ⟨?_, ?_, ?_, ?_⟩⟩
    · have agrees : (LeafPage.canLendFromRight sibling rest.shortage).canBorrow = true := lends
      rw [repairFrom, List.head?_cons, Option.map_some, Option.filter_some, if_pos agrees]
      rfl
    · exact congrArg₂ (fun first second => [first, second]) rotated.leftIds.1 rotated.rightIds.1
    · simp
    · simp [LeafRepair.merges, Nat.add_assoc]
    · rw [List.forall_mem_cons, List.forall_mem_singleton]
      exact ⟨fun both => used.2.mp both.2, fun replenishes => ⟨used.1, used.2.mpr replenishes⟩⟩
  | @lendRight sibling _ sibling' child' _ _ _ right lends rotated lent refused =>
    have used := rightBorrowed_used restValid (rightValid _ sibling (.head _)) low lends
    obtain ⟨rfl, rfl⟩ := lent
    refine ⟨.borrowRight sibling, [(rest.rightBorrowed sibling).1, (rest.rightBorrowed sibling).2.1],
      ?_, ⟨?_, ?_, ?_, ?_⟩⟩
    · have agrees : (LeafPage.canLendFromLeft sibling rest.shortage).canBorrow = true := lends
      rw [repairFrom, left_refuses refused, List.head?_cons, Option.map_some, Option.filter_some,
        if_pos agrees]
      rfl
    · exact congrArg₂ (fun first second => [first, second]) rotated.leftIds.1 rotated.rightIds.1
    · simp
    · simp [LeafRepair.merges, Nat.add_assoc]
    · rw [List.forall_mem_cons, List.forall_mem_singleton]
      exact ⟨fun both => used.2.mp both.1, fun replenishes => ⟨used.2.mpr replenishes, used.1⟩⟩
  | @mergeLeft sibling _ merged _ left _ _ refused joined pages erased =>
    obtain ⟨leftRefused, rightRefused⟩ := Bool.or_eq_false_iff.mp refused
    have room := room_of_refused_left (leftValid sibling _ (.head _)) low leftRefused
    refine ⟨.mergeLeft sibling, [merged], ?_,
      ⟨congrArg (fun pid => [pid]) (LeafMerged.ids joined).1, ?_, ?_, ?_⟩⟩
    · rw [repairFrom, left_refuses leftRefused, right_refuses rightRefused]
      rfl
    · simp [erased.1]
    · simp [LeafRepair.merges, erased.1]
      omega
    · rw [List.forall_mem_singleton]
      exact mergePages_used (leftValid sibling _ (.head _)) restValid room pages
  | @mergeRight sibling _ merged _ right _ refused joined pages erased =>
    obtain ⟨leftRefused, rightRefused⟩ := Bool.or_eq_false_iff.mp refused
    have room := room_of_refused_right (rightValid _ sibling (.head _)) low rightRefused
    refine ⟨.mergeRight sibling, [merged], ?_,
      ⟨congrArg (fun pid => [pid]) (LeafMerged.ids joined).1, ?_, ?_, ?_⟩⟩
    · rw [repairFrom, right_refuses rightRefused]
      rfl
    · simp [erased.1]
    · simp [LeafRepair.merges, erased.1]
    · rw [List.forall_mem_singleton]
      exact mergePages_used restValid (rightValid _ sibling (.head _)) room pages
  | orphan =>
    cases siblings with
    | inl none => exact absurd rfl none
    | inr none => exact absurd rfl none

end

theorem Tree.leaf_below {h : Nat} {tree : Tree (h + 1)} (nodup : tree.pids.Nodup) {leaf : LeafPage}
    (member : leaf ∈ tree.leaves) :
    leaf.pageId ≠ tree.pid := by
  intro same
  obtain ⟨id, row⟩ := tree
  obtain ⟨child, among, inside⟩ := mem_leaves_node.mp member
  obtain ⟨left, right, rfl⟩ := row.exists_close among
  have here := pageId_mem_pids inside
  rw [same] at here
  exact (focused nodup).node here

theorem Tree.Around.unique {h : Nat} {tree : Tree h} {key : Nat} {left left' : List (Tree 0 × Nat)}
    {child child' : LeafPage}
    {right right' : List (Nat × Tree 0)} (around : Around key tree left child right)
    (around' : Around key tree left' child' right') :
    left = left' ∧ child = child' ∧ right = right' := by
  induction h using Nat.strong_induction_on with
  | _ h ih =>
    match h, tree with
    | 0, _ => cases around
    | 1, ⟨_, row⟩ =>
      obtain ⟨rfl, bracket⟩ := around
      obtain ⟨same, bracket'⟩ := around'
      exact bracket.unique bracket' same
    | h + 2, ⟨_, row⟩ =>
      obtain ⟨before, inner, after, rfl, bracket, around⟩ := around
      obtain ⟨before', inner', after', same, bracket', around'⟩ := around'
      obtain ⟨rfl, rfl, rfl⟩ := bracket.unique bracket' same
      exact ih (h + 1) (by omega) around around'

section
variable {st st' : BTree} {h h' : Nat} {tree : Tree h} {tree' : Tree h'} {cut : Nat → Nat → Prop} {key : Nat}
  {left : List (Tree 0 × Nat)} {child : LeafPage} {right : List (Nat × Tree 0)}

/-- The pages with some ids, but for the root, are leaves above the threshold. -/
def Resolved (st : BTree) (pids : List Nat) : Prop :=
  ∀ pid ∈ pids, pid ≠ st.rootPageId → ∃ page, st.pages pid = .leaf page ∧
    LEAF_UNDERFLOW_THRESHOLD < page.usedSpace

def LeafRepair.MergesLast (h : Nat) (left : List (Tree 0 × Nat)) (right : List (Nat × Tree 0))
    (repair : LeafRepair) : Prop :=
  repair.merges = true ∧ h = 1 ∧ left.length + right.length = 1

theorem Reduced.resolved (represents : Represents cut st tree) (reduced : Reduced cut key st st' tree tree')
    (around : tree.Around key left child right)
    (low : (child.deleteTuple key).1.used ≤ LEAF_UNDERFLOW_THRESHOLD)
    (siblings : left ≠ [] ∨ right ≠ []) :
    ∃ repair, (child.deleteTuple key).1.repairFrom (left.head?.map Prod.fst)
      (right.head?.map Prod.snd) = some repair ∧
      (Resolved st' (repair.touched (child.deleteTuple key).1) ↔
        repair.MergesLast h left right ∨ repair.Replenishes (child.deleteTuple key).1) := by
  obtain ⟨middle, fix, deleted, leaves, ending⟩ := reduced.leaves
  obtain ⟨less, rfl⟩ : ∃ less, h = less + 1 := by
    cases h with
    | zero => cases around
    | succ less => exact ⟨less, rfl⟩
  obtain ⟨left', child', right', first, new, second, around', before, after, mended⟩ := deleted.around
  obtain ⟨rfl, rfl, rfl⟩ := around.unique around'
  have sound : ∀ leaf ∈ (Row.close left (child.deleteTuple key).1 right).children, LeafPage.Valid leaf := by
    intro leaf member
    have old : ∀ leaf ∈ (Row.close left child right).children, LeafPage.Valid leaf :=
      fun leaf member => represents.valid leaf (around.mem member)
    obtain ⟨lefts, here, rights⟩ := siblings_of_children old
    rcases Row.mem_children_close.mp member with ⟨other, inside⟩ | rfl | ⟨other, inside⟩
    · exact lefts leaf other inside
    · exact (tuples_deleteTuple here key).1
    · exact rights other leaf inside
  cases mended with
  | calm enough => exact absurd low (Nat.not_le_of_lt enough)
  | @repaired id node' _ _ repaired =>
    obtain ⟨repair, pages, chosen, mends⟩ := repaired.mends sound low siblings
    refine ⟨repair, chosen, ?_⟩
    have inside : ∀ page ∈ pages, relink fix page ∈ tree'.leaves := by
      intro page member
      rw [leaves, after]
      exact List.mem_map_of_mem (List.mem_append_right _ (List.mem_append_left _ (mends.kept page member)))
    have stored : ∀ page ∈ pages, st'.pages page.pageId = .leaf (relink fix page) ∧
        (relink fix page).usedSpace = page.used := by
      intro page member
      have found := reduced.represents.holds.leaf (inside page member)
      rw [pageId_relink] at found
      rw [(reduced.represents.valid _ (inside page member)).usedSpace, used_relink]
      exact ⟨found, rfl⟩
    have resolved : Resolved st' (repair.touched (child.deleteTuple key).1) ↔
        ∀ page ∈ pages, page.pageId ≠ st'.rootPageId → LEAF_UNDERFLOW_THRESHOLD < page.used := by
      rw [Resolved, ← mends.ids, List.forall_mem_map]
      refine forall₂_congr fun page member => imp_congr_right fun _ => ?_
      obtain ⟨found, used⟩ := stored page member
      rw [← used]
      constructor
      · rintro ⟨other, same, above⟩
        rw [found] at same
        cases same
        exact above
      · exact fun above => ⟨_, found, above⟩
    have count : tree'.leaves.length + (if repair.merges then 1 else 0) = tree.leaves.length := by
      have here := mends.count
      rw [Row.length_children, Row.length_children, Row.length_rest_close] at here
      rw [leaves, after, before, List.length_map, List.length_append, List.length_append,
        List.length_append, List.length_append,
        Row.length_children, Row.length_children, Row.length_rest_close]
      omega
    have several : 1 ≤ left.length + right.length := by
      cases siblings with
      | inl some => exact Nat.le_add_right_of_le (List.length_pos_iff.mpr some)
      | inr some => exact Nat.le_add_left_of_le (List.length_pos_iff.mpr some)
    have among : left.length + right.length + 1 ≤ tree.leaves.length := by
      rw [before, List.length_append, List.length_append, Row.length_children, Row.length_rest_close]
      omega
    rw [resolved]
    cases h' with
    | zero =>
      -- The merged leaf is the root.
      obtain ⟨rfl, last⟩ : less = 0 ∧ repair.merges = true := by
        have one : tree'.leaves.length = 1 := rfl
        refine ⟨?_, ?_⟩
        · rcases ending with ⟨-, same⟩ | ⟨same, -⟩ <;> omega
        · by_contra none
          rw [if_neg none] at count
          omega
      rw [last, if_pos rfl] at count
      have one : tree'.leaves.length = 1 := rfl
      refine iff_of_true (fun page member away => absurd ?_ away) (.inl ⟨last, rfl, by omega⟩)
      have only := List.mem_singleton.mp (inside page member)
      rw [reduced.represents.root, ← only]
      exact (pageId_relink fix page).symm
    | succ h' =>
      have below : ∀ page ∈ pages, page.pageId ≠ st'.rootPageId := by
        intro page member
        rw [← pageId_relink fix page, reduced.represents.root]
        exact leaf_below reduced.represents.nodup (inside page member)
      have notLast : ¬ repair.MergesLast (less + 1) left right := by
        rintro ⟨last, low, one⟩
        cases low
        have whole : tree.leaves.length = 2 := by
          have row := around.1
          obtain ⟨id, row⟩ := tree
          subst row
          rw [leaves_bottom, Row.length_children, Row.length_rest_close, one]
        have keyed : tree.Keyed := by
          intro none
          have row := around.1
          rw [row, ← List.length_eq_zero_iff, Row.length_rest_close, one] at none
          cases none
        have still := (reduced.keyed keyed not_false).several
        rw [last, if_pos rfl] at count
        omega
      rw [← mends.used]
      refine ⟨fun all => .inr fun page member => all page member (below page member), ?_⟩
      rintro (last | used) page member -
      · exact absurd last notLast
      · exact used page member

end

/-- After any history: a deletion that leaves a leaf with a sibling at the threshold or below gets
the leaves it repairs above the threshold, exactly if it merges the last two leaves or moves enough
to make up for the slots that are gone. -/
theorem underflow_resolved_iff {operations : List Operation} {st : BTree}
    (reaches : Reaches Storing operations st) (key : Nat) :
    ∃ (h : Nat) (tree : Tree h), st.rootPageId = tree.pid ∧ tree.Holds st.pages ∧
      ∀ left child right, tree.Around key left child right →
        (child.deleteTuple key).1.usedSpace ≤ LEAF_UNDERFLOW_THRESHOLD →
        (left ≠ [] ∨ right ≠ []) →
          ∃ repair, (child.deleteTuple key).1.repairFrom (left.head?.map Prod.fst)
            (right.head?.map Prod.snd) = some repair ∧
            Ran (delete (fun _ => 0) key) st fun _ st' =>
              Resolved st' (repair.touched (child.deleteTuple key).1) ↔
              repair.MergesLast h left right ∨ repair.Replenishes (child.deleteTuple key).1 := by
  obtain ⟨h, tree, payloads, stores⟩ := reaches_stores reaches
  have represents := stores.represents
  refine ⟨h, tree, represents.root, represents.holds, fun left child right around low siblings => ?_⟩
  have childValid : child.Valid :=
    represents.valid child (around.mem (Row.mem_children_close.mpr (.inr (.inl rfl))))
  rw [(tuples_deleteTuple childValid key).1.usedSpace] at low
  obtain ⟨result, st', ran, -, h', tree', gone, kept, reduced, -⟩ := delete_any stores key
  obtain ⟨repair, chosen, resolved⟩ := reduced.resolved represents around low siblings
  exact ⟨repair, chosen, result, st', ran, resolved⟩

def tornKeys : List Operation :=
  ([1, 5, 5, 5, 5, 6, 2].map fun key => .insert (paddedBuffer key 795) key) ++ [.delete 6]

theorem storable_tornKeys : ∀ buffer key, .insert buffer key ∈ tornKeys → Storable buffer key := by
  intro buffer key member
  rcases List.mem_append.mp member with member | member
  · obtain ⟨other, inside, same⟩ := List.mem_map.mp member
    cases same
    have small : ∀ other ∈ [1, 5, 5, 5, 5, 6, 2], other < KEY_LIMIT := by decide
    exact storable_paddedBuffer (small key inside) (by decide)
  · cases List.mem_singleton.mp member

theorem underflow_resolved_iff_tornKeys : Ran (run tornKeys) bootstrapped fun _ st =>
    ∃ (h : Nat) (tree : Tree h), st.rootPageId = tree.pid ∧ tree.Holds st.pages ∧
      ∀ left child right, tree.Around 5 left child right →
        (child.deleteTuple 5).1.usedSpace ≤ LEAF_UNDERFLOW_THRESHOLD →
        (left ≠ [] ∨ right ≠ []) →
          ∃ repair, (child.deleteTuple 5).1.repairFrom (left.head?.map Prod.fst)
            (right.head?.map Prod.snd) = some repair ∧
            Ran (delete (fun _ => 0) 5) st fun _ st' =>
              Resolved st' (repair.touched (child.deleteTuple 5).1) ↔
              repair.MergesLast h left right ∨ repair.Replenishes (child.deleteTuple 5).1 :=
  (run_storing tornKeys storable_tornKeys).imp fun _ _ reaches => underflow_resolved_iff reaches 5

/-- Five of the largest tuples, and a small one in front of them: a leaf with four tuples and one
with two. -/
def sixKeys : List Operation :=
  ([1, 2, 3, 4, 5].map fun key => .insert (paddedBuffer key 795) key) ++ [.insert (keyBuffer 0) 0]

theorem fresh_sixKeys : Fresh .empty sixKeys := by
  have storable : ∀ key < KEY_LIMIT, Storable (paddedBuffer key 795) key :=
    fun key small => storable_paddedBuffer small (by decide)
  exact ⟨⟨storable 1 (by decide), rfl⟩, ⟨storable 2 (by decide), rfl⟩, ⟨storable 3 (by decide), rfl⟩,
    ⟨storable 4 (by decide), rfl⟩,
    ⟨storable 5 (by decide), rfl⟩, ⟨storable_keyBuffer (by decide), rfl⟩, trivial⟩

/-- Deleting 4 there leaves one tuple in the second leaf, which borrows one of the first. It takes
over the slot of the deleted tuple, and the leaf uses as much as the threshold, not more. -/
theorem borrower_at_threshold : Ran (run sixKeys) bootstrapped fun _ st =>
    ∃ child ∈ st.leaves, child.leftPid ≠ 0 ∧ child.tuples.length = 2 ∧
      (child.deleteTuple 4).1.usedSpace ≤ LEAF_UNDERFLOW_THRESHOLD ∧
      Ran (delete (fun _ => 0) 4) st fun _ st' => ∃ page ∈ st'.leaves, page.pageId = child.pageId ∧
        page.pageId ≠ st'.rootPageId ∧
        page.tuples.length = 2 ∧ page.usedSpace = LEAF_UNDERFLOW_THRESHOLD := by
  decide +kernel

end Datashil
