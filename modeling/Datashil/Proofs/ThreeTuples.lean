import Datashil.Proofs.AnyKeys

/-! How many tuples a leaf has: at least three, unless a split cuts off too few, a deletion
leaves two that are too large to be repaired, or a sibling lends all but two. -/

namespace Datashil
open Library LeafPage BTree

namespace LeafPage
variable {page sibling child : LeafPage}

/-- A split of the page cuts off one tuple, or two that are both above a key. -/
def CutsOffFew (page : LeafPage) (key : Nat) : Prop :=
  ∃ start, splitPoint page.slotArray = some start ∧
    let cutOff := tuplesOf (page.slotArray.drop start) page.bytes
    cutOff.length < 2 ∨ cutOff.length = 2 ∧ ∀ tuple ∈ cutOff.head?, key < keyOf tuple

/-- A sibling agrees to lend so much that it keeps two tuples at most. -/
def LendsTooMany (sibling : LeafPage) (report : BorrowQuery) : Prop :=
  report.canBorrow = true ∧ sibling.tuples.length < report.borrowAmount + 3

/-- More than half a page of tuples are at least three. -/
theorem Valid.three_of_half (valid : page.Valid)
    (half : SPLIT_THRESHOLD < (page.tuples.map List.length).sum) : 3 ≤ page.tuples.length := by
  have threshold : SPLIT_THRESHOLD = 2032 := rfl
  have most : MAX_LEAF_PAGE_DATA = 813 := rfl
  have each : ∀ tuple ∈ page.tuples, tuple.length ≤ 808 := by
    intro tuple member
    have bound := (valid.length_tuple member).2
    simp only [SLOT_SIZE, most] at bound
    omega
  cases parts : page.tuples with
  | nil =>
    rw [parts] at half
    cases half
  | cons first rest =>
    rw [parts, List.forall_mem_cons] at each
    cases rest with
    | nil =>
      rw [parts] at half
      simp only [List.map_cons, List.map_nil, List.sum_cons, List.sum_nil] at half
      omega
    | cons second rest =>
      rw [List.forall_mem_cons] at each
      cases rest with
      | nil =>
        rw [parts] at half
        simp only [List.map_cons, List.map_nil, List.sum_cons, List.sum_nil] at half
        omega
      | cons third rest =>
        simp only [List.length_cons]
        omega

theorem leftBorrowed_counts (childValid : child.Valid) (siblingValid : sibling.Valid)
    (underflown : child.used ≤ LEAF_UNDERFLOW_THRESHOLD)
    (lends : (sibling.canLendFromRight child.shortage).canBorrow = true) :
    child.tuples.length < (child.leftBorrowed sibling).1.tuples.length ∧
      sibling.tuples.length = (sibling.canLendFromRight child.shortage).borrowAmount +
        (child.leftBorrowed sibling).2.1.tuples.length := by
  obtain ⟨short, positive⟩ := shortage_spec underflown
  obtain ⟨kept, lent, borrower', lender', slots, answer, result, loan⟩ :=
    handleLeftBorrow_spec childValid siblingValid short positive lends
  have amount := loan.amount
  have gained := loan.moved.gained.length_eq
  have lost := loan.moved.lost.length_eq
  rw [List.length_append, length_tuplesOf] at gained lost
  rw [leftBorrowed, answer, result]
  exact ⟨by simp only; omega, lost⟩

theorem rightBorrowed_counts (childValid : child.Valid) (siblingValid : sibling.Valid)
    (underflown : child.used ≤ LEAF_UNDERFLOW_THRESHOLD)
    (lends : (sibling.canLendFromLeft child.shortage).canBorrow = true) :
    child.tuples.length < (child.rightBorrowed sibling).1.tuples.length ∧
      sibling.tuples.length = (sibling.canLendFromLeft child.shortage).borrowAmount +
        (child.rightBorrowed sibling).2.1.tuples.length := by
  obtain ⟨short, positive⟩ := shortage_spec underflown
  obtain ⟨lent, kept, borrower', lender', slots, answer, result, loan⟩ :=
    handleRightBorrow_spec childValid siblingValid short positive lends
  have amount := loan.amount
  have gained := loan.moved.gained.length_eq
  have lost := loan.moved.lost.length_eq
  rw [List.length_append, length_tuplesOf] at gained lost
  rw [rightBorrowed, answer, result]
  exact ⟨by simp only; omega, lost⟩

end LeafPage

/-! ### Deletions -/

namespace Tree
variable {h : Nat} {tree tree' : Tree h} {cut : Nat → Nat → Prop} {key : Nat} {fix : Option (Nat × Nat)}

def Stocked (tree : Tree h) : Prop := ∀ leaf ∈ tree.leaves, 3 ≤ leaf.tuples.length

/-- Deleting a key takes one of three tuples out of a leaf that still uses too much to be repaired
or has no sibling, or makes a sibling lend all but two. -/
def RunsShort (key : Nat) (tree : Tree h) : Prop :=
  ∃ left child right, Around key tree left child right ∧
    let rest := (child.deleteTuple key).1
    (child.tuples.length ≤ 3 ∧ (child.deleteTuple key).2 = true ∧
      (LEAF_UNDERFLOW_THRESHOLD < rest.used ∨ left = [] ∧ right = [])) ∨
    rest.used ≤ LEAF_UNDERFLOW_THRESHOLD ∧
      ((∃ entry ∈ left.head?, LendsTooMany entry.1 (entry.1.canLendFromRight rest.shortage)) ∨
        left.head?.any (fun entry => lendsFromRight entry.1 rest.used) = false ∧
          ∃ entry ∈ right.head?, LendsTooMany entry.2 (entry.2.canLendFromLeft rest.shortage))

private theorem length_deleteTuple {page : LeafPage} (valid : page.Valid) (key : Nat) :
    page.tuples.length = (page.deleteTuple key).1.tuples.length + if (page.deleteTuple key).2 =
      true then 1 else 0 := by
  obtain ⟨removed, takes, perm⟩ := takes_deleteTuple valid key
  have length := perm.length_eq
  rw [List.length_append] at length
  cases takes with
  | nothing absent clean =>
    rw [clean]
    simpa using length.symm
  | first member keyed dirty =>
    rw [dirty, if_pos rfl, ← length, List.length_singleton, Nat.add_comm]

section Mended
variable {left : List (Tree 0 × Nat)} {child : LeafPage} {right : List (Nat × Tree 0)} {new : List LeafPage}

/-- The leaf of a key and its siblings, after a deletion that does not run short. -/
theorem Mended.stocked (mended : Mended cut key left child right new)
    (stocked : ∀ leaf ∈ (Row.close left child right).children, 3 ≤ (LeafPage.tuples leaf).length)
    (valid : ∀ leaf ∈ (Row.close left child right).children, LeafPage.Valid leaf)
    (around : Around key tree left child right)
    (enough : ¬ tree.RunsShort key) : ∀ leaf ∈ new, 3 ≤ leaf.tuples.length := by
  obtain ⟨lefts, here, rights⟩ := siblings_of_children stocked
  obtain ⟨leftValid, childValid, rightValid⟩ := siblings_of_children valid
  have lost := length_deleteTuple childValid key
  have restValid := (tuples_deleteTuple childValid key).1
  have around' : ∀ {left' : List (Tree 0 × Nat)} {child' : Tree 0} {right' : List (Nat × Tree 0)},
      (∀ entry ∈ left', 3 ≤ (LeafPage.tuples entry.1).length) → 3 ≤ (LeafPage.tuples child').length →
        (∀ entry ∈ right', 3 ≤ (LeafPage.tuples entry.2).length) →
          ∀ leaf ∈ (Row.close left' child' right').children, 3 ≤ (LeafPage.tuples leaf).length := by
    intro left' child' right' lefts here rights leaf member
    rcases Row.mem_children_close.mp member with ⟨key, inside⟩ | rfl | ⟨key, inside⟩
    · exact lefts _ inside
    · exact here
    · exact rights _ inside
  -- A leaf that is not repaired had more than three tuples, or loses none.
  have kept : LEAF_UNDERFLOW_THRESHOLD < (child.deleteTuple key).1.used ∨ left = [] ∧ right = [] →
      3 ≤ (child.deleteTuple key).1.tuples.length := by
    intro alone
    by_contra few
    refine enough ⟨left, child, right, around, .inl ⟨?_, ?_, alone⟩⟩
    · split at lost <;> omega
    · by_contra clean
      rw [if_neg clean] at lost
      omega
  have least : 2 ≤ (child.deleteTuple key).1.tuples.length := by split at lost <;> omega
  cases mended with
  | calm large =>
    exact around' (fun entry member => lefts entry.1 entry.2 member) (kept (.inl large))
      fun entry member => rights entry.1 entry.2 member
  | repaired low repaired =>
    cases repaired with
    | @lendLeft sibling _ sibling' child' middle _ left _ lends rotated lent =>
      obtain ⟨rfl, rfl⟩ := lent
      have counts := leftBorrowed_counts restValid (leftValid sibling _ (.head _)) low lends
      refine around' (fun entry member => lefts entry.1 entry.2 (.tail _ member)) ?_ ?_
      · by_contra few
        refine enough ⟨_, child, right, around, .inr ⟨low, .inl ⟨_, rfl, lends, ?_⟩⟩⟩
        simp only at few ⊢
        have := counts.2
        omega
      · intro entry member
        cases List.mem_cons.mp member with
        | inl same =>
          rw [same]
          simp only
          omega
        | inr later => exact rights entry.1 entry.2 later
    | @lendRight sibling _ sibling' child' _ _ _ right lends rotated lent refused =>
      obtain ⟨rfl, rfl⟩ := lent
      have counts := rightBorrowed_counts restValid (rightValid _ sibling (.head _)) low lends
      refine around' (fun entry member => lefts entry.1 entry.2 member) ?_ ?_
      · omega
      · intro entry member
        cases List.mem_cons.mp member with
        | inl same =>
          rw [same]
          by_contra few
          refine enough ⟨left, child, _, around, .inr ⟨low, .inr ⟨refused, _, rfl, lends, ?_⟩⟩⟩
          simp only at few ⊢
          have := counts.2
          omega
        | inr later => exact rights entry.1 entry.2 (.tail _ later)
    | @mergeLeft sibling _ merged _ left _ _ refused joined pages erased =>
      rw [erased.1]
      have whole := (LeafMerged.tuples joined).length_eq
      have several := lefts sibling _ (.head _)
      rw [List.length_append] at whole
      refine around' (fun entry member => lefts entry.1 entry.2 (.tail _ member)) ?_ fun entry member =>
        rights entry.1 entry.2 member
      omega
    | @mergeRight sibling _ merged _ right _ refused joined pages erased =>
      rw [erased.1]
      have whole := (LeafMerged.tuples joined).length_eq
      have several := rights _ sibling (.head _)
      rw [List.length_append] at whole
      refine around' nofun ?_ fun entry member => rights entry.1 entry.2 (.tail _ member)
      omega
    | orphan => exact around' nofun (kept (.inr ⟨rfl, rfl⟩)) nofun

end Mended

theorem Deleted.stocked {tree tree' : Tree (h + 1)} (deleted : Deleted cut key tree tree' fix)
    (stocked : Stocked tree)
    (valid : ∀ leaf ∈ tree.leaves, leaf.Valid) (enough : ¬ tree.RunsShort key) : Stocked tree' := by
  obtain ⟨left, child, right, first, new, second, around, before, after, mended⟩ := deleted.around
  have inside := mended.stocked (fun leaf member => stocked leaf (around.mem member))
    (fun leaf member => valid leaf (around.mem member))
    around enough
  have outside : ∀ leaf, leaf ∈ first ∨ leaf ∈ second → 3 ≤ leaf.tuples.length := by
    intro leaf member
    apply stocked leaf
    rw [before, List.mem_append, List.mem_append]
    tauto
  intro leaf member
  rw [after, List.mem_append, List.mem_append] at member
  rcases member with member | member | member
  · exact outside leaf (.inl member)
  · exact inside leaf member
  · exact outside leaf (.inr member)

end Tree

variable {st st' : BTree} {h h' : Nat} {tree : Tree h} {tree' : Tree h'} {cut : Nat → Nat → Prop}
    {key : Nat} {buffer : List Byte}

theorem Reduced.stocked (represents : Represents cut st tree) (reduced : Reduced cut key st st' tree tree')
    (stocked : 0 < h → tree.Stocked) (enough : ¬ tree.RunsShort key) : 0 < h' → tree'.Stocked := by
  intro high
  obtain ⟨middle, fix, deleted, leaves, ending⟩ := reduced.leaves
  obtain ⟨-, rfl⟩ | ⟨-, low, -⟩ := ending
  · cases h' with
    | zero => cases high
    | succ h =>
      have whole := deleted.stocked (stocked high) represents.valid enough
      intro leaf member
      rw [leaves] at member
      obtain ⟨other, inside, rfl⟩ := List.mem_map.mp member
      rw [Tree.tuples_relink]
      exact whole other inside
  · exact absurd low (Nat.ne_of_gt high)

/-! ### Insertions -/

theorem Rewritten.length {leaf final : LeafPage} {raw : List Byte} (rewritten : Rewritten leaf final raw) :
    final.tuples.length = leaf.tuples.length + 1 := by
  obtain ⟨first, second, before, after, -⟩ := rewritten.tuples
  rw [before, after, List.length_append, List.length_append, List.length_cons]
  omega

theorem LeafInserted.length_of_room {size : Nat} {page : LeafPage} {pages : List LeafPage} {raw : List Byte}
    (inserted : LeafInserted cut key size page pages raw) (room : page.HasRoom size) : pages.length = 1 := by
  obtain ⟨page', new, target, before, leaf, after, final, prepared, parts, -, -, rfl⟩ := inserted
  have length := congrArg List.length parts
  cases prepared with
  | fits => simpa [eq_comm] using length
  | splits crowded => exact absurd room crowded

theorem LeafInserted.stocked {size : Nat} {page : LeafPage} {pages : List LeafPage} {raw : List Byte}
    (inserted : LeafInserted cut key size page pages raw) (distinct : (pages.map LeafPage.pageId).Nodup)
    (enough : ¬ page.HasRoom size → ¬ page.CutsOffFew key)
    (stocked : page.HasRoom size → 2 ≤ page.tuples.length) :
    ∀ leaf ∈ pages, 3 ≤ leaf.tuples.length := by
  obtain ⟨page', new, target, before, leaf, after, final, prepared, parts, named, rewritten, rfl⟩ := inserted
  have grown := rewritten.length
  cases prepared with
  | fits room =>
    obtain ⟨rfl, rfl, rfl⟩ : before = [] ∧ leaf = page ∧ after = [] := by
      cases before with
      | nil => simpa [eq_comm] using parts
      | cons other before => simp at parts
    have least := stocked room
    intro other member
    rw [List.mem_singleton.mp member]
    omega
  | @splits _ right newPid boundaryKey crowded halved separated =>
    have leftLeast := halved.leftMade.valid.three_of_half halved.half
    obtain ⟨start, found, -, upper⟩ := halved.cut
    obtain ⟨first, rest, tuples, boundary⟩ := Tree.boundary_mem halved
    have cutOff : ¬ (right.tuples.length < 2 ∨ right.tuples.length = 2 ∧ ∀ tuple ∈ right.tuples.head?,
        key < keyOf tuple) := by
      intro few
      rw [upper] at few
      exact enough crowded ⟨start, found, few⟩
    have rightLeast : 2 ≤ right.tuples.length ∧ (right.tuples.length = 2 → boundaryKey ≤ key) := by
      rw [not_or, not_and] at cutOff
      refine ⟨Nat.le_of_not_lt cutOff.1, fun two => Nat.le_of_not_lt fun below => cutOff.2 two ?_⟩
      intro tuple member
      rw [tuples] at member
      cases member
      rwa [boundary]
    obtain ⟨rfl, rfl, rfl⟩ | ⟨rfl, rfl, rfl⟩ : (before = [] ∧ leaf = page' ∧ after = [right]) ∨
        (before = [page'] ∧ leaf = right ∧ after = []) := by
      match before with
      | [] => exact .inl (by simpa [eq_comm] using parts)
      | [other] => exact .inr (by simpa [eq_comm] using parts)
      | _ :: _ :: _ => simp at parts
    · have rightThree : 3 ≤ right.tuples.length := by
        apply Nat.lt_of_le_of_ne rightLeast.1
        intro two
        rw [if_pos (rightLeast.2 two.symm)] at named
        have same : final.pageId = right.pageId := rewritten.ids.1.trans (named.trans halved.rightIds.1.symm)
        simp [same] at distinct
      intro other member
      rcases List.mem_cons.mp member with rfl | member
      · omega
      · rwa [List.mem_singleton.mp member]
    · intro other member
      rcases List.mem_cons.mp member with rfl | member
      · exact leftLeast
      · rw [List.mem_singleton.mp member]
        omega

theorem Inserted.stocked (represents : Represents cut st tree)
    (inserted : Inserted cut key buffer st st' tree tree')
    (stocked : 0 < h → tree.Stocked)
    (enough : ∀ leaf, st.leafOf key = some leaf → ¬ leaf.HasRoom buffer.length →
      ¬ leaf.CutsOffFew key) : 0 < h' → tree'.Stocked := by
  intro high
  obtain ⟨first, page, pages, second, raw, before, after, -, located, leaf, -⟩ := inserted.leaves
  have member : page ∈ tree.leaves := by
    rw [before]
    simp
  have distinct := (after.map _).nodup_iff.mp (Tree.leaves_nodup inserted.represents.nodup)
  rw [List.map_append, List.map_append] at distinct
  have apart := (List.nodup_append.mp (List.nodup_append.mp distinct).2.1).1
  have alone : h = 0 → first = [] ∧ second = [] := by
    rintro rfl
    have length : 1 = (first ++ page :: second).length := congrArg List.length before
    rw [List.length_append, List.length_cons] at length
    exact ⟨List.length_eq_zero_iff.mp (by omega), List.length_eq_zero_iff.mp (by omega)⟩
  by_cases single : h = 0 ∧ page.HasRoom buffer.length
  · -- A leaf with room stays the only one.
    obtain ⟨rfl, room⟩ := single
    obtain ⟨h', rfl⟩ : ∃ less, h' = less + 1 := ⟨h' - 1, by omega⟩
    have several := (inserted.keyed trivial).several
    obtain ⟨rfl, rfl⟩ := alone rfl
    rw [after.length_eq, List.nil_append, List.append_nil, leaf.length_of_room room] at several
    cases several with
    | step below => cases below
  · have inside := leaf.stocked apart (enough page (represents.leafOf member located)) fun room => by
      have tall : 0 < h := Nat.pos_of_ne_zero fun none => single ⟨none, room⟩
      exact Nat.le_of_succ_le (stocked tall page member)
    intro other among
    have old : other ∈ first ∨ other ∈ second → 3 ≤ other.tuples.length := by
      intro beside
      by_cases low : h = 0
      · obtain ⟨rfl, rfl⟩ := alone low
        simp at beside
      · apply stocked (Nat.pos_of_ne_zero low) other
        rw [before, List.mem_append, List.mem_cons]
        tauto
    rw [after.mem_iff, List.mem_append, List.mem_append] at among
    rcases among with among | among | among
    · exact old (.inl among)
    · exact inside other among
    · exact old (.inr among)

/-! ### Histories -/

/-- A leaf with fewer than three tuples would come of an operation. -/
def BTree.RunsShort (st : BTree) : Operation → Prop
  | .insert buffer key =>
    ∃ leaf, st.leafOf key = some leaf ∧ ¬ leaf.HasRoom buffer.length ∧ leaf.CutsOffFew key
  | .delete key =>
    ∃ (h : Nat) (tree : Tree h), st.rootPageId = tree.pid ∧ tree.Holds st.pages ∧ tree.RunsShort key
  | .search _ => False

/-- Every history that does not run short of tuples in any leaf. -/
abbrev KeepsThree (st : BTree) (operation : Operation) : Prop :=
  Storing st operation ∧ ¬ st.RunsShort operation

private theorem reaches_stocked {operations : List Operation} (reaches : Reaches KeepsThree operations st) :
    ∃ (h : Nat) (tree : Tree h) (payloads : List (List Byte)), Stores Loose st tree payloads ∧
      (0 < h → tree.Stocked) := by
  induction reaches with
  | start constructed =>
    exact ⟨0, _, [], (construct_spec Loose trivial).elim constructed, fun tall =>
      absurd tall (Nat.lt_irrefl 0)⟩
  | @step operations operation outcome st st' reaches allows performed ih =>
    obtain ⟨h, tree, payloads, stores, stocked⟩ := ih
    obtain ⟨storable, enough⟩ := allows
    have represents := stores.represents
    suffices step : Ran (perform operation) st fun _ st' =>
      ∃ (h' : Nat) (tree' : Tree h') (payloads' : List (List Byte)),
        Stores Loose st' tree' payloads' ∧ (0 < h' → tree'.Stocked) from step.elim performed
    cases operation with
    | insert buffer key =>
      refine ran_bind.mpr ((insert_any stores (storable buffer key rfl)).imp fun _ st' done =>
        ran_pure.mpr ?_)
      obtain ⟨-, h', tree', payloads', inserted, -, stores'⟩ := done
      exact ⟨h', tree', payloads', stores',
        inserted.stocked represents stocked fun leaf found crowded few =>
        enough ⟨leaf, found, crowded, few⟩⟩
    | delete key =>
      refine ran_bind.mpr ((delete_any stores key).imp fun _ st' done => ran_pure.mpr ?_)
      obtain ⟨-, h', tree', gone, kept, reduced, -, -, stores'⟩ := done
      exact ⟨h', tree', kept, stores', reduced.stocked represents stocked fun short =>
        enough ⟨h, tree, represents.root, represents.holds, short⟩⟩
    | search key =>
      refine ran_bind.mpr ((stores.searches key).imp fun _ st' searched => ran_pure.mpr ?_)
      exact ⟨h, tree, payloads, stores.agrees searched.1, stocked⟩

/-- As long as no operation makes a leaf run short, every leaf but the root has three tuples: splits
cut off at least three, and a repair leaves as many on both sides or one leaf with all of them. -/
theorem leaves_hold_three {operations : List Operation} (reaches : Reaches KeepsThree operations st) :
    ∀ leaf ∈ st.leaves, leaf.pageId ≠ st.rootPageId → 3 ≤ leaf.tuples.length := by
  obtain ⟨h, tree, payloads, stores, stocked⟩ := reaches_stocked reaches
  intro leaf member away
  rw [stores.represents.leaves] at member
  rw [stores.represents.root] at away
  cases h with
  | zero =>
    rw [List.mem_singleton.mp member] at away
    exact absurd rfl away
  | succ h => exact stocked (Nat.zero_lt_succ h) leaf member

instance (page : LeafPage) (key : Nat) : Decidable (page.CutsOffFew key) := by
  rw [LeafPage.CutsOffFew]
  infer_instance

/-- A split between tuples with one key, which leaves three of them on either side. -/
def twins : List Operation := ([1, 5, 5, 5, 5, 6].map fun key => .insert (paddedBuffer key 795) key) ++
    [.search 5, .insert (paddedBuffer 7 100) 7]

theorem leaves_hold_three_twins : ∃ st, Reaches KeepsThree ([] ++ twins) st ∧
    ∀ leaf ∈ st.leaves, leaf.pageId ≠ st.rootPageId → 3 ≤ leaf.tuples.length := by
  have checked : Ran construct bootstrapped fun _ st =>
      Checked (Fits (fun leaf key => ¬ leaf.CutsOffFew key) false) (fun _ => True) twins st := by
    decide +kernel
  obtain ⟨_, st₀, constructed, checked⟩ := checked
  have implies : ∀ st operation, Fits (fun leaf key => ¬ leaf.CutsOffFew key) false st operation →
      KeepsThree st operation := by
    intro st operation fits
    cases operation with
    | insert buffer key =>
      refine ⟨fun _ _ same => by cases same; exact fits.1, ?_⟩
      rintro ⟨leaf, found, crowded, few⟩
      exact (fits.2 leaf found).elim crowded fun enough => enough few
    | delete key => cases fits
    | search key => exact ⟨nofun, id⟩
  obtain ⟨st, reaches, -⟩ := Reaches.checked implies (.start constructed) checked
  exact ⟨st, reaches, leaves_hold_three reaches⟩

/-- Five of the largest tuples fill a leaf; a small one in front of them makes it cut off two. -/
theorem leaf_of_two :
    Ran (run (([1, 2, 3, 4, 5].map fun key => .insert (paddedBuffer key 795) key) ++
      [.insert (keyBuffer 0) 0])) bootstrapped
    fun _ st => ∃ leaf ∈ st.leaves, leaf.pageId ≠ st.rootPageId ∧ leaf.tuples.length = 2 := by
  decide +kernel

end Datashil
