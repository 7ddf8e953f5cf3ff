import Datashil.Proofs.Store
import Datashil.Proofs.TreeOrder

/-! Making room for a tuple: the splits along the path of its key. -/

namespace Datashil
open Library LeafPage

/-- Two leaves share no key across the cut. -/
def LeafPage.Separated (cut : Nat → Nat → Prop) (left right : LeafPage) : Prop :=
  ∀ first ∈ left.tuples, ∀ second ∈ right.tuples, cut (keyOf first) (keyOf second)

/-- A leaf with room for the buffer stays; any other is split. -/
inductive LeafPrepared (cut : Nat → Nat → Prop) (key size : Nat) (page : LeafPage) :
    LeafPage → Option (Nat × LeafPage) → Nat → Prop
  | fits (room : page.HasRoom size) : LeafPrepared cut key size page page none page.pageId
  | splits {left right : LeafPage} {newPid boundaryKey : Nat} (crowded : ¬ page.HasRoom size)
      (halved : Halved page newPid left right boundaryKey) (separated : Separated cut left right) :
      LeafPrepared cut key size page left (some (boundaryKey, right))
        (if boundaryKey ≤ key then newPid else page.pageId)

inductive Spliced {α : Type} (pid : Nat) (left : List (α × Nat)) (child : α) (right : List (Nat × α)) :
    Option (Nat × α) → Branch α → Option (Nat × Branch α) → Prop
  | kept : Spliced pid left child right none ⟨pid, Row.close left child right⟩ none
  | grown {boundary : Nat} {new : α} (room : left.length + right.length < NUM_KEY_SLOTS) :
      Spliced pid left child right (some (boundary, new))
        ⟨pid, Row.close left child ((boundary, new) :: right)⟩ none
  | burst {boundary : Nat} {new : α} {low high : Row Nat α} {middle newPid : Nat}
      (joined : Row.close left child ((boundary, new) :: right) = low.join middle high)
      (lowCount : low.rest.length = 127) (highCount : high.rest.length = 127) :
      Spliced pid left child right (some (boundary, new)) ⟨pid, low⟩ (some (middle, ⟨newPid, high⟩))

/-- The same wherever the search for the boundary key ends, which is right behind the child as
long as keys are in order. -/
inductive Absorbed {α : Type} (pid : Nat) (row : Row Nat α) :
    Option (Nat × α) → Branch α → Option (Nat × Branch α) → Prop
  | kept : Absorbed pid row none ⟨pid, row⟩ none
  | grown {left : List (α × Nat)} {child : α} {right : List (Nat × α)} {boundary : Nat} {new : α}
      (parts : row = Row.close left child right) (found : Row.Found left boundary right)
      (room : left.length + right.length < NUM_KEY_SLOTS) :
      Absorbed pid row (some (boundary, new)) ⟨pid, Row.close left child ((boundary, new) :: right)⟩ none
  | burst {left : List (α × Nat)} {child : α} {right : List (Nat × α)} {boundary : Nat} {new : α}
      {low high : Row Nat α}
      {middle newPid : Nat} (parts : row = Row.close left child right) (found : Row.Found left boundary right)
      (joined : Row.close left child ((boundary, new) :: right) = low.join middle high)
      (lowCount : low.rest.length = 127) (highCount : high.rest.length = 127) :
      Absorbed pid row (some (boundary, new)) ⟨pid, low⟩ (some (middle, ⟨newPid, high⟩))

theorem Absorbed.spliced {α : Type} {pid : Nat} {left : List (α × Nat)} {child : α}
    {right : List (Nat × α)} {split' : Option (Nat × α)}
    {node' : Branch α} {split : Option (Nat × Branch α)}
    (absorbed : Absorbed pid (Row.close left child right) split' node' split)
    (here : ∀ boundary new, split' = some (boundary, new) → Row.Bracket left boundary right) :
    Spliced pid left child right split' node' split := by
  cases absorbed with
  | kept => exact .kept
  | grown parts found room =>
    obtain ⟨rfl, rfl, rfl⟩ := (here _ _ rfl).found.unique found parts
    exact .grown room
  | burst parts found joined lowCount highCount =>
    obtain ⟨rfl, rfl, rfl⟩ := (here _ _ rfl).found.unique found parts
    exact .burst joined lowCount highCount

theorem Absorbed.children {α : Type} {pid : Nat} {row : Row Nat α} {split' : Option (Nat × α)}
    {node' : Branch α}
    {split : Option (Nat × Branch α)} (absorbed : Absorbed pid row split' node' split) :
    (node'.row.children ++ split.toList.flatMap fun entry => entry.2.row.children).Perm
      (row.children ++ split'.toList.map Prod.snd) := by
  have added : ∀ (left : List (α × Nat)) (child : α) (right : List (Nat × α)) (boundary : Nat) (new : α),
      (Row.close left child ((boundary, new) :: right)).children.Perm
        ((Row.close left child right).children ++ [new]) := by
    intro left child right boundary new
    rw [Row.children_close, Row.children_close, List.append_assoc]
    refine List.Perm.append_left _ ?_
    rw [List.cons_append, List.map_cons]
    exact (List.perm_append_singleton _ _).symm.cons _
  cases absorbed with
  | kept => simp
  | @grown left child right boundary new parts =>
    subst parts
    simpa using added left child right boundary new
  | @burst left child right boundary new _ _ _ _ parts found joined =>
    subst parts
    have whole := added left child right boundary new
    rw [joined, Row.children_join] at whole
    simpa using whole

namespace Tree

/-- A tree with room for a buffer in the leaf of its key, split off above where
that was needed. The last argument is the page to write to. -/
def Placed (key size : Nat) : {h : Nat} → Tree h → Tree h → Option (Nat × Tree h) → Nat → Prop
  | 0, page, page', split, target => LeafPrepared Loose key size page page' split target
  | _ + 1, node, node', split, target => ∃ left child right child' split',
      (Branch.row node) = Row.close left child right ∧ Row.Found left key right ∧
        Placed key size child child' split' target ∧
        Absorbed (Branch.pid node) (Row.close left child' right) split' node' split

/-- The same where keys are in order. -/
def Prepared (cut : Nat → Nat → Prop) (key size : Nat) :
    {h : Nat} → Tree h → Tree h → Option (Nat × Tree h) → Nat → Prop
  | 0, page, page', split, target => LeafPrepared cut key size page page' split target
  | _ + 1, node, node', split, target => ∃ left child right child' split',
      (Branch.row node) = Row.close left child right ∧ Row.Found left key right ∧
        Prepared cut key size child child' split' target ∧
        Spliced (Branch.pid node) left child' right split' node' split

variable {h : Nat} {tree tree' : Tree h} {split : Option (Nat × Tree h)} {cut : Nat → Nat → Prop}
  {key size target low high : Nat}

theorem placed_leaf {page page' : LeafPage} {split : Option (Nat × LeafPage)} :
    Placed (h := 0) key size page page' split target ↔
      LeafPrepared Loose key size page page' split target :=
  Iff.rfl

theorem placed_node {id : Nat} {row : Row Nat (Tree h)} {node' : Tree (h + 1)}
    {split : Option (Nat × Tree (h + 1))} :
    Placed (h := h + 1) key size ⟨id, row⟩ node' split target ↔ ∃ left child right child' split',
      row = Row.close left child right ∧ Row.Found left key right ∧
        Placed key size child child' split' target ∧
        Absorbed id (Row.close left child' right) split' node' split := Iff.rfl

theorem prepared_leaf {page page' : LeafPage} {split : Option (Nat × LeafPage)} :
    Prepared (h := 0) cut key size page page' split target ↔
      LeafPrepared cut key size page page' split target :=
  Iff.rfl

theorem prepared_node {id : Nat} {row : Row Nat (Tree h)} {node' : Tree (h + 1)}
    {split : Option (Nat × Tree (h + 1))} :
    Prepared (h := h + 1) cut key size ⟨id, row⟩ node' split target ↔ ∃ left child right child' split',
      row = Row.close left child right ∧ Row.Found left key right ∧
        Prepared cut key size child child' split' target ∧
        Spliced id left child' right split' node' split := Iff.rfl

/-! ### Bounds -/

def WithinSplit (cut : Nat → Nat → Prop) (low : Nat) (tree : Tree h) : Option (Nat × Tree h) → Nat → Prop
  | none, high => Within cut low tree high
  | some (boundary, new), high => Within cut low tree boundary ∧ Within cut boundary new high

theorem boundary_mem {page left right : LeafPage} {newPid boundaryKey : Nat}
    (halved : Halved page newPid left right boundaryKey) :
    ∃ first rest, right.tuples = first :: rest ∧ keyOf first = boundaryKey := by
  have boundary := halved.boundary
  cases tuples : right.tuples with
  | nil => rw [tuples] at boundary; simp at boundary
  | cons first rest =>
    rw [tuples] at boundary
    exact ⟨first, rest, rfl, by simpa using boundary⟩

private theorem LeafPrepared.within (rel : Cut cut) {page page' : LeafPage} {split : Option (Nat × LeafPage)}
    (prepared : LeafPrepared cut key size page page' split target)
    (within : Within (h := 0) cut low page high) :
    WithinSplit (h := 0) cut low page' split high := by
  cases prepared with
  | fits => exact within
  | @splits _ right newPid boundaryKey crowded halved separated =>
    obtain ⟨-, keys⟩ := within_leaf.mp within
    rw [halved.tuples] at keys
    obtain ⟨first, rest, tuples, rfl⟩ := boundary_mem halved
    have firstMem : first ∈ right.tuples := by rw [tuples]; exact List.mem_cons_self
    have inRight := fun tuple member => keys tuple (List.mem_append_right page'.tuples member)
    have inLeft := fun tuple member => keys tuple (List.mem_append_left right.tuples member)
    obtain ⟨lower, member⟩ := List.exists_mem_of_ne_nil page'.tuples halved.nonempty
    refine ⟨within_leaf.mpr ⟨rel.left (inLeft lower member).1 (separated lower member first firstMem), ?_⟩,
      within_leaf.mpr ⟨(inRight first firstMem).2, ?_⟩⟩
    · intro tuple inside
      exact ⟨(inLeft tuple inside).1, separated tuple inside first firstMem⟩
    · intro tuple inside
      refine ⟨?_, (inRight tuple inside).2⟩
      have sorted := halved.rightMade.valid.keys_sorted
      rw [tuples, List.map_cons, List.pairwise_cons] at sorted
      rw [tuples] at inside
      rcases List.mem_cons.mp inside with rfl | inside
      · exact Nat.le_refl _
      · exact sorted.1 _ (List.mem_map_of_mem inside)

theorem Prepared.within (rel : Cut cut) (prepared : Prepared cut key size tree tree' split target)
    (within : Within cut low tree high) :
    WithinSplit cut low tree' split high := by
  induction h generalizing low high with
  | zero => exact LeafPrepared.within rel (prepared_leaf.mp prepared) within
  | succ h ih =>
    obtain ⟨id, row⟩ := tree
    obtain ⟨left, child, right, child', split', rfl, bracket, below, spliced⟩ := prepared_node.mp prepared
    obtain ⟨before, here, after⟩ := Row.chain_close.mp (within_node.mp within)
    have inner := ih below here
    cases spliced with
    | kept => exact within_node.mpr (Row.chain_close.mpr ⟨before, inner, after⟩)
    | @grown boundary new =>
      exact within_node.mpr (show (Row.close left child' ((boundary, new) :: right)).Chain
        (Within cut) low high from
        Row.chain_close.mpr ⟨before, inner.1, inner.2, after⟩)
    | @burst boundary new lower middle upper newPid joined =>
      have chain : (Row.close left child' ((boundary, new) :: right)).Chain (Within cut) low high :=
        Row.chain_close.mpr ⟨before, inner.1, inner.2, after⟩
      rw [joined, Row.chain_join] at chain
      exact ⟨within_node.mpr chain.1, within_node.mpr chain.2⟩

/-! ### The page to write to -/

def LocatedSplit (key target : Nat) (tree : Tree h) : Option (Nat × Tree h) → Prop
  | none => Located key target tree
  | some (boundary, new) => if boundary ≤ key then Located key target new else Located key target tree

theorem Prepared.located (rel : Cut cut) (prepared : Prepared cut key size tree tree' split target)
    (within : Within cut low tree high) : LocatedSplit key target tree' split := by
  induction h generalizing low high with
  | zero =>
    cases prepared_leaf.mp prepared with
    | fits => exact rfl
    | splits crowded halved separated =>
      simp only [LocatedSplit]
      split
      · exact located_leaf.mpr halved.rightIds.1
      · exact located_leaf.mpr halved.leftIds.1
  | succ h ih =>
    obtain ⟨id, row⟩ := tree
    have whole := prepared.within rel within
    obtain ⟨left, child, right, child', split', rfl, found, below, spliced⟩ := prepared_node.mp prepared
    have bracket := found.bracket (within.sorted_keys rel)
    have inner := ih below (Row.chain_close.mp (within_node.mp within)).2.1
    -- The place of the key among the children, before the page itself is split.
    have place : ∀ boundary new, split' = some (boundary, new) → ∃ left' found right',
        Row.close left child' ((boundary, new) :: right) = Row.close left' found right' ∧
          Row.Bracket left' key right' ∧
          Located key target found := by
      rintro boundary new rfl
      simp only [LocatedSplit] at inner
      split at inner
      next inside =>
        refine ⟨(child', boundary) :: left, new, right, rfl, ⟨?_, bracket.2⟩, inner⟩
        intro entry member
        rcases List.mem_cons.mp member with rfl | member
        · exact inside
        · exact bracket.1 entry member
      next outside =>
        refine ⟨left, child', (boundary, new) :: right, rfl, ⟨bracket.1, ?_⟩, inner⟩
        intro entry member
        rcases List.mem_cons.mp member with rfl | member
        · exact Nat.lt_of_not_le outside
        · exact bracket.2 entry member
    cases spliced with
    | kept => exact ⟨left, child', right, rfl, bracket.found, inner⟩
    | grown =>
      obtain ⟨left', here, right', same, bracket', located⟩ := place _ _ rfl
      exact ⟨left', here, right', same, bracket'.found, located⟩
    | burst joined =>
      obtain ⟨left', here, right', same, bracket', located⟩ := place _ _ rfl
      have chain := Row.chain_join.mpr ⟨within_node.mp whole.1, within_node.mp whole.2⟩
      rw [joined] at same
      have sorted := Within.sorted_keys rel (show Within (h := h + 1) cut low ⟨id, _⟩ high from
        within_node.mpr chain)
      have choice := Row.locate_join same.symm bracket' sorted
      simp only [LocatedSplit]
      split
      next inside =>
        rw [if_pos inside] at choice
        obtain ⟨l, r, same, bracket⟩ := choice
        exact ⟨l, _, r, same, bracket.found, located⟩
      next outside =>
        rw [if_neg outside] at choice
        obtain ⟨l, r, same, bracket⟩ := choice
        exact ⟨l, _, r, same, bracket.found, located⟩

/-! ### Leaves and occupation -/

def splitLeaves : Option (Nat × Tree h) → List LeafPage
  | none => []
  | some (_, new) => new.leaves

def splitPids : Option (Nat × Tree h) → List Nat
  | none => []
  | some (_, new) => new.pids

theorem Prepared.leaves (prepared : Prepared cut key size tree tree' split target) :
    ∃ first page page' new second, tree.leaves = first ++ page :: second ∧ Located key page.pageId tree ∧
      LeafPrepared cut key size page page' new target ∧
      tree'.leaves ++ splitLeaves split = first ++ page' :: (new.toList.map Prod.snd ++ second) := by
  induction h with
  | zero =>
    refine ⟨[], tree, tree', split, [], rfl, rfl, prepared, ?_⟩
    cases split <;> simp [Tree.leaves, splitLeaves]
  | succ h ih =>
    obtain ⟨id, row⟩ := tree
    obtain ⟨left, child, right, child', split', rfl, bracket, below, spliced⟩ := prepared_node.mp prepared
    obtain ⟨first, page, page', new, second, leaves, located, leaf, leaves'⟩ := ih below
    refine ⟨Row.before Tree.leaves (fun _ => []) left ++ first, page, page', new,
      second ++ Row.after Tree.leaves (fun _ => []) right, ?_,
        ⟨left, child, right, rfl, bracket, located⟩, leaf, ?_⟩
    · rw [leaves_focus, leaves]
      simp
    · have outside : ∀ rest, Row.before Tree.leaves (fun _ => []) left ++
        (child'.leaves ++ (splitLeaves split' ++ rest)) =
          Row.before Tree.leaves (fun _ => []) left ++ first ++ page' ::
            (new.toList.map Prod.snd ++ (second ++ rest)) := by
        intro rest
        rw [← List.append_assoc child'.leaves, leaves']
        simp
      rw [← outside]
      cases spliced with
      | kept => simp [splitLeaves]
      | grown => simp [splitLeaves]
      | burst joined =>
        simp only [splitLeaves, leaves_node]
        have joined := congrArg (fun row => row.trail Tree.leaves fun _ => []) joined
        simpa using joined.symm

theorem siblings_of_children {p : Tree h → Prop} {left : List (Tree h × Nat)} {child : Tree h}
    {right : List (Nat × Tree h)} (all : ∀ other ∈ (Row.close left child right).children, p other) :
    (∀ sibling key, (sibling, key) ∈ left → p sibling) ∧ p child ∧ ∀ key sibling,
      (key, sibling) ∈ right → p sibling :=
  ⟨fun sibling key member => all sibling (Row.mem_children_close.mpr (.inl ⟨key, member⟩)),
    all child (Row.mem_children_close.mpr (.inr (.inl rfl))),
    fun key sibling member => all sibling (Row.mem_children_close.mpr (.inr (.inr ⟨key, member⟩)))⟩

theorem children_of_siblings {p : Tree h → Prop} {left : List (Tree h × Nat)} {child : Tree h}
    {right : List (Nat × Tree h)}
    (lefts : ∀ sibling key, (sibling, key) ∈ left → p sibling) (here : p child)
    (rights : ∀ key sibling, (key, sibling) ∈ right → p sibling) :
    ∀ other ∈ (Row.close left child right).children, p other := by
  intro other member
  rcases Row.mem_children_close.mp member with ⟨key, inside⟩ | rfl | ⟨key, inside⟩
  · exact lefts other key inside
  · exact here
  · exact rights key other inside

private theorem LeafPrepared.full {page page' : LeafPage} {split : Option (Nat × LeafPage)}
    {boundary : Nat} {new : LeafPage}
    (prepared : LeafPrepared cut key size page page' split target) (splits : split = some (boundary, new)) :
    Full (h := 0) page' ∧ Full (h := 0) new := by
  subst splits
  cases prepared with
  | splits crowded halved separated =>
    obtain ⟨first, rest, tuples, -⟩ := boundary_mem halved
    exact ⟨full_leaf.mpr halved.nonempty, full_leaf.mpr (by rw [tuples]; simp)⟩

theorem leaves_row (id : Nat) (row : Row Nat (Tree h)) :
    leaves (h := h + 1) ⟨id, row⟩ = row.children.flatMap leaves := by
  obtain ⟨head, rest⟩ := row
  rw [leaves_node, Row.trail_mk, Row.after, Row.children_mk, List.flatMap_cons, List.flatMap_map]
  rfl

theorem pids_row (id : Nat) (row : Row Nat (Tree h)) :
    pids (h := h + 1) ⟨id, row⟩ = id :: row.children.flatMap pids := by
  obtain ⟨head, rest⟩ := row
  rw [pids_node, Row.trail_mk, Row.after, Row.children_mk, List.flatMap_cons, List.flatMap_map]
  rfl

theorem Placed.leaves (placed : Placed key size tree tree' split target) :
    ∃ first page page' new second, tree.leaves = first ++ page :: second ∧ Located key page.pageId tree ∧
      LeafPrepared Loose key size page page' new target ∧
      (tree'.leaves ++ splitLeaves split).Perm (first ++ page' :: (new.toList.map Prod.snd ++ second)) := by
  induction h with
  | zero =>
    refine ⟨[], tree, tree', split, [], rfl, rfl, placed, ?_⟩
    cases split <;> simp [Tree.leaves, splitLeaves]
  | succ h ih =>
    obtain ⟨id, row⟩ := tree
    obtain ⟨left, child, right, child', split', rfl, found, below, absorbed⟩ := placed_node.mp placed
    obtain ⟨first, page, page', new, second, leaves, located, leaf, leaves'⟩ := ih below
    refine ⟨Row.before Tree.leaves (fun _ => []) left ++ first, page, page', new,
      second ++ Row.after Tree.leaves (fun _ => []) right, ?_,
        ⟨left, child, right, rfl, found, located⟩, leaf, ?_⟩
    · rw [leaves_focus, leaves]
      simp
    · have whole := absorbed.children.flatMap_right Tree.leaves
      rw [List.flatMap_append, List.flatMap_append, ← leaves_row id (Row.close left child' right),
        leaves_focus] at whole
      have parts : Tree.leaves (h := h + 1) tree' ++ splitLeaves (h := h + 1) split =
          tree'.row.children.flatMap Tree.leaves ++
            (split.toList.flatMap fun entry => entry.2.row.children).flatMap Tree.leaves := by
        obtain ⟨own, row⟩ := tree'
        rw [leaves_row]
        cases split with
        | none => rfl
        | some entry =>
          obtain ⟨boundary, other, row⟩ := entry
          simp [splitLeaves, ← leaves_row other row]
      have fresh : (split'.toList.map Prod.snd).flatMap Tree.leaves = splitLeaves split' := by
        cases split' <;> simp [splitLeaves]
      rw [parts]
      refine whole.trans ?_
      rw [fresh, List.append_assoc, List.append_assoc, List.append_assoc]
      refine List.Perm.append_left _ ((List.perm_append_comm.append_left _).trans ?_)
      rw [← List.append_assoc]
      refine (leaves'.append_right _).trans ?_
      simp

private theorem full_of_absorbed {id : Nat} {row : Row Nat (Tree h)} {split' : Option (Nat × Tree h)}
    {node' : Branch (Tree h)}
    {split : Option (Nat × Branch (Tree h))} (absorbed : Absorbed id row split' node' split)
    (children : ∀ child ∈ row.children, Full child)
    (newFull : ∀ boundary new, split' = some (boundary, new) → Full new) :
    (∀ other ∈ node'.row.children, Full other) ∧
      (∀ boundary new, split = some (boundary, new) → 127 ≤ node'.row.rest.length ∧ Full (h := h + 1) new) ∧
      (row.rest.length ≤ node'.row.rest.length ∨ 127 ≤ node'.row.rest.length) := by
  have all : ∀ other, other ∈ node'.row.children ∨ (∃ entry ∈ split, other ∈ entry.2.row.children) →
      Full other := by
    intro other member
    have among : other ∈ row.children ++ split'.toList.map Prod.snd := by
      refine absorbed.children.mem_iff.mp (List.mem_append.mpr (member.imp_right ?_))
      rintro ⟨entry, here, inside⟩
      exact List.mem_flatMap.mpr ⟨entry, Option.mem_toList.mpr here, inside⟩
    rcases List.mem_append.mp among with old | new
    · exact children other old
    · obtain ⟨⟨boundary, tree⟩, inside, rfl⟩ := List.mem_map.mp new
      exact newFull boundary tree (Option.mem_toList.mp inside)
  refine ⟨fun other member => all other (.inl member), ?_, ?_⟩
  · rintro boundary new rfl
    cases absorbed with
    | burst parts found joined lowCount highCount =>
      exact ⟨Nat.le_of_eq lowCount.symm,
        full_node.mpr ⟨Nat.le_of_eq highCount.symm, fun other member =>
        all other (.inr ⟨_, rfl, member⟩)⟩⟩
  · cases absorbed with
    | kept => exact .inl (Nat.le_refl _)
    | grown parts =>
      subst parts
      refine .inl ?_
      simp only [Row.length_rest_close, List.length_cons]
      omega
    | burst parts found joined lowCount => exact .inr (Nat.le_of_eq lowCount.symm)

theorem Placed.full (placed : Placed key size tree tree' split target) (full : Full tree) :
    Full tree' ∧ ∀ boundary new, split = some (boundary, new) → Full new := by
  induction h with
  | zero =>
    refine ⟨?_, fun boundary new splits => (LeafPrepared.full placed splits).2⟩
    cases split with
    | none => cases placed_leaf.mp placed; exact full
    | some entry => exact (LeafPrepared.full placed rfl).1
  | succ h ih =>
    obtain ⟨id, row⟩ := tree
    obtain ⟨left, child, right, child', split', rfl, found, below, absorbed⟩ := placed_node.mp placed
    obtain ⟨count, children⟩ := full_node.mp full
    obtain ⟨lefts, here, rights⟩ := siblings_of_children children
    obtain ⟨childFull, newFull⟩ := ih below here
    obtain ⟨all, splits, least⟩ := full_of_absorbed absorbed
      (children_of_siblings lefts childFull rights) newFull
    simp only [Row.length_rest_close] at count least
    exact ⟨full_node.mpr ⟨by omega, all⟩, fun boundary new same => (splits boundary new same).2⟩

/-- With a new root above the parts of a split, occupation holds from the root on. -/
theorem Placed.rooted (placed : Placed key size tree tree' split target) (rooted : Rooted tree) :
    Rooted tree' ∧ ∀ boundary new, split = some (boundary, new) → Full tree' ∧ Full new := by
  induction h with
  | zero => exact ⟨trivial, fun boundary new splits => LeafPrepared.full placed splits⟩
  | succ h ih =>
    obtain ⟨id, row⟩ := tree
    obtain ⟨left, child, right, child', split', rfl, found, below, absorbed⟩ := placed_node.mp placed
    rcases rooted_node.mp rooted with ⟨single, headRooted⟩ | ⟨several, children⟩
    · -- A page without keys: its only child may get a sibling.
      obtain ⟨rfl, rfl⟩ : left = [] ∧ right = [] := by
        have := congrArg List.length single
        simpa using this
      obtain ⟨childRooted, parts⟩ := ih below headRooted
      cases absorbed with
      | kept => exact ⟨rooted_node.mpr (.inl ⟨rfl, childRooted⟩), by simp⟩
      | @grown left other right boundary new same =>
        obtain ⟨childFull, newFull⟩ := parts _ _ rfl
        obtain ⟨rfl, rfl⟩ : left = [] ∧ right = [] := by
          have := congrArg (fun row => row.rest.length) same
          simpa [eq_comm] using this
        cases same
        exact ⟨rooted_node.mpr (.inr ⟨by simp, by simpa using ⟨childFull, newFull⟩⟩), by simp⟩
      | burst same found joined lowCount highCount =>
        have count := congrArg (fun row => row.rest.length) joined
        have before := congrArg (fun row => row.rest.length) same
        simp only [Row.length_rest_close, Row.length_rest_join, List.length_cons, List.length_nil]
          at count before
        omega
    · obtain ⟨lefts, here, rights⟩ := siblings_of_children children
      obtain ⟨childFull, newFull⟩ := below.full here
      obtain ⟨all, splits, least⟩ := full_of_absorbed absorbed
        (children_of_siblings lefts childFull rights) newFull
      have keyed : 0 < left.length + right.length := by
        rw [← Row.length_rest_close left child right]
        exact List.length_pos_iff.mpr several
      rw [Row.length_rest_close] at least
      refine ⟨?_, fun boundary new same =>
        ⟨full_node.mpr ⟨(splits boundary new same).1, all⟩, (splits boundary new same).2⟩⟩
      refine rooted_node.mpr (.inr ⟨?_, all⟩)
      exact List.length_pos_iff.mp (by omega)

end Tree
end Datashil
