import Datashil.Library.Row
import Datashil.Proofs.InternalRebalance
import Datashil.Proofs.LeafBorrow
import Datashil.Storage

/-! The tree the pages spell out. A tree of some height is a leaf page, or a page
id with a row of trees that are all one lower: leaves at different depths cannot
be written down. -/

namespace Datashil
open Library

structure Branch (α : Type) where
  pid : Nat
  row : Row Nat α

@[reducible] def Tree : Nat → Type
  | 0 => LeafPage
  | h + 1 => Branch (Tree h)

def Page.mapLeaf (f : LeafPage → LeafPage) : Page → Page
  | .leaf page => .leaf (f page)
  | page => page

namespace Tree

def pid : {h : Nat} → Tree h → Nat
  | 0, page => LeafPage.pageId page
  | _ + 1, node => Branch.pid node

def pids : {h : Nat} → Tree h → List Nat
  | 0, page => [LeafPage.pageId page]
  | _ + 1, node => Branch.pid node :: (Branch.row node).trail pids fun _ => []

def leaves : {h : Nat} → Tree h → List LeafPage
  | 0, page => [page]
  | _ + 1, node => (Branch.row node).trail leaves fun _ => []

def tuples {h : Nat} (tree : Tree h) : List (List Byte) := tree.leaves.flatMap LeafPage.tuples

def keys {h : Nat} (tree : Tree h) : List Nat := tree.tuples.map LeafPage.keyOf

def mapLeaves (f : LeafPage → LeafPage) : {h : Nat} → Tree h → Tree h
  | 0, page => f page
  | _ + 1, node => Branch.mk (Branch.pid node) ((Branch.row node).map (mapLeaves f))

/-- A store holds a tree if each page is where its id says and spells out its row. Pages outside
the tree are not looked at, so a step that changes only such pages keeps every tree. -/
def Holds (pages : Nat → Page) : {h : Nat} → Tree h → Prop
  | 0, page => pages (LeafPage.pageId page) = .leaf page
  | _ + 1, node =>
    (∃ page, pages (Branch.pid node) = .internal page ∧ page.pageId = Branch.pid node ∧
      page.Shows ((Branch.row node).map pid)) ∧ ∀ child ∈ (Branch.row node).children, Holds pages child

/-- Bounds on all keys: everything is at least `low`, and cut off by `high`. The
relation says what a key may be to the key that closes its range: less, where equal
keys stay together. -/
def Within (cut : Nat → Nat → Prop) : {h : Nat} → Nat → Tree h → Nat → Prop
  | 0, low, page, high =>
    cut low high ∧ ∀ tuple ∈ LeafPage.tuples page, low ≤ LeafPage.keyOf tuple ∧
      cut (LeafPage.keyOf tuple) high
  | _ + 1, low, node, high => (Branch.row node).Chain (Within cut) low high

/-- The least occupation of everything but the root. -/
def Full : {h : Nat} → Tree h → Prop
  | 0, page => LeafPage.tuples page ≠ []
  | _ + 1, node => 127 ≤ (Branch.row node).rest.length ∧ ∀ child ∈ (Branch.row node).children, Full child

/-- The occupation from the root on: pages without a key may pile up above the
first one that has keys. -/
def Rooted : {h : Nat} → Tree h → Prop
  | 0, _ => True
  | _ + 1, node =>
    ((Branch.row node).rest = [] ∧ Rooted (Branch.row node).head) ∨
      ((Branch.row node).rest ≠ [] ∧ ∀ child ∈ (Branch.row node).children, Full child)

/-! ### Unfolding -/

section Unfold
variable {h : Nat} {id : Nat} {row : Row Nat (Tree h)} {page : LeafPage}

@[simp] theorem pid_leaf : pid (h := 0) page = page.pageId := rfl
@[simp] theorem pid_node : pid (h := h + 1) ⟨id, row⟩ = id := rfl

@[simp] theorem pids_leaf : pids (h := 0) page = [page.pageId] := rfl
@[simp] theorem pids_node : pids (h := h + 1) ⟨id, row⟩ = id :: row.trail pids fun _ => [] := rfl

@[simp] theorem leaves_leaf : leaves (h := 0) page = [page] := rfl
@[simp] theorem leaves_node : leaves (h := h + 1) ⟨id, row⟩ = row.trail leaves fun _ => [] := rfl

@[simp] theorem mapLeaves_leaf (f : LeafPage → LeafPage) : mapLeaves (h := 0) f page = f page := rfl
@[simp] theorem mapLeaves_node (f : LeafPage → LeafPage) :
    mapLeaves (h := h + 1) f ⟨id, row⟩ = Branch.mk id (row.map (mapLeaves f)) := rfl

theorem holds_leaf {pages : Nat → Page} : Holds (h := 0) pages page ↔ pages page.pageId = .leaf page :=
  Iff.rfl

theorem holds_node {pages : Nat → Page} : Holds (h := h + 1) pages ⟨id, row⟩ ↔
    (∃ page, pages id = .internal page ∧ page.pageId = id ∧ page.Shows (row.map pid)) ∧
      ∀ child ∈ row.children, Holds pages child := Iff.rfl

theorem within_leaf {cut : Nat → Nat → Prop} {low high : Nat} : Within (h := 0) cut low page high ↔
    cut low high ∧ ∀ tuple ∈ page.tuples, low ≤ LeafPage.keyOf tuple ∧
      cut (LeafPage.keyOf tuple) high :=
  Iff.rfl

theorem within_node {cut : Nat → Nat → Prop} {low high : Nat} : Within (h := h + 1) cut low ⟨id, row⟩ high ↔
    row.Chain (Within cut) low high := Iff.rfl

theorem full_leaf : Full (h := 0) page ↔ page.tuples ≠ [] := Iff.rfl

theorem full_node : Full (h := h + 1) ⟨id, row⟩ ↔ 127 ≤ row.rest.length ∧ ∀ child ∈ row.children,
    Full child :=
  Iff.rfl

theorem rooted_node : Rooted (h := h + 1) ⟨id, row⟩ ↔
    (row.rest = [] ∧ Rooted row.head) ∨ (row.rest ≠ [] ∧ ∀ child ∈ row.children, Full child) := Iff.rfl

end Unfold

/-! ### Pages -/

variable {h : Nat} {tree : Tree h}

theorem pid_mem_pids : tree.pid ∈ tree.pids := by
  cases h with
  | zero => simp [pids, pid]
  | succ h => simp [pids, pid]

theorem mem_pids_child {id : Nat} {row : Row Nat (Tree h)} {child : Tree h}
    (member : child ∈ row.children) {other : Nat}
    (inside : other ∈ child.pids) : other ∈ pids (h := h + 1) ⟨id, row⟩ := by
  rw [pids_node]
  exact .tail _ ((Row.mem_trail _ _).mpr (.inl ⟨child, member, inside⟩))

theorem Holds.congr {pages pages' : Nat → Page} (holds : Holds pages tree)
    (same : ∀ pid ∈ tree.pids, pages' pid = pages pid) :
    Holds pages' tree := by
  induction h with
  | zero =>
    refine holds_leaf.mpr ?_
    rw [same _ (by simp [pids])]
    exact holds
  | succ h ih =>
    obtain ⟨id, row⟩ := tree
    obtain ⟨⟨page, stored, named, shown⟩, below⟩ := holds_node.mp holds
    refine holds_node.mpr ⟨⟨page, ?_, named, shown⟩, ?_⟩
    · rw [same id (by simp)]
      exact stored
    · intro child member
      exact ih (below child member) fun pid inside => same pid (mem_pids_child member inside)

@[simp] theorem pid_mapLeaves {f : LeafPage → LeafPage} (named : ∀ page, (f page).pageId = page.pageId) :
    (tree.mapLeaves f).pid = tree.pid := by
  cases h with
  | zero => exact named tree
  | succ h => rfl

theorem leaves_mapLeaves (f : LeafPage → LeafPage) : (tree.mapLeaves f).leaves = tree.leaves.map f := by
  induction h with
  | zero => rfl
  | succ h ih =>
    obtain ⟨id, row⟩ := tree
    rw [mapLeaves_node, leaves_node, leaves_node, Row.trail_map, Row.trail_congr _ _ fun child _ => ih]
    obtain ⟨head, rest⟩ := row
    simp [Row.trail, List.map_flatMap]

theorem pids_mapLeaves {f : LeafPage → LeafPage} (named : ∀ page, (f page).pageId = page.pageId) :
    (tree.mapLeaves f).pids = tree.pids := by
  induction h with
  | zero => simpa [mapLeaves, pids] using named tree
  | succ h ih =>
    obtain ⟨id, row⟩ := tree
    rw [mapLeaves_node, pids_node, pids_node, Row.trail_map, Row.trail_congr _ _ fun child _ => ih]

theorem Holds.mapLeaves {pages pages' : Nat → Page} (holds : Holds pages tree) {f : LeafPage → LeafPage}
    (named : ∀ page, (f page).pageId = page.pageId)
    (same : ∀ pid ∈ tree.pids, pages' pid = (pages pid).mapLeaf f) :
    Holds pages' (tree.mapLeaves f) := by
  induction h with
  | zero =>
    refine holds_leaf.mpr ?_
    rw [mapLeaves_leaf, named, same _ (by simp [pids]), holds_leaf.mp holds]
    rfl
  | succ h ih =>
    obtain ⟨id, row⟩ := tree
    obtain ⟨⟨page, stored, samePid, shown⟩, below⟩ := holds_node.mp holds
    rw [mapLeaves_node]
    refine holds_node.mpr ⟨⟨page, ?_, samePid, ?_⟩, ?_⟩
    · have kept := same id (by simp)
      rw [stored] at kept
      exact kept
    · have rows : ((row.map (Tree.mapLeaves f)).map pid) = row.map pid := by
        apply Row.ext_keys_children <;> simp [named]
      rw [rows]
      exact shown
    · intro child member
      obtain ⟨before, inside, rfl⟩ := List.mem_map.mp (by simpa using member)
      exact ih (below before inside) fun pid within => same pid (mem_pids_child inside within)

theorem mapLeaves_id {f : LeafPage → LeafPage} (same : ∀ page ∈ tree.leaves, f page = page) :
    tree.mapLeaves f = tree := by
  induction h with
  | zero => exact same tree (by simp [leaves])
  | succ h ih =>
    obtain ⟨id, row⟩ := tree
    rw [mapLeaves_node, Row.map_id]
    intro child member
    exact ih fun page inside => same page (by
      rw [leaves_node, Row.mem_trail]
      exact .inl ⟨child, member, inside⟩)

theorem pageId_mem_pids {leaf : LeafPage} (member : leaf ∈ tree.leaves) : leaf.pageId ∈ tree.pids := by
  induction h with
  | zero =>
    obtain rfl : leaf = tree := by simpa [leaves] using member
    exact .head _
  | succ h ih =>
    obtain ⟨id, row⟩ := tree
    rw [leaves_node, Row.mem_trail] at member
    rcases member with ⟨child, inside, found⟩ | ⟨_, _, none⟩
    · exact mem_pids_child inside (ih found)
    · simp at none

theorem Holds.leaf {pages : Nat → Page} (holds : Holds pages tree) {leaf : LeafPage}
    (member : leaf ∈ tree.leaves) :
    pages leaf.pageId = .leaf leaf := by
  induction h with
  | zero =>
    obtain rfl : leaf = tree := by simpa [leaves] using member
    exact holds
  | succ h ih =>
    obtain ⟨id, row⟩ := tree
    rw [leaves_node, Row.mem_trail] at member
    rcases member with ⟨child, inside, found⟩ | ⟨_, _, none⟩
    · exact ih (holds.2 child inside) found
    · simp at none

theorem Holds.kind {pages : Nat → Page} (holds : Holds pages tree) {pid : Nat} (inside : pid ∈ tree.pids) :
    (∃ page, pages pid = .internal page) ∨ ∃ leaf ∈ tree.leaves, leaf.pageId = pid ∧
      pages pid = .leaf leaf := by
  induction h with
  | zero =>
    obtain rfl : pid = LeafPage.pageId tree := by simpa [pids] using inside
    exact .inr ⟨tree, by simp [leaves], rfl, holds⟩
  | succ h ih =>
    obtain ⟨id, row⟩ := tree
    obtain ⟨⟨page, stored, -⟩, below⟩ := holds_node.mp holds
    rw [pids_node] at inside
    rcases List.mem_cons.mp inside with rfl | inside
    · exact .inl ⟨page, stored⟩
    · rw [Row.mem_trail] at inside
      rcases inside with ⟨child, member, found⟩ | ⟨_, _, none⟩
      · rcases ih (below child member) found with internal | ⟨leaf, among, named, stored⟩
        · exact .inl internal
        · refine .inr ⟨leaf, ?_, named, stored⟩
          rw [leaves_node, Row.mem_trail]
          exact .inl ⟨child, member, among⟩
      · simp at none

def replaceLeaf (final page : LeafPage) : LeafPage := if page.pageId = final.pageId then final else page

@[simp] theorem pageId_replaceLeaf (final page : LeafPage) :
    (replaceLeaf final page).pageId = page.pageId := by
  simp only [replaceLeaf]
  split
  next same => exact same.symm
  next => rfl

theorem Holds.replaceLeaf {pages pages' : Nat → Page} (holds : Holds pages tree) {leaf final : LeafPage}
    (member : leaf ∈ tree.leaves)
    (named : final.pageId = leaf.pageId) (stored : pages' leaf.pageId = .leaf final)
    (same : ∀ pid ∈ tree.pids, pid ≠ leaf.pageId → pages' pid = pages pid) :
    Holds pages' (tree.mapLeaves (replaceLeaf final)) := by
  refine holds.mapLeaves (pageId_replaceLeaf final) fun pid inside => ?_
  by_cases here : pid = leaf.pageId
  · rw [here, stored, holds.leaf member, Page.mapLeaf, Tree.replaceLeaf, if_pos named.symm]
  · rw [same pid inside here]
    rcases holds.kind inside with ⟨page, internal⟩ | ⟨other, -, otherPid, found⟩
    · rw [internal]
      rfl
    · rw [found, Page.mapLeaf, Tree.replaceLeaf, if_neg (by rw [named, otherPid]; exact here)]

end Tree
end Datashil
