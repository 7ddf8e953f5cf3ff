import Datashil.Proofs.Pins

/-! Long use of one tree object. -/

namespace Datashil
open Library BTree

variable {st st' : BTree} {h : Nat} {tree : Tree h} {contents : Contents}

/-- Only new pages join the tree, however long it is used, and thirteen pins are enough all the time. -/
theorem useAll_rests {usages : List Usage} (resting : Resting st tree contents)
    (fresh : Fresh contents (usages.map Usage.operation)) :
    Whenever (useAll usages) st fun _ st' => st.newPageOffsetIndex ≤ st'.newPageOffsetIndex ∧
      (Addressable st' → Guarded 13 st st') ∧
      ∃ (h' : Nat) (tree' : Tree h'), Resting st' tree' (contents.applyAll (usages.map Usage.operation)) ∧
        ∀ pid ∈ tree'.pids, pid ∈ tree.pids ∨ st.newPageOffsetIndex ≤ pid := by
  induction usages generalizing st h contents with
  | nil =>
    exact whenever_pure.mpr ⟨Nat.le_refl _, fun _ => .refl, h, tree, resting, fun pid inside =>
      .inl inside⟩
  | cons usage usages ih =>
    obtain ⟨admits, later⟩ := fresh
    rw [useAll, whenever_bind]
    refine (use_rests resting admits).imp fun result st₁ used => ?_
    obtain ⟨guarded, h₁, tree₁, resting₁, evolves⟩ := used
    rw [whenever_bind]
    refine (ih resting₁ later).imp fun results st₂ rested => whenever_pure.mpr ?_
    obtain ⟨grows, limited, h₂, tree₂, resting₂, pids⟩ := rested
    refine ⟨Nat.le_trans guarded.grows grows, fun addressable => ?_, h₂, tree₂, resting₂,
      fun pid inside => ?_⟩
    · have low : Addressable st := Nat.le_trans (Nat.le_trans guarded.grows grows) addressable
      have height := resting.affords.le low
      exact (guarded.weaken (by omega)).trans (limited addressable)
    · cases pids pid inside with
      | inl before => exact evolves.pids pid before
      | inr new => exact .inr (Nat.le_trans guarded.grows new)

/-- A page that has left the tree never comes back to it: new pages have new ids, and no operation
takes a page into the tree that it has not just allocated. -/
theorem pages_retire {usages more : List Usage} {results : List (Outcome × List (List Byte))}
    (used : Used usages st)
    (fresh : Fresh .empty ((usages ++ more).map Usage.operation))
    (returned : useAll more st = .ok results st') :
    ∀ pid < st.newPageOffsetIndex, pid ∉ st.pids → pid ∉ st'.pids := by
  rw [List.map_append] at fresh
  obtain ⟨before, later⟩ := fresh_append.mp fresh
  obtain ⟨h, tree, resting⟩ := used.rests before
  obtain ⟨-, -, h', tree', resting', pids⟩ := useAll_rests resting later _ _ returned
  rw [resting.represents.pids, resting'.represents.pids]
  intro pid old outside inside
  exact (pids pid inside).elim outside (Nat.not_le_of_lt old)

/-- The second run merges the two leaves, and gives up the root and a leaf. -/
def secondRun : List Usage := [.delete 10, .delete 30, .delete 20, .insert (paddedBuffer 80 795) 80,
    .read 70 [4000, 4000]]

theorem pages_retire_secondRun : ∃ (st st' : BTree) (results : List (Outcome × List (List Byte))),
    useAll secondRun st = .ok results st' ∧
    (∃ pid < st.newPageOffsetIndex, pid ∉ st.pids) ∧ ∀ pid < st.newPageOffsetIndex, pid ∉ st.pids →
      pid ∉ st'.pids := by
  have ran : Ran (construct >>= fun _ => useAll firstRun) bootstrapped fun _ st =>
      (∃ pid < st.newPageOffsetIndex, pid ∉ st.pids) ∧ Ran (useAll secondRun) st fun _ _ => True := by
    decide +kernel
  rw [ran_bind] at ran
  obtain ⟨_, st₀, constructed, _, st, returned, outside, results, st', returned', -⟩ := ran
  have used : Used ([] ++ firstRun) st := Used.useAll (.start constructed) returned
  refine ⟨st, st', results, returned', outside, pages_retire used ?_ returned'⟩
  rw [List.nil_append, List.map_append]
  refine fresh_append.mpr ⟨fresh_varied, trivial, trivial, trivial,
    ⟨storable_paddedBuffer (by decide) (by decide), rfl⟩, trivial, trivial⟩

/-! ### What reads return -/

namespace PayloadStream

def pieces : List Nat → List Byte → List (List Byte)
  | [], _ => []
  | n :: sizes, bytes => bytes.take n :: pieces sizes (bytes.drop n)

theorem nextAll_pieces (sizes : List Nat) {stream : PayloadStream} {bytes : List Byte}
    (yields : stream.Yields st.pages st.newPageOffsetIndex bytes) :
    Ran (nextAll sizes stream) st fun result _ => result.1 = pieces sizes bytes := by
  induction sizes generalizing st stream bytes with
  | nil => exact ran_pure.mpr rfl
  | cons n sizes ih =>
    rw [nextAll, ran_bind]
    refine (nextBytes_spec yields n).imp fun result st' read => ?_
    obtain ⟨agrees, piece, after⟩ := read
    rw [← agrees.pages, ← agrees.counter] at after
    exact ran_bind.mpr ((ih after).imp fun results _ rest => ran_pure.mpr (congrArg₂ List.cons piece rest))

end PayloadStream

/-- A search ends at the leaf for the key, and its stream yields what is there. -/
theorem Resting.search (resting : Resting st tree contents) (addressable : Addressable st) (key : Nat) :
    Ran (BTree.search key) st fun stream st' => st.Agrees st' ∧
      stream.Yields st.pages st.newPageOffsetIndex ((contents key).getD []) ∧
      ∃ leaf ∈ tree.leaves, Tree.Located key leaf.pageId tree ∧ stream = leaf.stream key := by
  have represents := resting.represents
  have arrives : Ran (BTree.search key) st fun stream _ => ∃ leaf ∈ tree.leaves,
      Tree.Located key leaf.pageId tree ∧ stream = leaf.stream key := by
    simp only [BTree.search, ran_bind, ran_get, represents.root]
    exact (Tree.searchFrom_spec _ represents.fuel represents.holds).imp fun _ _ found => found.2
  obtain ⟨stream, st', ended, agrees, -, yields⟩ := search_keeps resting.keeps key
  exact ⟨stream, st', ended, agrees, yields (.inr addressable), arrives.elim ended⟩

theorem Resting.read (resting : Resting st tree contents) (addressable : Addressable st) (key : Nat)
    (sizes : List Nat) :
    Ran (use (.read key sizes)) st fun result _ => ∃ leaf ∈ tree.leaves, Tree.Located key leaf.pageId tree ∧
      result = (.found (leaf.stream key), PayloadStream.pieces sizes ((contents key).getD [])) := by
  refine ran_bind.mpr ((resting.search addressable key).imp fun stream st₁ searched => ran_bind.mpr ?_)
  obtain ⟨agrees, yields, leaf, member, located, rfl⟩ := searched
  rw [← agrees.pages, ← agrees.counter] at yields
  exact (PayloadStream.nextAll_pieces sizes yields).imp fun result _ read =>
    ran_pure.mpr ⟨leaf, member, located, by rw [read]⟩

end Datashil
