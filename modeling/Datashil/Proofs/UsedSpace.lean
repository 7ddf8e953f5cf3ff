import Datashil.Proofs.AnyKeys
import Datashil.Proofs.InternalOccupation
import Datashil.Proofs.Replenishing
import Datashil.Proofs.StaleLocals

/-! What a deletion makes of the uninitialised local it passes by reference to `CheckUnderflow`, and
which deletions end in the same way whatever it holds. -/

namespace Datashil
open Library BTree Datashil.Tree

theorem InternalPage.checkUnderflow_zero (page : InternalPage) (within : page.numKeys ≤ NUM_KEY_SLOTS) :
    page.checkUnderflow 0 = (16 * page.numKeys + 8,
      decide (16 * page.numKeys + 8 ≤ INTERNAL_UNDERFLOW_THRESHOLD)) := by
  have within : page.numKeys ≤ 254 := within
  rw [checkUnderflow_eq, Nat.mod_eq_of_lt (by omega), Nat.zero_add]

/-- A deletion ends with the same answer and the same tree, whatever 16-bit values its locals start
with. -/
def Independent (st : BTree) (key : Nat) : Prop :=
  ∀ stale stale' : Nat → Nat, (∀ pid, stale pid < 65536) → (∀ pid, stale' pid < 65536) →
    Ran (delete stale key) st fun result final => Ran (delete stale' key) st fun result' final' =>
      result' = result ∧ final.Agrees final'

variable {st : BTree} {h : Nat} {tree : Tree h} {key : Nat}

theorem ran_delete {stale : Nat → Nat} {post : Bool → BTree → Prop} : Ran (delete stale key) st post ↔
    Ran (deleteFrom stale st.newPageOffsetIndex st.rootPageId key) st fun result final =>
      post result.success final := by
  simp only [delete, ran_bind, ran_get, ran_pure]

private theorem independent_of_ran (success : Bool) (final : BTree)
    (runs : ∀ stale, Ran (delete stale key) st fun result st' => result = success ∧ final.Agrees st') :
    Independent st key := by
  intro stale stale' _ _
  refine (runs stale).imp ?_
  rintro result st' ⟨rfl, agrees⟩
  refine (runs stale').imp ?_
  rintro result' st'' ⟨rfl, agrees'⟩
  exact ⟨rfl, agrees'.pages.trans agrees.pages.symm, agrees'.root.trans agrees.root.symm,
    agrees'.counter.trans agrees.counter.symm⟩

/-- The locals make a difference exactly where a deletion looks at them. -/
theorem independent_iff (represents : Represents Loose st tree)
    (known : ∀ leaf ∈ tree.leaves, leaf.rightPid = 0 ∨ ∃ page, st.pages leaf.rightPid = .leaf page) :
    Independent st key ↔ ¬ tree.Consults key := by
  have before := represents.deletable known (cleanDelete_loose key tree)
  have enough := represents.fuel
  match h, tree with
  | 0, page =>
    refine ⟨fun _ => id, fun _ => ?_⟩
    obtain ⟨result, final, ended, -⟩ := deleteFrom_spec _ enough before
    refine independent_of_ran result.success final fun stale => ran_delete.mpr ?_
    rw [represents.root]
    refine (ran_of_eq ?_).mpr ⟨rfl, .refl final⟩
    rw [pid_leaf, deleteFrom_leaf_any (show _ = Page.leaf page from before.holds)
      (Nat.zero_lt_of_lt enough) stale, ← pid_leaf, ended]
  | 1, tree =>
    refine ⟨fun _ => id, fun _ => ?_⟩
    obtain ⟨result, final, -, merged, calm⟩ := deleteFrom_runs before enough
    refine independent_of_ran result.success final fun stale => ran_delete.mpr ?_
    rw [represents.root]
    by_cases merges : MergesLeaves key tree
    · exact (ran_of_eq (merged merges stale)).mpr ⟨DeleteStatus.stained_success _ _, .refl final⟩
    · exact (ran_of_eq (calm merges stale)).mpr ⟨rfl, .refl final⟩
  | h + 2, tree =>
    constructor
    · intro independent consults
      obtain ⟨stale, stale', success, success', final, word, word', agreed, differs⟩ :=
        exists_differing before enough consults
      have same := independent stale stale' word word'
      rw [ran_delete] at same
      rw [← represents.root] at agreed differs
      obtain ⟨result, st', ended, calm, agrees⟩ := agreed
      obtain ⟨result', st'', ended', calm', different⟩ := differs
      have same := ran_delete.mp ((ran_of_eq ended).mp same)
      obtain ⟨answer, agrees'⟩ := (ran_of_eq ended').mp same
      rcases different with different | ⟨pid, different⟩
      · rw [← calm.success, ← calm'.success] at different
        exact different answer.symm
      · rw [agrees'.pages, agrees.pages] at different
        exact different rfl
    · intro apart
      obtain ⟨success, final, runs⟩ := exists_agreed before enough apart
      refine independent_of_ran success final fun stale => ran_delete.mpr ?_
      rw [represents.root]
      exact (runs stale).imp fun result st' holds => ⟨holds.1.success, holds.2⟩

/-! ### Runs -/

/-- Trees that any operations have led to, where the locals of a deletion start at 0 or do not
matter to it. -/
inductive Proceeds : BTree → Prop
  | start {st : BTree} (constructed : construct bootstrapped = .ok () st) : Proceeds st
  | step {st st' : BTree} {operation : Operation} {outcome : Outcome} (proceeds : Proceeds st)
      (storing : Storing st operation)
      (performed : perform operation st = .ok outcome st') : Proceeds st'
  | delete {st st' : BTree} {key : Nat} {stale : Nat → Nat} {result : Bool} (proceeds : Proceeds st)
      (apart : ∀ (h : Nat) (tree : Tree h), st.rootPageId = tree.pid → tree.Holds st.pages →
        ¬ tree.Consults key)
      (words : ∀ pid, stale pid < 65536) (deleted : BTree.delete stale key st = .ok result st') : Proceeds st'

theorem Proceeds.stores (proceeds : Proceeds st) :
    ∃ (h : Nat) (tree : Tree h) (payloads : List (List Byte)), Stores Loose st tree payloads := by
  induction proceeds with
  | start constructed => exact ⟨0, _, [], (construct_spec Loose trivial).elim constructed⟩
  | step proceeds storing performed ih =>
    obtain ⟨h, tree, payloads, stores⟩ := ih
    exact (perform_any stores storing).elim performed
  | @delete st st' key stale result proceeds apart words deleted ih =>
    obtain ⟨h, tree, payloads, stores⟩ := ih
    have represents := stores.represents
    have independent := (independent_iff represents stores.known).mpr
      (apart h tree represents.root represents.holds)
    obtain ⟨_, final, zero, _, h', tree', gone, kept, -, -, -, stores'⟩ := delete_any stores key
    have same := (ran_of_eq zero).mp (independent (fun _ => 0) stale (fun _ => by decide) words)
    exact ⟨h', tree', kept, stores'.agrees ((ran_of_eq deleted).mp same).2⟩

theorem Reaches.proceeds {operations : List Operation} (reaches : Reaches Storing operations st) :
    Proceeds st := by
  induction reaches with
  | start constructed => exact .start constructed
  | step reaches allows performed ih => exact .step ih allows performed

/-- `CheckUnderflow` computes the bytes used exactly when the local starts at 0. In every run up to
there, a deletion does not depend on its locals exactly if it does not merge leaves two levels or
more below the root, other than for an absent key below a page without a sibling. -/
theorem delete_independent_iff (page : InternalPage) (usedspace : Nat)
    (within : page.numKeys ≤ NUM_KEY_SLOTS) (word : usedspace < 65536)
    (proceeds : Proceeds st) (key : Nat) :
    (page.checkUnderflow usedspace = (16 * page.numKeys + 8,
      decide (16 * page.numKeys + 8 ≤ INTERNAL_UNDERFLOW_THRESHOLD)) ↔
      usedspace = 0) ∧
    ∃ (h : Nat) (tree : Tree h), st.rootPageId = tree.pid ∧ tree.Holds st.pages ∧
      (Independent st key ↔ ¬ tree.Consults key) := by
  constructor
  · constructor
    · intro exactly
      have few : page.numKeys ≤ 254 := within
      rw [page.checkUnderflow_eq] at exactly
      have used := congrArg Prod.fst exactly
      simp only at used
      omega
    · rintro rfl
      exact page.checkUnderflow_zero within
  · obtain ⟨h, tree, payloads, stores⟩ := proceeds.stores
    exact ⟨h, tree, stores.represents.root, stores.represents.holds,
      independent_iff stores.represents stores.known⟩

theorem delete_independent_iff_sixKeys : ∃ st, Proceeds st ∧
    ((⟨2, 126, fun _ => 0⟩ : InternalPage).checkUnderflow 3 = (2024, true) ↔ 3 = 0) ∧
    ∃ (h : Nat) (tree : Tree h), st.rootPageId = tree.pid ∧ tree.Holds st.pages ∧
      (Independent st 4 ↔ ¬ tree.Consults 4) := by
  obtain ⟨_, st, -, reaches⟩ := run_storing sixKeys (fresh_storable fresh_sixKeys)
  exact ⟨st, reaches.proceeds, delete_independent_iff ⟨2, 126, fun _ => 0⟩ 3 (by decide)
    (by decide) reaches.proceeds 4⟩

/-- Somewhere in the wave that leaves the root without keys, a deletion depends on its locals. -/
theorem exists_dependent {last : Nat} (small : last < KEY_LIMIT) (many : 39780 ≤ last) :
    ∃ st key, Proceeds st ∧ ¬ Independent st key := by
  have fresh := fresh_drained small
  obtain ⟨_, st, ended, h, tree, high, keeps, few⟩ := run_drained small many
  have reaches := (run_storing (drained last) (fresh_storable fresh)).elim ended
  rcases reaches_keyed reaches fresh with ⟨_, st₀, key, reaches₀, -, -, h₀, tree₀, keeps₀, loses⟩ | ⟨h',
    tree', keeps', keyed⟩
  · refine ⟨st₀, key, reaches₀.proceeds, fun independent => ?_⟩
    obtain ⟨payloads, stores, -⟩ := keeps₀
    exact (independent_iff stores.represents.loosen stores.known).mp independent loses.consults
  · obtain ⟨page, stored, none⟩ := keeps.thin_root high few
    rw [keeps'.represents.root] at stored
    match h', tree' with
    | 0, leaf => cases stored.symm.trans keeps'.represents.holds
    | h' + 1, ⟨id, row⟩ =>
      obtain ⟨⟨page', stored', -, shown⟩, -⟩ := Tree.holds_node.mp keeps'.represents.holds
      cases Page.internal.inj (stored.symm.trans stored')
      rw [shown.numKeys, Row.length_rest_map, List.length_eq_zero_iff] at none
      exact absurd none keyed

/-- A page with 126 keys uses 2024 bytes and underflows; with 3 in the local it does not. On some
tree a deletion ends differently. -/
theorem checkUnderflow_misses :
    (∃ page : InternalPage, page.numKeys = 126 ∧ page.checkUnderflow 3 = (2027, false) ∧
      page.checkUnderflow 0 = (2024, true)) ∧
      ∃ st key, Proceeds st ∧ ¬ Independent st key :=
  ⟨⟨⟨2, 126, fun _ => 0⟩, rfl, by decide, by decide⟩, exists_dependent (by decide) (Nat.le_refl 39780)⟩

end Datashil
