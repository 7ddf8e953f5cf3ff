import Datashil.Proofs.Links
import Datashil.Proofs.Search

/-! The payloads a store keeps: one for each live tuple of its tree, in the order of
the leaves. An insertion adds its buffer, a deletion takes one payload with its key. -/

namespace Datashil
open Library LeafPage BTree Datashil.Tree

/-- Page ids are eight bytes long: a store with more pages cannot be allocated. -/
def Addressable (st : BTree) : Prop := st.newPageOffsetIndex ≤ 18446744073709551616

structure Filed (st : BTree) (raw payload : List Byte) : Prop where
  keyed : keyOf raw = payloadKey payload
  spells : Addressable st → Spells st.pages st.newPageOffsetIndex raw payload

/-- Every leaf leads to a leaf, or to none. -/
def Tree.Guided (st : BTree) {h : Nat} (tree : Tree h) : Prop :=
  ∀ leaf ∈ tree.leaves, leaf.rightPid = 0 ∨ leaf.rightPid < st.newPageOffsetIndex ∧ ∃ page,
    st.pages leaf.rightPid = .leaf page

/-- The tree object keeps some payloads. Where keys are in order, the leaves are linked in that
order. -/
structure Stores (cut : Nat → Nat → Prop) (st : BTree) {h : Nat} (tree : Tree h)
    (payloads : List (List Byte)) : Prop where
  represents : Represents cut st tree
  guided : tree.Guided st
  row : (∃ a b, ¬ cut a b) → RightLinked tree.leaves 0
  filed : List.Forall₂ (Filed st) tree.tuples payloads

variable {cut : Nat → Nat → Prop} {st st' : BTree} {h h' : Nat} {tree : Tree h} {tree' : Tree h'}
    {key size : Nat}
  {payloads : List (List Byte)}

theorem Filed.kept (kept : OverflowKept st st') {raw payload : List Byte}
    (filed : Filed st raw payload) : Filed st' raw payload :=
  ⟨filed.keyed, fun addressable => (filed.spells (Nat.le_trans kept.1 addressable)).kept kept⟩

theorem Stores.agrees (stores : Stores cut st tree payloads) (agrees : st.Agrees st') :
    Stores cut st' tree payloads := by
  refine ⟨stores.represents.agrees agrees, ?_, stores.row, stores.filed.imp fun raw payload filed =>
    filed.kept ⟨?_, ?_⟩⟩
  · rw [Tree.Guided, agrees.pages, agrees.counter]
    exact stores.guided
  · exact Nat.le_of_eq agrees.counter.symm
  · intro pid page _ stored
    rw [agrees.pages, stored]

theorem Stores.known (stores : Stores cut st tree payloads) :
    ∀ leaf ∈ tree.leaves, leaf.rightPid = 0 ∨ ∃ page, st.pages leaf.rightPid = .leaf page := by
  intro leaf member
  exact (stores.guided leaf member).imp_right And.right

/-- Along a row of leaves, every leaf leads to a leaf of the tree. -/
theorem Represents.guided (represents : Represents cut st tree) (linked : RightLinked tree.leaves 0) :
    tree.Guided st := by
  intro leaf member
  rcases linked.mem member with last | ⟨other, inside, same⟩
  · exact .inl last
  · refine .inr ⟨?_, other, same ▸ represents.holds.leaf inside⟩
    rw [← same]
    exact (represents.bounded _ (Tree.pageId_mem_pids inside)).2

theorem Stores.linked (rel : Cut cut) (stores : Stores cut st tree payloads) :
    RightLinked tree.leaves 0 :=
  stores.row rel.some_not

/-! ### Insertion -/

theorem LeafInserted.tuples {page : LeafPage} {pages : List LeafPage} {raw : List Byte}
    (inserted : LeafInserted cut key size page pages raw) :
    ∃ first second, page.tuples = first ++ second ∧
      pages.flatMap LeafPage.tuples = first ++ raw :: second := by
  obtain ⟨page', new, target, before, leaf, after, final, prepared, parts, -, rewritten, rfl⟩ := inserted
  obtain ⟨first, second, old, new, -⟩ := rewritten.tuples
  refine ⟨before.flatMap LeafPage.tuples ++ first, second ++ after.flatMap LeafPage.tuples, ?_, ?_⟩
  · rw [prepared.tuples, parts, List.flatMap_append, List.flatMap_cons, old]
    simp only [List.append_assoc]
  · rw [List.flatMap_append, List.flatMap_cons, new]
    simp only [List.append_assoc, List.cons_append]

/-- The tuples with the one an insertion adds, which comes with overflow pages of its own. -/
theorem Inserted.tuples {buffer : List Byte} (inserted : Inserted cut key buffer st st' tree tree') :
    ∃ raw, tree'.tuples.Perm (raw :: tree.tuples) ∧ keyOf raw = key ∧
      (Addressable st' → Spells st'.pages st'.newPageOffsetIndex raw buffer) ∧
      ∃ ids, Among st.newPageOffsetIndex st'.newPageOffsetIndex ids ∧
        (Addressable st' → Owned st'.pages raw ids) := by
  obtain ⟨front, page, pages, back, raw, before, after, -, -, leaf, keyed, spells, owned⟩ := inserted.leaves
  obtain ⟨first, second, old, new⟩ := leaf.tuples
  have parts : tree.tuples = (front.flatMap LeafPage.tuples ++ first) ++
      (second ++ back.flatMap LeafPage.tuples) := by
    rw [Tree.tuples, before, List.flatMap_append, List.flatMap_cons, old]
    simp only [List.append_assoc]
  refine ⟨raw, (after.flatMap_right _).trans ?_, keyed, spells, owned⟩
  rw [List.flatMap_append, List.flatMap_append, new, parts]
  refine .trans (.of_eq ?_) List.perm_middle
  simp only [List.append_assoc, List.cons_append]

/-- An insertion keeps the leaves linked and adds its buffer to the payloads. -/
theorem Inserted.stores {buffer : List Byte} (stores : Stores cut st tree payloads)
    (inserted : Inserted cut key buffer st st' tree tree')
    (keyed : payloadKey buffer = key) : ∃ payloads', payloads'.Perm (buffer :: payloads) ∧
      Stores cut st' tree' payloads' := by
  obtain ⟨front, page, pages, back, other, before, after, ordered, -, leaf, -⟩ := inserted.leaves
  obtain ⟨raw, tuples, rawKey, spells, -⟩ := inserted.tuples
  have filed : List.Forall₂ (Filed st') tree.tuples payloads :=
    stores.filed.imp fun _ _ => Filed.kept inserted.kept
  obtain ⟨payloads', filed', perm⟩ :=
    List.perm_comp_forall₂ tuples (filed.cons ⟨rawKey.trans keyed.symm, spells⟩)
  refine ⟨payloads', perm, inserted.represents, ?_, fun some_not => ?_, filed'⟩
  · have old : ∀ leaf ∈ tree.leaves, leaf.rightPid = 0 ∨
        leaf.rightPid < st'.newPageOffsetIndex ∧ ∃ page, st'.pages leaf.rightPid = .leaf page := by
      intro leaf member
      refine (stores.guided leaf member).imp_right ?_
      rintro ⟨below, page, stored⟩
      exact ⟨Nat.lt_of_lt_of_le below inserted.kept.1, inserted.leafKept _ page below stored⟩
    intro other member
    rw [after.mem_iff, List.mem_append, List.mem_append] at member
    rw [before] at old
    rcases member with member | member | member
    · exact old other (List.mem_append_left _ member)
    · rcases leaf.rightPids member with same | ⟨next, among, same⟩
      · rw [same]
        exact old page (List.mem_append_right _ (.head _))
      · have inside : next ∈ tree'.leaves :=
          after.mem_iff.mpr (List.mem_append_right _ (List.mem_append_left _ among))
        rw [← same]
        exact .inr ⟨(inserted.represents.bounded _ (pageId_mem_pids inside)).2, next,
          inserted.represents.holds.leaf inside⟩
    · exact old other (List.mem_append_right _ (.tail _ member))
  · have linked := stores.row some_not
    rw [before, ← List.singleton_append] at linked
    rw [ordered (inserted.order.tells some_not)]
    exact linked.replace fun _ here => leaf.rightLinked here

/-! ### Deletion -/

/-- What deleting a key takes out of a leaf: the first tuple with the key, if there is one. -/
inductive Takes (page : LeafPage) (key : Nat) : List (List Byte) → Prop
  | nothing (absent : ∀ tuple ∈ page.tuples, keyOf tuple ≠ key)
      (clean : (page.deleteTuple key).2 = false) : Takes page key []
  | first {tuple : List Byte} (member : tuple ∈ page.tuples) (keyed : keyOf tuple = key)
      (dirty : (page.deleteTuple key).2 = true) : Takes page key [tuple]

theorem takes_deleteTuple {page : LeafPage} (valid : page.Valid) (key : Nat) :
    ∃ removed, Takes page key removed ∧ (removed ++ (page.deleteTuple key).1.tuples).Perm page.tuples := by
  rcases deleteTuple_spec valid key with ⟨absent, same⟩ | ⟨first, tuple, second, result, found, same, -,
    tuples⟩
  · exact ⟨[], .nothing absent (by rw [same]), by rw [same]; exact .refl _⟩
  · refine ⟨[tuple], .first ?_ found.2.1 (by rw [same]), ?_⟩
    · rw [found.1]
      simp
    · rw [same, tuples, found.1, List.singleton_append]
      exact List.perm_middle.symm

theorem Tree.LeafDeleted.tuples {page : LeafPage} {old new : List LeafPage} {fix : Option (Nat × Nat)}
    {removed : List (List Byte)}
    (deleted : LeafDeleted cut key page old new fix)
    (taken : (removed ++ (page.deleteTuple key).1.tuples).Perm page.tuples) :
    (removed ++ new.flatMap LeafPage.tuples).Perm (old.flatMap LeafPage.tuples) := by
  have around : ∀ {a b c d : List (List Byte)}, (c ++ d).Perm (a ++ (page.deleteTuple key).1.tuples ++ b) →
      (removed ++ (c ++ d)).Perm (a ++ page.tuples ++ b) := by
    intro a b c d perm
    simp only [List.perm_iff_count, List.count_append] at perm taken ⊢
    intro tuple
    have := perm tuple
    have := taken tuple
    omega
  cases deleted with
  | alone => simpa using taken
  | lentLeft rotated => simpa using around (b := []) (by simpa using rotated.tuples)
  | lentRight rotated => simpa using around (a := []) (by simpa using rotated.tuples)
  | mergedLeft joined => simpa using around (b := []) (d := []) (by simpa using LeafMerged.tuples joined)
  | mergedRight joined => simpa using around (a := []) (d := []) (by simpa using LeafMerged.tuples joined)

theorem Tree.tuples_map_relink (fix : Option (Nat × Nat)) (leaves : List LeafPage) :
    (leaves.map (relink fix)).flatMap LeafPage.tuples = leaves.flatMap LeafPage.tuples := by
  simp [List.flatMap_map]

theorem Reduced.tuples (represents : Represents cut st tree) (reduced : Reduced cut key st st' tree tree') :
    ∃ page ∈ tree.leaves, Located key page.pageId tree ∧ ∃ removed, Takes page key removed ∧
      (removed ++ tree'.tuples).Perm tree.tuples := by
  obtain ⟨middle, fix, deleted, leaves, -⟩ := reduced.leaves
  obtain ⟨page, first, old, new, second, located, member, before, after, leaf⟩ := deleted.leaves
  obtain ⟨removed, takes, taken⟩ := takes_deleteTuple (represents.valid page member) key
  have rest := leaf.tuples taken
  refine ⟨page, member, located, removed, takes, ?_⟩
  rw [Tree.tuples, Tree.tuples, leaves, tuples_map_relink, before, after]
  simp only [List.flatMap_append, List.perm_iff_count, List.count_append] at rest ⊢
  intro tuple
  have := rest tuple
  omega

/-- A deletion keeps the leaves linked and takes out the payload of the tuple it deletes. -/
theorem Reduced.stores (stores : Stores cut st tree payloads) (reduced : Reduced cut key st st' tree tree') :
    ∃ page ∈ tree.leaves, Located key page.pageId tree ∧ ∃ removed gone kept, Takes page key removed ∧
      List.Forall₂ (Filed st) removed gone ∧ (gone ++ kept).Perm payloads ∧ Stores cut st' tree' kept := by
  obtain ⟨middle, fix, deleted, leaves, -⟩ := reduced.leaves
  obtain ⟨page, member, located, removed, takes, whole⟩ := reduced.tuples stores.represents
  obtain ⟨other, first, old, new, second, -, inside, before, after, leaf⟩ := deleted.leaves
  obtain ⟨sorted, filed, perm⟩ := List.perm_comp_forall₂ whole stores.filed
  have lower := (List.forall₂_take_append _ _ _ filed.flip).flip
  have upper := (List.forall₂_drop_append _ _ _ filed.flip).flip
  refine ⟨page, member, located, removed, sorted.take removed.length, sorted.drop removed.length, takes,
    lower, ?_, reduced.represents, ?_, fun some_not => ?_, ?_⟩
  · rw [List.take_append_drop]
    exact perm
  · intro leaf' among
    rw [leaves] at among
    obtain ⟨moved, left, rfl⟩ := List.mem_map.mp among
    have origin : ∃ old ∈ tree.leaves, old.rightPid = moved.rightPid := by
      simp only [after, List.mem_append] at left
      rw [before]
      rcases left with left | left | left
      · exact ⟨moved, List.mem_append_left _ left, rfl⟩
      · obtain ⟨origin, inside, same⟩ := leaf.rightPids (stores.represents.valid other inside) left
        exact ⟨origin, List.mem_append_right _ (List.mem_append_left _ inside), same⟩
      · exact ⟨moved, List.mem_append_right _ (List.mem_append_right _ left), rfl⟩
    obtain ⟨origin, inside, same⟩ := origin
    rw [rightPid_relink, ← same, reduced.counter]
    refine (stores.guided origin inside).imp_right ?_
    rintro ⟨below, page, stored⟩
    exact ⟨below, reduced.leafKept _ page below stored⟩
  · have linked := stores.row some_not
    rw [before] at linked
    rw [leaves, after]
    refine (linked.replace fun _ here =>
      leaf.rightLinked (stores.represents.valid other inside) here).map fun other _ => ?_
    exact ⟨pageId_relink fix other, rightPid_relink fix other⟩
  · exact upper.imp fun _ _ => Filed.kept reduced.kept

end Datashil
