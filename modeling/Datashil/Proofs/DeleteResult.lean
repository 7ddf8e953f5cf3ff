import Datashil.Proofs.Waves

/-! What `Delete` answers: whether the key was there, unless a page without siblings
has to be repaired on the way up. -/

namespace Datashil
open Library LeafPage BTree Datashil.Tree

theorem Keeps.loses {st : BTree} {h : Nat} {tree : Tree h} {contents : Contents}
    (keeps : Keeps st tree contents) (key : Nat) :
    tree.loses key = (contents key).isSome := by
  obtain ⟨payloads, stores, lists⟩ := keeps
  have represents := stores.represents
  obtain ⟨target, located⟩ := Tree.exists_located key tree
  obtain ⟨page, member, rfl⟩ := (represents.within Cut.strict).located_mem Cut.strict located
  rw [located.loses represents.nodup member]
  obtain ⟨removed, takes, -⟩ := takes_deleteTuple (represents.valid page member) key
  cases takes with
  | nothing absent clean =>
    rw [clean, lists.none_iff.mpr (stores.absent_of_located member located absent), Option.isSome_none]
  | first inside keyed dirty =>
    obtain ⟨payload, among, filed⟩ := stores.payload (mem_tuples member inside)
    rw [dirty, (lists.mem key payload).mpr ⟨among, filed.keyed.symm.trans keyed⟩, Option.isSome_some]

/-- After any history that inserts only absent keys, a deletion leaves its key absent; it
answers whether the key was there unless the key was and a page is orphaned. -/
theorem delete_result_iff (operations : List Operation) (fresh : Fresh .empty operations) (key : Nat) :
    Ran (run operations) bootstrapped fun _ st => ∃ (h : Nat) (tree : Tree h),
      st.rootPageId = tree.pid ∧ tree.Holds st.pages ∧
      Ran (delete (fun _ => 0) key) st fun result st' =>
        Ran (search key) st' (fun stream _ => stream.isEOF = true) ∧
          ((result = true ↔ (Contents.empty.applyAll operations key).isSome) ↔
            ¬ ((Contents.empty.applyAll operations key).isSome ∧ tree.Orphaned key)) := by
  refine (run_keeps operations fresh).imp ?_
  rintro - st ⟨h, tree, keeps⟩
  have loses := keeps.loses key
  have represents := keeps.choose_spec.1.represents
  refine ⟨h, tree, represents.root, represents.holds, (delete_keeps keeps key).imp ?_⟩
  rintro result st' ⟨rfl, h', tree', -, keeps'⟩
  constructor
  · refine (search_keeps keeps' key).imp ?_
    rintro stream - ⟨-, -, yields⟩
    have absent : (Contents.empty.applyAll operations).apply (.delete key) key = none := if_pos rfl
    have nothing := yields (.inl absent)
    rw [absent] at nothing
    exact nothing.isEOF.mpr rfl
  · rw [Tree.report_success, loses]
    tauto

theorem delete_result_iff_varied : Ran (run varied) bootstrapped fun _ st =>
    ∃ (h : Nat) (tree : Tree h), st.rootPageId = tree.pid ∧
    tree.Holds st.pages ∧ Ran (delete (fun _ => 0) 30) st fun result st' =>
      Ran (search 30) st' (fun stream _ => stream.isEOF = true) ∧
        ((result = true ↔ (Contents.empty.applyAll varied 30).isSome) ↔
          ¬ ((Contents.empty.applyAll varied 30).isSome ∧ tree.Orphaned 30)) :=
  delete_result_iff varied fresh_varied 30

/-- The last of 39781 keys, inserted in order and deleted in order, is present; the answer to its
deletion is that it is not. -/
theorem delete_denies_last : Ran (run (drained 39780)) bootstrapped fun _ st =>
    (Contents.empty.applyAll (drained 39780) 39780).isSome ∧
      Ran (delete (fun _ => 0) 39780) st fun result _ => result = false := by
  refine (run_drained (by decide) (Nat.le_refl _)).imp ?_
  rintro - st ⟨h, tree, high, keeps, few⟩
  have represents := keeps.represents
  have orphaned : tree.Orphaned 39780 := represents.rooted.orphaned represents.valid few (by omega)
  refine ⟨(drained_isSome 39780 39780).mpr rfl, (delete_keeps keeps 39780).imp ?_⟩
  rintro result - ⟨rfl, -⟩
  rw [Bool.eq_false_iff, ne_eq, Tree.report_success]
  exact fun both => both.2 orphaned

end Datashil
