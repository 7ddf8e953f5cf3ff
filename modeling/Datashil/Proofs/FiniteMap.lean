import Datashil.Proofs.Histories

/-! The tree refines a finite map. -/

namespace Datashil
open Library BTree

/-- After any history that inserts only absent keys, a search finds exactly the present
keys, and its stream drains to the payload of the key, in pieces of any sizes. -/
theorem refines_finite_map (operations : List Operation) (fresh : Fresh .empty operations) :
    Ran (run operations) bootstrapped fun _ st => Addressable st → ∀ key,
      Ran (search key) st fun stream st' =>
        (stream.isEOF = false ↔ (Contents.empty.applyAll operations key).isSome) ∧
          ∀ payload, Contents.empty.applyAll operations key = some payload → ∀ sizes :
          List Nat, payload.length ≤ sizes.sum →
            Ran (stream.drain sizes) st' fun result _ => result.1 = payload := by
  refine (run_keeps operations fresh).imp ?_
  rintro - st ⟨h, tree, keeps⟩ addressable key
  refine (search_keeps keeps key).imp ?_
  rintro stream st' ⟨agrees, -, yields⟩
  have yields := yields (.inr addressable)
  obtain ⟨payloads, stores, lists⟩ := keeps
  constructor
  · cases found : Contents.empty.applyAll operations key with
    | none =>
      rw [found] at yields
      simp [yields.isEOF.mpr rfl]
    | some payload =>
      rw [found] at yields
      have nonempty := stores.nonempty addressable ((lists.mem key payload).mp found).1
      simpa using mt yields.isEOF.mp nonempty
  · intro payload found sizes enough
    rw [found] at yields
    have standing : stream.Yields st'.pages st'.newPageOffsetIndex payload := by
      rw [agrees.pages, agrees.counter]
      exact yields
    exact (PayloadStream.drain_spec sizes standing enough).imp fun _ _ drained => drained.2.1

theorem refines_finite_map_varied : Ran (run varied) bootstrapped fun _ st => Addressable st → ∀ key,
    Ran (search key) st fun stream st' =>
      (stream.isEOF = false ↔ (Contents.empty.applyAll varied key).isSome) ∧
        ∀ payload, Contents.empty.applyAll varied key = some payload → ∀ sizes :
        List Nat, payload.length ≤ sizes.sum →
          Ran (stream.drain sizes) st' fun result _ => result.1 = payload :=
  refines_finite_map varied fresh_varied

end Datashil
