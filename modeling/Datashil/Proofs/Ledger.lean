import Datashil.Proofs.Store
import Mathlib.Data.Multiset.AddSub

/-! What the recorded accesses come to: the pages that are pinned, once for each pin, and
the pages that have been written since they were last released as dirty. -/

namespace Datashil

structure Ledger where
  held : Multiset Nat
  unmarked : Nat → Bool

namespace Ledger

def start : Ledger := ⟨0, fun _ => false⟩

def step (ledger : Ledger) : Access → Ledger
  | .request pid => { ledger with held := pid ::ₘ ledger.held }
  | .release pid isDirty =>
    ⟨ledger.held.erase pid, fun other => if other = pid ∧ isDirty then false else ledger.unmarked other⟩
  | .write pid => { ledger with unmarked := fun other => if other = pid then true else ledger.unmarked other }
  | .allocate _ | .read _ => ledger

def ofAccesses : List Access → Ledger
  | [] => start
  | access :: accesses => (ofAccesses accesses).step access

/-- A page may be requested while there are fewer pins than the limit, unless it has been given up with
changes on it. -/
structure Grants (ledger : Ledger) (limit pid : Nat) : Prop where
  room : ledger.held.card < limit
  stored : pid ≠ STORAGE_MANAGER_META_PAGE_ID
  kept : ledger.unmarked pid = true → pid ∈ ledger.held

end Ledger

def BTree.ledger (tree : BTree) : Ledger := .ofAccesses tree.accesses

/-- A way from one state of the tree object to another on which only existing pages are requested, and
only pinned pages are released, read and written. -/
inductive Guarded (limit : Nat) (st : BTree) : BTree → Prop
  | refl : Guarded limit st st
  | request {st₁ : BTree} {pid : Nat} (guarded : Guarded limit st st₁) (grants : st₁.ledger.Grants limit pid)
      (below : pid < st₁.newPageOffsetIndex) : Guarded limit st (st₁.record (.request pid))
  | allocate {st₁ : BTree} (guarded : Guarded limit st st₁)
      (grants : st₁.ledger.Grants limit st₁.newPageOffsetIndex) :
      Guarded limit st st₁.allocated
  | release {st₁ : BTree} {pid : Nat} {isDirty : Bool} (guarded : Guarded limit st st₁)
      (pinned : pid ∈ st₁.ledger.held) :
      Guarded limit st (st₁.record (.release pid isDirty))
  | read {st₁ : BTree} {pid : Nat} (guarded : Guarded limit st st₁) (pinned : pid ∈ st₁.ledger.held) :
      Guarded limit st (st₁.record (.read pid))
  | write {st₁ : BTree} {pid : Nat} {page : Page} (guarded : Guarded limit st st₁)
      (pinned : pid ∈ st₁.ledger.held) :
      Guarded limit st ((st₁.setPage pid page).record (.write pid))
  | setRoot {st₁ : BTree} {rootPageId : Nat} (guarded : Guarded limit st st₁) :
      Guarded limit st { st₁ with rootPageId }

namespace BTree
variable {tree : BTree} {pid : Nat}

@[simp] theorem ledger_record (access : Access) : (tree.record access).ledger = tree.ledger.step access := rfl
@[simp] theorem ledger_setPage (page : Page) : (tree.setPage pid page).ledger = tree.ledger := rfl

end BTree

namespace Guarded
variable {limit : Nat} {st st₁ st₂ : BTree}

theorem trans (first : Guarded limit st st₁) (second : Guarded limit st₁ st₂) : Guarded limit st st₂ := by
  induction second with
  | refl => exact first
  | request _ grants below ih => exact .request ih grants below
  | allocate _ grants ih => exact .allocate ih grants
  | release _ pinned ih => exact .release ih pinned
  | read _ pinned ih => exact .read ih pinned
  | write _ pinned ih => exact .write ih pinned
  | setRoot _ ih => exact .setRoot ih

theorem weaken {limit' : Nat} (guarded : Guarded limit st st₁) (le : limit ≤ limit') :
    Guarded limit' st st₁ := by
  induction guarded with
  | refl => exact .refl
  | request _ grants below ih =>
    exact .request ih ⟨Nat.lt_of_lt_of_le grants.room le, grants.stored, grants.kept⟩ below
  | allocate _ grants ih => exact .allocate ih ⟨Nat.lt_of_lt_of_le grants.room le, grants.stored, grants.kept⟩
  | release _ pinned ih => exact .release ih pinned
  | read _ pinned ih => exact .read ih pinned
  | write _ pinned ih => exact .write ih pinned
  | setRoot _ ih => exact .setRoot ih

theorem grows (guarded : Guarded limit st st₁) : st.newPageOffsetIndex ≤ st₁.newPageOffsetIndex := by
  induction guarded with
  | refl => exact Nat.le_refl _
  | allocate _ _ ih => exact Nat.le_succ_of_le ih
  | request _ _ _ ih | release _ _ ih | read _ _ ih | write _ _ ih | setRoot _ ih => exact ih

theorem given_up (guarded : Guarded limit st st₁) {pid : Nat} (unmarked : st.ledger.unmarked pid = true)
    (away : pid ∉ st.ledger.held)
    (old : pid < st.newPageOffsetIndex) :
    st₁.ledger.unmarked pid = true ∧ pid ∉ st₁.ledger.held ∧ st₁.pages pid = st.pages pid := by
  induction guarded with
  | refl => exact ⟨unmarked, away, rfl⟩
  | @request st₁ other _ grants _ ih =>
    obtain ⟨unmarked, away, same⟩ := ih
    have apart : pid ≠ other := by
      rintro rfl
      exact away (grants.kept unmarked)
    exact ⟨unmarked, by simpa [Ledger.step] using ⟨apart, away⟩, same⟩
  | @allocate st₁ guarded grants ih =>
    obtain ⟨unmarked, away, same⟩ := ih
    have apart : pid ≠ st₁.newPageOffsetIndex := Nat.ne_of_lt (Nat.lt_of_lt_of_le old guarded.grows)
    refine ⟨unmarked, ?_, ?_⟩
    · simpa [BTree.allocated, Ledger.step] using ⟨apart, away⟩
    · simpa [apart] using same
  | @release st₁ other isDirty _ pinned ih =>
    obtain ⟨unmarked, away, same⟩ := ih
    have apart : pid ≠ other := by
      rintro rfl
      exact away pinned
    refine ⟨?_, fun inside => away (Multiset.mem_of_mem_erase inside), same⟩
    simpa [Ledger.step, apart] using unmarked
  | read _ _ ih => exact ih
  | @write st₁ other _ _ pinned ih =>
    obtain ⟨unmarked, away, same⟩ := ih
    have apart : pid ≠ other := by
      rintro rfl
      exact away pinned
    refine ⟨?_, away, ?_⟩
    · simpa [Ledger.step, apart] using unmarked
    · simpa [apart] using same
  | setRoot _ ih => exact ih

/-- What is pinned has an id that has been handed out, and is not the storage manager's page. -/
def Inside (tree : BTree) : Prop :=
  ∀ pid ∈ tree.ledger.held, pid ≠ STORAGE_MANAGER_META_PAGE_ID ∧ pid < tree.newPageOffsetIndex

theorem inside (guarded : Guarded limit st st₁) (inside : Inside st) : Inside st₁ := by
  induction guarded with
  | refl => exact inside
  | request _ grants below ih =>
    intro pid member
    rcases Multiset.mem_cons.mp member with rfl | member
    · exact ⟨grants.stored, below⟩
    · exact ih pid member
  | allocate _ grants ih =>
    intro pid member
    rcases Multiset.mem_cons.mp member with rfl | member
    · exact ⟨grants.stored, Nat.lt_succ_self _⟩
    · exact ⟨(ih pid member).1, Nat.lt_succ_of_lt (ih pid member).2⟩
  | release _ _ ih => exact fun pid member => ih pid (Multiset.mem_of_mem_erase member)
  | read _ _ ih | write _ _ ih | setRoot _ ih => exact ih

theorem untouched (guarded : Guarded limit st st₁) (inside : Inside st) {pid : Nat}
    (outside : pid = STORAGE_MANAGER_META_PAGE_ID ∨ st₁.newPageOffsetIndex ≤ pid)
    (exists_ : STORAGE_MANAGER_META_PAGE_ID < st.newPageOffsetIndex) :
    st₁.pages pid = st.pages pid := by
  induction guarded with
  | refl => rfl
  | request _ _ _ ih | release _ _ ih | read _ _ ih | setRoot _ ih => exact ih outside
  | @allocate st₁ guarded _ ih =>
    have grows := guarded.grows
    simp only [BTree.newPageOffsetIndex_allocated] at outside
    have apart : pid ≠ st₁.newPageOffsetIndex := by omega
    rw [BTree.pages_allocated, if_neg apart]
    exact ih (outside.imp_right Nat.le_of_succ_le)
  | @write st₁ other _ guarded pinned ih =>
    have known := guarded.inside inside other pinned
    have apart : pid ≠ other := by
      rintro rfl
      exact outside.elim known.1 (Nat.not_le_of_lt known.2)
    rw [BTree.pages_record, BTree.pages_setPage, if_neg apart]
    exact ih outside

end Guarded
end Datashil
