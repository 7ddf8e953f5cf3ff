import Mathlib.Algebra.Order.Ring.Nat
import Mathlib.Data.List.Nodup
import Mathlib.Tactic.Common

/-! A block of memory cells and the copying of ranges between blocks. Cells are
addressed by offset, ranges are `[start, start + count)`, and nothing is assumed
about what a cell holds. -/

namespace Datashil.Library

abbrev Memory (β : Type u) := Nat → β

namespace Memory
variable {β : Type u}

/-- Copy `count` cells. The source is read before anything is written, so the
same definition is `memcpy` between blocks and `memmove` inside one. -/
def copy (target : Memory β) (start : Nat) (source : Memory β) (from' count : Nat) : Memory β :=
  fun i => if start ≤ i ∧ i < start + count then source (from' + (i - start)) else target i

def read (memory : Memory β) (start count : Nat) : List β :=
  (List.range count).map fun i => memory (start + i)

def ofList [Inhabited β] (cells : List β) : Memory β := fun i => cells.getD i default

@[simp] theorem length_read (memory : Memory β) (start count : Nat) :
    (memory.read start count).length = count := by simp [read]

@[simp] theorem read_zero (memory : Memory β) (start : Nat) : memory.read start 0 = [] := rfl

theorem getElem?_read (memory : Memory β) (start count i : Nat) (inside : i < count) :
    (memory.read start count)[i]? = some (memory (start + i)) := by
  simp [read, inside]

theorem read_congr {first second : Memory β} {start other count : Nat}
    (same : ∀ i, i < count → first (start + i) = second (other + i)) :
    first.read start count = second.read other count := by
  apply List.map_congr_left
  intro i member
  exact same i (List.mem_range.mp member)

theorem read_add (memory : Memory β) (start first second : Nat) :
    memory.read start (first + second) = memory.read start first ++ memory.read (start + first) second := by
  simp only [read, List.range_add, List.map_append, List.map_map]
  congr 1
  apply List.map_congr_left
  intro i _
  simp only [Function.comp_apply, Nat.add_assoc]

theorem take_read (memory : Memory β) (start count n : Nat) (inside : n ≤ count) :
    (memory.read start count).take n = memory.read start n := by
  obtain ⟨rest, rfl⟩ := Nat.exists_eq_add_of_le inside
  rw [read_add, List.take_append_of_le_length (by simp), List.take_of_length_le (by simp)]

theorem drop_read (memory : Memory β) (start count n : Nat) (inside : n ≤ count) :
    (memory.read start count).drop n = memory.read (start + n) (count - n) := by
  obtain ⟨rest, rfl⟩ := Nat.exists_eq_add_of_le inside
  rw [read_add, List.drop_append, List.drop_of_length_le (by simp)]
  simp

theorem read_copy_inside (target source : Memory β) (start from' count first len : Nat)
    (low : start ≤ first) (high : first + len ≤ start + count) :
    (target.copy start source from' count).read first len = source.read (from' + (first - start)) len := by
  apply read_congr
  intro i inside
  have within : start ≤ first + i ∧ first + i < start + count := by omega
  simp only [copy, within, and_self, ite_true]
  congr 1
  omega

theorem read_copy_same (target source : Memory β) (start from' count : Nat) :
    (target.copy start source from' count).read start count = source.read from' count := by
  rw [read_copy_inside _ _ _ _ _ _ _ (Nat.le_refl _) (Nat.le_refl _), Nat.sub_self, Nat.add_zero]

theorem read_copy_apart (target source : Memory β) (start from' count first len : Nat)
    (apart : first + len ≤ start ∨ start + count ≤ first) :
    (target.copy start source from' count).read first len = target.read first len := by
  apply read_congr
  intro i inside
  have outside : ¬ (start ≤ first + i ∧ first + i < start + count) := by omega
  simp only [copy, outside, ite_false]

theorem read_ofList [Inhabited β] (cells : List β) : (ofList cells).read 0 cells.length = cells := by
  apply List.ext_getElem (by simp)
  intro i first second
  simp [read, ofList, List.getD_eq_getElem?_getD, List.getElem?_eq_getElem second]

theorem read_ofList_prefix [Inhabited β] (cells : List β) (count : Nat) (inside : count ≤ cells.length) :
    (ofList cells).read 0 count = cells.take count := by
  have whole := congrArg (List.take count) (read_ofList cells)
  rwa [take_read _ _ _ _ inside] at whole

theorem read_ofList_range [Inhabited β] (cells : List β) (start count : Nat)
    (inside : start + count ≤ cells.length) :
    (ofList cells).read start count = (cells.drop start).take count := by
  have whole : (((ofList cells).read 0 cells.length).drop start).take count =
      (cells.drop start).take count := by
    rw [read_ofList]
  rwa [drop_read _ _ _ _ (by omega), take_read _ _ _ _ (by omega), Nat.zero_add] at whole

/-! ### A range as a list -/

@[simp] theorem copy_zero (target source : Memory β) (start from' : Nat) :
    target.copy start source from' 0 = target := by
  funext i
  simp only [copy, Nat.add_zero]
  rw [if_neg (by omega)]

/-- A copy guarded by a test that there is something to copy. -/
theorem ite_copy {condition : Prop} [Decidable condition] (target source : Memory β) {start from' count : Nat}
    (skipped : ¬ condition → count = 0) :
    (if condition then target.copy start source from' count else target) =
      target.copy start source from' count := by
  split
  · rfl
  next not => rw [skipped not, copy_zero]

theorem copy_one (target source : Memory β) (start from' : Nat) :
    target.copy start source from' 1 = target.copy start (fun _ => source from') 0 1 := by
  funext i
  simp only [copy]
  split
  next inside => rw [show from' + (i - start) = from' by omega]
  · rfl

@[simp] theorem read_one (memory : Memory β) (start : Nat) : memory.read start 1 = [memory start] := rfl

theorem read_append_iff {memory : Memory β} {start : Nat} (first second : List β) :
    memory.read start (first.length + second.length) = first ++ second ↔
      memory.read start first.length = first ∧ memory.read (start + first.length) second.length = second := by
  rw [read_add]
  exact ⟨fun same => List.append_inj same (by simp), fun ⟨left, right⟩ => by rw [left, right]⟩

theorem read_cons_iff {memory : Memory β} {start : Nat} {item : β} {items : List β} :
    memory.read start (items.length + 1) = item :: items ↔
      memory start = item ∧ memory.read (start + 1) items.length = items := by
  rw [Nat.add_comm, read_add, read_one, List.singleton_append, List.cons.injEq]

theorem read_put {memory : Memory β} {start : Nat} (first second : List β) {old : β} (item : β)
    (same : memory.read start (first.length + (second.length + 1)) = first ++ old :: second) :
    (memory.copy (start + first.length) (fun _ => item) 0 1).read start (first.length + (second.length + 1)) =
      first ++ item :: second := by
  obtain ⟨low, high⟩ := (read_append_iff first (old :: second)).mp same
  obtain ⟨-, high⟩ := read_cons_iff.mp high
  refine (read_append_iff first (item :: second)).mpr ⟨?_, read_cons_iff.mpr ⟨?_, ?_⟩⟩
  · rw [read_copy_apart _ _ _ _ _ _ _ (by omega), low]
  · simp [copy]
  · rw [read_copy_apart _ _ _ _ _ _ _ (by omega), high]

theorem read_insert (memory : Memory β) (start : Nat) (first second : List β) (item : β)
    (same : memory.read start (first.length + second.length) = first ++ second) :
    ((memory.copy (start + first.length + 1) memory (start + first.length) second.length).copy
      (start + first.length) (fun _ => item) 0 1).read start (first.length + (second.length + 1)) =
      first ++ item :: second := by
  obtain ⟨low, high⟩ := (read_append_iff first second).mp same
  refine (read_append_iff first (item :: second)).mpr ⟨?_, read_cons_iff.mpr ⟨?_, ?_⟩⟩
  · rw [read_copy_apart _ _ _ _ _ _ _ (by omega), read_copy_apart _ _ _ _ _ _ _ (by omega), low]
  · simp [copy]
  · rw [read_copy_apart _ _ _ _ _ _ _ (by omega), read_copy_same, high]

theorem read_erase (memory : Memory β) (start : Nat) (first : List β) (item : β) (second : List β)
    (same : memory.read start (first.length + (second.length + 1)) = first ++ item :: second) :
    (memory.copy (start + first.length) memory (start + first.length + 1) second.length).read start
      (first.length + second.length) = first ++ second := by
  obtain ⟨low, high⟩ := (read_append_iff first (item :: second)).mp same
  obtain ⟨-, high⟩ := read_cons_iff.mp high
  refine (read_append_iff first second).mpr ⟨?_, ?_⟩
  · rw [read_copy_apart _ _ _ _ _ _ _ (by omega), low]
  · rw [read_copy_same, high]

end Memory
end Datashil.Library
