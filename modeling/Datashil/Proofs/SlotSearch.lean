import Datashil.Proofs.LeafSearch

/-! The accesses of the binary search. Slots are read through a pointer here, so that memory
before and after the directory is there to be read as well. -/

namespace Datashil.LeafPage
open Library

/-- Memory with a slot directory at its start. -/
def directory (slots : List SlotArrayElement) (outside : Int → SlotArrayElement) (index : Int) :
    SlotArrayElement :=
  if 0 ≤ index then slots.getD index.toNat (outside index) else outside index

/-- The loop over deleted slots from a probe on, with the slots it reads. -/
def skipReads (memory : Int → SlotArrayElement) (last : Int) :
    (fuel : Nat) → (mid : Int) → Option (Int × List Int)
  | 0, _ => none
  | fuel + 1, mid =>
    if (memory mid).isDeleted then
      let next := i16 (mid + 1)
      if next = last then some (last, [mid])
      else (skipReads memory last fuel next).map fun (final, reads) => (final, mid :: reads)
    else some (mid, [mid])

/-- The search loop with the slots that it reads and those whose offsets it follows. -/
def boundReads (memory : Int → SlotArrayElement) (last : Int) (bytes : Memory Byte)
    (goesRight : Nat → Bool) (skips : Nat) :
    (fuel : Nat) → Window → Option (Int × List Int)
  | 0, window => if window.l ≤ window.r then none else some (window.ans, [])
  | fuel + 1, window =>
    if window.l ≤ window.r then
      let originalMid := i16 (window.l + (window.r - window.l) / 2)
      match skipReads memory last skips originalMid with
      | none => none
      | some (mid, reads) =>
        let (next, followed) :=
          if mid = last then ({ window with r := i16 (originalMid - 1) }, [])
          else if goesRight (getKeyFromSlotElement bytes (memory mid)) then
            ({ window with l := i16 (mid + 1) }, [mid])
          else ({ window with ans := mid, r := i16 (originalMid - 1) }, [mid])
        (boundReads memory last bytes goesRight skips fuel next).map fun (ans, later) =>
          (ans, reads ++ followed ++ later)
    else some (window.ans, [])

/-- `upper_bound` and `lower_bound` over the slots from `start` to `last`. -/
def slotBound (memory : Int → SlotArrayElement) (last : Nat) (bytes : Memory Byte)
    (goesRight : Nat → Bool) (fuel : Nat) :
    Option (Int × List Int) :=
  let n := i16 last
  boundReads memory last bytes goesRight fuel fuel ⟨0, n - 1, n⟩

variable {slots : List SlotArrayElement} {outside : Int → SlotArrayElement} {bytes : Memory Byte}
    {goesRight : Nat → Bool}

theorem directory_inside {index : Nat} {element : SlotArrayElement} (found : slots[index]? = some element) :
    directory slots outside index = element := by
  rw [directory, if_pos (Int.natCast_nonneg index), Int.toNat_natCast, List.getD_eq_getElem?_getD,
    found, Option.getD_some]

def Inside (slots : List SlotArrayElement) (reads : List Int) : Prop :=
  ∀ index ∈ reads, 0 ≤ index ∧ index < slots.length

theorem Inside.nil : Inside slots [] := fun _ absent => absurd absent List.not_mem_nil

theorem Inside.append {first second : List Int} (before : Inside slots first)
    (after : Inside slots second) : Inside slots (first ++ second) := by
  intro index member
  cases List.mem_append.mp member with
  | inl early => exact before index early
  | inr late => exact after index late

theorem Inside.cons {index : Nat} {reads : List Int} (bound : index < slots.length)
    (after : Inside slots reads) :
    Inside slots ((index : Int) :: reads) := by
  intro other member
  cases List.mem_cons.mp member with
  | inl same =>
    rw [same]
    exact ⟨Int.natCast_nonneg index, Int.ofNat_lt.mpr bound⟩
  | inr later => exact after other later

/-- From a slot of the directory, the loop comes to the next live one or to the end. -/
theorem skipReads_spec (small : slots.length ≤ 32767) {fuel mid : Nat} (inside : mid < slots.length)
    (enough : slots.length - mid ≤ fuel) :
    ∃ reads, skipReads (directory slots outside) slots.length fuel mid =
      some (((skipDeleted (slots.drop mid) mid : Nat) : Int), reads) ∧ Inside slots reads := by
  induction fuel generalizing mid with
  | zero => omega
  | succ fuel ih =>
    have here := List.getElem?_eq_getElem inside
    have next : i16 ((mid : Int) + 1) = (mid + 1 : Nat) := by
      rw [i16_eq (by omega) (by omega)]
      rfl
    rw [skipReads, directory_inside here, List.drop_eq_getElem_cons inside, skipDeleted]
    cases dead : slots[mid].isDeleted with
    | false => exact ⟨[(mid : Int)], rfl, .cons inside .nil⟩
    | true =>
      simp only [ite_true, next, Int.natCast_inj]
      by_cases ended : mid + 1 = slots.length
      · refine ⟨[(mid : Int)], ?_, .cons inside .nil⟩
        rw [if_pos ended, List.drop_eq_nil_of_le (Nat.le_of_eq ended.symm), skipDeleted, ended]
      · obtain ⟨reads, skipped, within⟩ := @ih (mid + 1) (by omega) (by omega)
        refine ⟨mid :: reads, ?_, .cons inside within⟩
        rw [if_neg ended, skipped]
        rfl

/-- The search loop does what the loop over lists does, within the directory. -/
theorem boundReads_spec (small : slots.length ≤ 32767) {skips : Nat} (enough : slots.length ≤ skips)
    (fuel : Nat) {window : Window}
    (left : 0 ≤ window.l) (right : window.r < slots.length)
    (ended : (boundLoop slots bytes goesRight fuel window).r <
      (boundLoop slots bytes goesRight fuel window).l) :
    ∃ reads, boundReads (directory slots outside) slots.length bytes goesRight skips fuel window =
      some ((boundLoop slots bytes goesRight fuel window).ans, reads) ∧ Inside slots reads := by
  induction fuel generalizing window with
  | zero =>
    simp only [boundLoop] at ended
    refine ⟨[], ?_, .nil⟩
    rw [boundReads, if_neg (by omega), boundLoop]
  | succ fuel ih =>
    rw [boundReads]
    by_cases going : window.l ≤ window.r
    · obtain ⟨start, middle⟩ : ∃ start : Nat, window.l + (window.r - window.l) / 2 = start :=
        ⟨(window.l + (window.r - window.l) / 2).toNat, by omega⟩
      have exact : i16 start = start := i16_eq (by omega) (by omega)
      have inside : start < slots.length := by omega
      have back : i16 (start - 1 : Int) = start - 1 := i16_eq (by omega) (by omega)
      obtain ⟨reads, skipped, within⟩ := @skipReads_spec slots outside small skips start inside (by omega)
      obtain ⟨low, high, -, -⟩ := probe slots start (Nat.le_of_lt inside)
      simp only [boundLoop, going, ite_true, middle, exact, Int.toNat_natCast] at ended ⊢
      simp only [skipped]
      generalize skipDeleted (slots.drop start) start = mid at low high ended ⊢
      cases found : slots[mid]? with
      | none =>
        have last : mid = slots.length := by
          have beyond := List.getElem?_eq_none_iff.mp found
          omega
        simp only [found] at ended ⊢
        obtain ⟨later, rest, after⟩ := @ih { window with r := i16 (start - 1) } left
          (by simp only [back]; omega) ended
        refine ⟨reads ++ [] ++ later, ?_, (within.append .nil).append after⟩
        simp only [last, ite_true, rest, Option.map_some]
      | some element =>
        have bound := (List.getElem?_eq_some_iff.mp found).1
        have apart : (mid : Int) ≠ slots.length := by omega
        have next : i16 ((mid : Int) + 1) = mid + 1 := i16_eq (by omega) (by omega)
        have followed : Inside slots [(mid : Int)] := .cons bound .nil
        simp only [found] at ended ⊢
        simp only [apart, ite_false, directory_inside found]
        by_cases passes : goesRight (getKeyFromSlotElement bytes element) = true
        · simp only [passes, ite_true] at ended ⊢
          obtain ⟨later, rest, after⟩ := @ih { window with l := i16 (mid + 1) }
            (by simp only [next]; omega) right ended
          exact ⟨reads ++ [(mid : Int)] ++ later, by simp only [rest, Option.map_some],
            (within.append followed).append after⟩
        · simp only [passes, Bool.false_eq_true, ite_false] at ended ⊢
          obtain ⟨later, rest, after⟩ := @ih { window with ans := mid, r := i16 (start - 1) } left
            (by simp only [back]; omega) ended
          exact ⟨reads ++ [(mid : Int)] ++ later, by simp only [rest, Option.map_some],
            (within.append followed).append after⟩
    · refine ⟨[], ?_, .nil⟩
      rw [if_neg going, boundLoop, if_neg going]

theorem slotBound_spec (small : slots.length ≤ 32767) (sorted : SortedSlots slots bytes)
    (down : ∀ low high, low ≤ high → goesRight high = true → goesRight low = true) {fuel : Nat}
    (enough : slots.length ≤ fuel) :
    ∃ index : Nat, ∃ reads, slotBound (directory slots outside) slots.length bytes goesRight fuel =
      some ((index : Int), reads) ∧
      Inside slots reads ∧ IsBound slots bytes goesRight index := by
  have count : i16 (slots.length : Int) = slots.length := i16_eq (by omega) (by omega)
  obtain ⟨ended, positive, isBound⟩ := boundLoop_whole small sorted down enough
  have last : (Window.whole slots).r < slots.length := by
    simp only [Window.whole]
    omega
  obtain ⟨reads, found, inside⟩ :=
    @boundReads_spec slots outside bytes goesRight small fuel enough fuel (.whole slots)
    (Int.le_refl 0) last ended
  refine ⟨_, reads, ?_, inside, isBound⟩
  rw [slotBound, count, Int.toNat_of_nonneg positive]
  exact found

/-- Over any live keys in order, with deleted slots anywhere among them and anything around the
directory, both searches come to an end, stay within the directory, and find the first live slot
with a key that is not below the sought one, or above it. -/
theorem slot_search_exact (slots : List SlotArrayElement) (outside : Int → SlotArrayElement)
    (bytes : Memory Byte)
    (small : slots.length ≤ 32767) (sorted : SortedSlots slots bytes) (x fuel : Nat)
    (enough : slots.length ≤ fuel) :
    (∃ index : Nat, ∃ reads, slotBound (directory slots outside) slots.length bytes
      (fun key => key < x) fuel = some ((index : Int), reads) ∧
      Inside slots reads ∧ IsBound slots bytes (fun key => key < x) index) ∧
    ∃ index : Nat, ∃ reads, slotBound (directory slots outside) slots.length bytes
      (fun key => key ≤ x) fuel = some ((index : Int), reads) ∧
      Inside slots reads ∧ IsBound slots bytes (fun key => key ≤ x) index := by
  constructor
  · apply slotBound_spec small sorted _ enough
    intro low high le passes
    simp only [decide_eq_true_eq] at passes ⊢
    omega
  · apply slotBound_spec small sorted _ enough
    intro low high le passes
    simp only [decide_eq_true_eq] at passes ⊢
    omega

/-- A directory whose last slot is deleted. -/
theorem slot_search_exact_deleted :
    (∃ index : Nat, ∃ reads, slotBound (directory [⟨false, 100, 21⟩, ⟨true, 0, 0⟩] fun _ =>
      ⟨false, 0, 0⟩) 2 (fun _ => 0) (fun key => key < 5) 2 =
      some ((index : Int), reads) ∧ Inside [⟨false, 100, 21⟩, ⟨true, 0, 0⟩] reads ∧
      IsBound [⟨false, 100, 21⟩, ⟨true, 0, 0⟩] (fun _ => 0) (fun key => key < 5) index) ∧
    ∃ index : Nat, ∃ reads, slotBound (directory [⟨false, 100, 21⟩, ⟨true, 0, 0⟩] fun _ =>
      ⟨false, 0, 0⟩) 2 (fun _ => 0) (fun key => key ≤ 5) 2 =
      some ((index : Int), reads) ∧ Inside [⟨false, 100, 21⟩, ⟨true, 0, 0⟩] reads ∧
      IsBound [⟨false, 100, 21⟩, ⟨true, 0, 0⟩] (fun _ => 0) (fun key => key ≤ 5) index :=
  slot_search_exact [⟨false, 100, 21⟩, ⟨true, 0, 0⟩] (fun _ => ⟨false, 0, 0⟩) (fun _ => 0) (by decide)
    (by simp [SortedSlots]) 5 2 (by decide)

end Datashil.LeafPage
