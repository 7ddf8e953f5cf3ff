import Datashil.Library.LittleEndian

/-! Packed structs: numbers of fixed widths, one behind the other in a block of bytes, and
arrays of them. -/

namespace Datashil.Library.Packed

abbrev Field := Nat × Nat

def encode (fields : List Field) : List UInt8 :=
  fields.flatMap fun field => LittleEndian.encode field.1 field.2

def size (fields : List Field) : Nat := (fields.map Prod.fst).sum

def read (block : List UInt8) (start width : Nat) : Nat := LittleEndian.decode ((block.drop start).take width)

variable {α : Type} {fields : List Field} {block rest : List UInt8} {start width : Nat}

@[simp] theorem length_encode (fields : List Field) : (encode fields).length = size fields := by
  simp [encode, size, List.length_flatMap]

theorem read_append (place : block.length = start) (offset width : Nat) :
    read (block ++ rest) (start + offset) width = read rest offset width := by
  rw [read, ← place, ← List.drop_drop, List.drop_left, read]

theorem read_drop (start offset width : Nat) :
    read (block.drop start) offset width = read block (start + offset) width := by
  rw [read, List.drop_drop, read]

theorem read_encode_zero (width value : Nat) (rest : List UInt8) :
    read (LittleEndian.encode width value ++ rest) 0 width = value % 256 ^ width := by
  rw [read, List.drop_zero, List.take_left' (LittleEndian.length_encode width value),
    LittleEndian.decode_encode]

theorem read_encode (index : Nat) {value : Nat} (found : fields[index]? = some (width, value))
    (place : size (fields.take index) = start) :
    read (encode fields ++ rest) start width = value % 256 ^ width := by
  obtain ⟨inside, here⟩ := List.getElem?_eq_some_iff.mp found
  have parts : encode fields = encode (fields.take index) ++
      (LittleEndian.encode width value ++ encode (fields.drop (index + 1))) := by
    conv_lhs => rw [← List.take_append_drop index fields, List.drop_eq_getElem_cons inside, here]
    simp [encode]
  rw [parts, List.append_assoc, List.append_assoc, ← Nat.add_zero start,
    read_append ((length_encode _).trans place), read_encode_zero]

/-- An entry of an array stands behind as many others as its index says. -/
theorem drop_flatMap {items : List α} {f : α → List UInt8} {item : α} {index : Nat} (rest : List UInt8)
    (each : ∀ item ∈ items, (f item).length = width)
    (found : items[index]? = some item) :
    ∃ later, (items.flatMap f ++ rest).drop (index * width) = f item ++ later := by
  induction items generalizing index with
  | nil => cases found
  | cons head items ih =>
    have long : (f head).length = width := each head (.head _)
    rw [List.flatMap_cons, List.append_assoc]
    cases index with
    | zero =>
      rw [List.getElem?_cons_zero] at found
      cases found
      exact ⟨_, by rw [Nat.zero_mul, List.drop_zero]⟩
    | succ index =>
      rw [List.getElem?_cons_succ] at found
      obtain ⟨later, same⟩ := ih (fun item member => each item (.tail _ member)) found
      refine ⟨later, ?_⟩
      rw [Nat.succ_mul, Nat.add_comm, ← List.drop_drop, List.drop_left' long, same]

theorem length_flatMap {items : List α} {f : α → List UInt8}
    (each : ∀ item ∈ items, (f item).length = width) :
    (items.flatMap f).length = items.length * width := by
  induction items with
  | nil => exact (Nat.zero_mul width).symm
  | cons head items ih =>
    rw [List.flatMap_cons, List.length_append, each head (.head _), ih fun item member =>
      each item (.tail _ member), List.length_cons,
      Nat.succ_mul, Nat.add_comm]

end Datashil.Library.Packed
