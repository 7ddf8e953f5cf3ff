import Datashil.Types

/-! Requests and responses as bytes: packed headers with a checksum over all of the
header but itself. -/

namespace Datashil
open Library

def NETWORK_MAGIC_NUMBER : Nat := 0x8DED1CB2
def REQUEST_HEADER_SIZE : Nat := 13
def RESPONSE_HEADER_SIZE : Nat := 14
def SIZEOF_CHECKSUM : Nat := 4

inductive Command
  | invalid | search | insert | delete | quit
  deriving DecidableEq, Repr

namespace Command

def toByte : Command → Byte
  | invalid => 0
  | search => 1
  | insert => 2
  | delete => 3
  | quit => 4

/-- A byte off the wire need not be any of the enumerators. -/
def ofByte (byte : Byte) : Option Command :=
  if byte = 0 then some invalid
  else if byte = 1 then some search
  else if byte = 2 then some insert
  else if byte = 3 then some delete
  else if byte = 4 then some quit
  else none

@[simp] theorem ofByte_toByte (command : Command) : ofByte command.toByte = some command := by
  cases command <;> decide

end Command

namespace Utils

def calculateHash (data : List Byte) : Nat :=
  data.foldl (fun hash byte => u32 ((hash ^^^ byte.toNat) * 0x01000193)) 0x811c9dc5

/-- The last four bytes become the hash of all others. -/
def setChecksum (bytes : List Byte) : List Byte :=
  let data := bytes.take (bytes.length - SIZEOF_CHECKSUM)
  data ++ LittleEndian.encode SIZEOF_CHECKSUM (calculateHash data)

def verifyChecksum (bytes : List Byte) : Bool :=
  let dataLength := bytes.length - SIZEOF_CHECKSUM
  calculateHash (bytes.take dataLength) = LittleEndian.decode (bytes.drop dataLength)

theorem calculateHash_lt (data : List Byte) : calculateHash data < 4294967296 := by
  have small : ∀ value, u32 value < 4294967296 := fun value => Nat.mod_lt value (Nat.zero_lt_succ _)
  rw [calculateHash]
  cases List.eq_nil_or_concat' data with
  | inl none =>
    rw [none, List.foldl_nil]
    omega
  | inr more =>
    obtain ⟨front, last, rfl⟩ := more
    rw [List.foldl_append, List.foldl_cons, List.foldl_nil]
    exact small _

theorem setChecksum_append (data : List Byte) {last : List Byte} (size : last.length = SIZEOF_CHECKSUM) :
    setChecksum (data ++ last) = data ++ LittleEndian.encode SIZEOF_CHECKSUM (calculateHash data) := by
  have cut : (data ++ last).take ((data ++ last).length - SIZEOF_CHECKSUM) = data := by
    rw [List.length_append, size, Nat.add_sub_cancel, List.take_left' rfl]
  simp only [setChecksum, cut]

theorem length_setChecksum {bytes : List Byte} (long : SIZEOF_CHECKSUM ≤ bytes.length) :
    (setChecksum bytes).length = bytes.length := by
  simp only [setChecksum, List.length_append, List.length_take, LittleEndian.length_encode]
  omega

theorem verifyChecksum_setChecksum {bytes : List Byte} (long : SIZEOF_CHECKSUM ≤ bytes.length) :
    verifyChecksum (setChecksum bytes) = true := by
  have size := length_setChecksum long
  have data : (bytes.take (bytes.length - SIZEOF_CHECKSUM)).length = bytes.length - SIZEOF_CHECKSUM := by
    rw [List.length_take]
    omega
  have parts : setChecksum bytes = bytes.take (bytes.length - SIZEOF_CHECKSUM) ++
      LittleEndian.encode SIZEOF_CHECKSUM (calculateHash (bytes.take (bytes.length - SIZEOF_CHECKSUM))) := rfl
  rw [verifyChecksum, size, parts, List.take_left' data, List.drop_left' data,
    LittleEndian.decode_encode_of_lt (calculateHash_lt _)]
  exact decide_eq_true rfl

end Utils

structure RequestHeader where
  magicNumber : Nat
  totalLength : Nat
  command : Byte
  headerChecksum : Nat
  deriving DecidableEq, Repr

namespace RequestHeader

def covered (header : RequestHeader) : List Byte :=
  LittleEndian.encode 4 header.magicNumber ++ LittleEndian.encode 4 header.totalLength ++ [header.command]

def encode (header : RequestHeader) : List Byte :=
  header.covered ++ LittleEndian.encode 4 header.headerChecksum

def decode (bytes : List Byte) : RequestHeader :=
  ⟨LittleEndian.decode (bytes.take 4), LittleEndian.decode ((bytes.drop 4).take 4), (bytes.drop 8).headD 0,
    LittleEndian.decode ((bytes.drop 9).take 4)⟩

@[simp] theorem length_encode (header : RequestHeader) : header.encode.length = REQUEST_HEADER_SIZE := by
  simp [encode, covered, REQUEST_HEADER_SIZE]

theorem decode_encode {header : RequestHeader} (magic : header.magicNumber < 4294967296)
    (total : header.totalLength < 4294967296)
    (checksum : header.headerChecksum < 4294967296) : decode header.encode = header := by
  have cut : ∀ {first rest : List Byte} {count : Nat}, first.length = count →
      (first ++ rest).take count = first ∧ (first ++ rest).drop count = rest :=
    fun size => ⟨List.take_left' size, List.drop_left' size⟩
  simp only [decode, encode, covered, List.append_assoc]
  rw [(cut (LittleEndian.length_encode 4 _)).1, (cut (LittleEndian.length_encode 4 _)).2,
    (cut (LittleEndian.length_encode 4 _)).1]
  rw [show 8 = 4 + 4 from rfl, ← List.drop_drop, (cut (LittleEndian.length_encode 4 _)).2,
    (cut (LittleEndian.length_encode 4 _)).2]
  rw [show 9 = 4 + 4 + 1 from rfl, ← List.drop_drop, ← List.drop_drop,
    (cut (LittleEndian.length_encode 4 _)).2,
    (cut (LittleEndian.length_encode 4 _)).2, List.singleton_append, List.drop_one, List.tail_cons,
    List.take_of_length_le (Nat.le_of_eq (LittleEndian.length_encode 4 _))]
  simp only [List.headD_cons]
  rw [LittleEndian.decode_encode_of_lt magic, LittleEndian.decode_encode_of_lt total,
    LittleEndian.decode_encode_of_lt checksum]

theorem setChecksum_encode (header : RequestHeader) : ∃ checksum, checksum < 4294967296 ∧
    Utils.setChecksum header.encode = encode { header with headerChecksum := checksum } := by
  have fields : ∀ checksum, encode { header with headerChecksum := checksum } =
      header.covered ++ LittleEndian.encode SIZEOF_CHECKSUM checksum := fun _ => rfl
  refine ⟨Utils.calculateHash header.covered, Utils.calculateHash_lt _, ?_⟩
  rw [fields (Utils.calculateHash header.covered),
    ← Utils.setChecksum_append header.covered
      (LittleEndian.length_encode SIZEOF_CHECKSUM header.headerChecksum)]
  exact congrArg Utils.setChecksum (fields header.headerChecksum)

end RequestHeader

structure ResponseHeader where
  magicNumber : Nat
  totalLength : Nat
  statusCode : Nat
  echoCommand : Byte
  headerChecksum : Nat
  deriving DecidableEq, Repr

namespace ResponseHeader

def covered (header : ResponseHeader) : List Byte :=
  LittleEndian.encode 4 header.magicNumber ++ LittleEndian.encode 4 header.totalLength ++
    LittleEndian.encode 1 header.statusCode ++
    [header.echoCommand]

def encode (header : ResponseHeader) : List Byte :=
  header.covered ++ LittleEndian.encode 4 header.headerChecksum

def decode (bytes : List Byte) : ResponseHeader :=
  ⟨LittleEndian.decode (bytes.take 4), LittleEndian.decode ((bytes.drop 4).take 4),
    LittleEndian.decode ((bytes.drop 8).take 1),
    (bytes.drop 9).headD 0, LittleEndian.decode ((bytes.drop 10).take 4)⟩

@[simp] theorem length_encode (header : ResponseHeader) : header.encode.length = RESPONSE_HEADER_SIZE := by
  simp [encode, covered, RESPONSE_HEADER_SIZE]

theorem decode_encode {header : ResponseHeader} (magic : header.magicNumber < 4294967296)
    (total : header.totalLength < 4294967296)
    (status : header.statusCode < 256) (checksum : header.headerChecksum < 4294967296) :
    decode header.encode = header := by
  have cut : ∀ {first rest : List Byte} {count : Nat}, first.length = count →
      (first ++ rest).take count = first ∧ (first ++ rest).drop count = rest :=
    fun size => ⟨List.take_left' size, List.drop_left' size⟩
  simp only [decode, encode, covered, List.append_assoc]
  rw [(cut (LittleEndian.length_encode 4 _)).1, (cut (LittleEndian.length_encode 4 _)).2,
    (cut (LittleEndian.length_encode 4 _)).1]
  rw [show 8 = 4 + 4 from rfl, ← List.drop_drop, (cut (LittleEndian.length_encode 4 _)).2,
    (cut (LittleEndian.length_encode 4 _)).2,
    (cut (LittleEndian.length_encode 1 _)).1]
  rw [show 9 = 4 + 4 + 1 from rfl, ← List.drop_drop, ← List.drop_drop,
    (cut (LittleEndian.length_encode 4 _)).2,
    (cut (LittleEndian.length_encode 4 _)).2, (cut (LittleEndian.length_encode 1 _)).2]
  rw [show 10 = 4 + 4 + 1 + 1 from rfl, ← List.drop_drop, ← List.drop_drop, ← List.drop_drop,
    (cut (LittleEndian.length_encode 4 _)).2,
    (cut (LittleEndian.length_encode 4 _)).2, (cut (LittleEndian.length_encode 1 _)).2,
      List.singleton_append, List.drop_one, List.tail_cons,
    List.take_of_length_le (Nat.le_of_eq (LittleEndian.length_encode 4 _))]
  simp only [List.headD_cons]
  rw [LittleEndian.decode_encode_of_lt magic, LittleEndian.decode_encode_of_lt total,
    LittleEndian.decode_encode_of_lt status,
    LittleEndian.decode_encode_of_lt checksum]

theorem setChecksum_encode (header : ResponseHeader) : ∃ checksum, checksum < 4294967296 ∧
    Utils.setChecksum header.encode = encode { header with headerChecksum := checksum } := by
  have fields : ∀ checksum, encode { header with headerChecksum := checksum } =
      header.covered ++ LittleEndian.encode SIZEOF_CHECKSUM checksum := fun _ => rfl
  refine ⟨Utils.calculateHash header.covered, Utils.calculateHash_lt _, ?_⟩
  rw [fields (Utils.calculateHash header.covered),
    ← Utils.setChecksum_append header.covered
      (LittleEndian.length_encode SIZEOF_CHECKSUM header.headerChecksum)]
  exact congrArg Utils.setChecksum (fields header.headerChecksum)

end ResponseHeader
end Datashil
