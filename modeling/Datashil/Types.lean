import Datashil.Library.Memory
import Datashil.Library.LittleEndian

/-! Types and constants shared by the pages and the tree. Keys, page ids and
buffer sizes are the source's `uint64_t`s, here natural numbers that are only
compared, stored and counted up; assignments to 16- and 32-bit variables wrap
explicitly. -/

namespace Datashil
open Library

abbrev Byte := UInt8

def u16 (value : Int) : Nat := (value % 65536).toNat

def i16 (value : Int) : Int := value.bmod 65536

def u32 (value : Nat) : Nat := value % 4294967296

theorem u16_eq {value : Int} {result : Nat} (fits : value = result) (small : result < 65536) :
    u16 value = result := by
  subst fits
  simp only [u16]
  omega

theorem i16_eq {value : Int} (low : -32768 ≤ value) (high : value ≤ 32767) : i16 value = value := by
  simp only [i16, Int.bmod_def]
  omega

theorem u32_eq {value : Nat} (small : value < 4294967296) : u32 value = value := Nat.mod_eq_of_lt small

def PAGE_SIZE : Nat := 4096

def STORAGE_MANAGER_META_PAGE_ID : Nat := 0
def DATABASE_META_PAGE_ID : Nat := 1
def DATABASE_MAGIC_NUMBER : Nat := 0x67AD7CB3

def LEAF_PAGE_HEADER_SIZE : Nat := 31
def SLOT_SIZE : Nat := 5
def OVERFLOW_PAGE_HEADER_SIZE : Nat := 18
def TUPLE_HEADER_SIZE : Nat := 13
def MIN_LEAF_PAGE_DATA : Nat := 128
def SIZEOF_KEY : Nat := 8
def SIZEOF_PAGE_ID : Nat := 8

/-- A leaf page underflows at or below this many used bytes. -/
def LEAF_UNDERFLOW_THRESHOLD : Nat := 2 * (PAGE_SIZE - LEAF_PAGE_HEADER_SIZE) / 5

/-- The most bytes one tuple and its slot may take in a leaf page. -/
def MAX_LEAF_PAGE_DATA : Nat := LEAF_UNDERFLOW_THRESHOLD / 2

def INTERNAL_PAGE_HEADER_SIZE : Nat := 11
def NUM_KEY_SLOTS : Nat := 254
def NUM_CHILD_PAGEID_SLOTS : Nat := 255

def INTERNAL_UNDERFLOW_THRESHOLD : Nat :=
  (PAGE_SIZE - INTERNAL_PAGE_HEADER_SIZE) / 2 - SIZEOF_KEY - SIZEOF_PAGE_ID

/-- A position in a block of bytes: what a `Byte*` is. -/
structure Pointer where
  block : Memory Byte
  offset : Nat

namespace Pointer

def ofBuffer (buffer : List Byte) : Pointer := ⟨Memory.ofList buffer, 0⟩

def advance (pointer : Pointer) (count : Nat) : Pointer := { pointer with offset := pointer.offset + count }

def read (pointer : Pointer) (count : Nat) : List Byte := pointer.block.read pointer.offset count

@[simp] theorem length_read (pointer : Pointer) (count : Nat) : (pointer.read count).length = count := by
  simp [read]

end Pointer

/-- Why a lookup in a page or a step of the tree gives no value. -/
inductive ErrType
  | childPtrNotFound
  | rightInternalSiblingDoesNotExist
  | leftInternalSiblingDoesNotExist
  | rightLeafSiblingDoesNotExist
  | leftLeafSiblingDoesNotExist
  deriving DecidableEq, Repr

structure SplitReport where
  wasSplit : Bool
  newPageId : Nat
  boundaryKey : Nat
  deriving DecidableEq, Repr

structure WriteStatus where
  written : Nat
  overflowInfoStoreAddress : Nat
  deriving DecidableEq, Repr

inductive PageType
  | metaPage | internalPage | leafPage | overflowPage | invalidPage
  deriving DecidableEq, Repr

structure DeleteStatus where
  underflown : Bool
  pageType : PageType
  currentSize : Nat
  success : Bool
  deriving DecidableEq, Repr

structure BorrowQuery where
  canBorrow : Bool
  borrowAmount : Nat
  deriving DecidableEq, Repr

end Datashil
