import Datashil.Storage

/-! Reading a stored payload in pieces: first the chunk in the leaf, then the
chain of overflow pages. -/

namespace Datashil
open Library BTree

structure PayloadStream where
  currPid : Nat
  currPageOffset : Nat
  currPageEnd : Nat
  totalBytes : Nat
  bytesRead : Nat
  overflow : Bool
  overflowPageId : Nat
  deriving DecidableEq, Repr

namespace PayloadStream

def empty : PayloadStream := ⟨0, 0, 0, 0, 0, false, 0⟩

def make (leafPid tupleOffset tupleEndOffset totalTupleSize : Nat) (overflow : Bool)
    (overflowPageId : Nat) : PayloadStream :=
  ⟨leafPid, tupleOffset + TUPLE_HEADER_SIZE, tupleEndOffset, totalTupleSize, 0, overflow, overflowPageId⟩

def isEOF (stream : PayloadStream) : Bool := stream.bytesRead ≥ stream.totalBytes

def payloadRemaining (stream : PayloadStream) : Nat := stream.totalBytes - stream.bytesRead

/-- The bytes copied, and the offset after the last of them. -/
def readPage (block : Memory Byte) (n startOffset maxOffset : Nat) : List Byte × Nat :=
  let possibleReads := maxOffset + 1 - startOffset
  if n ≤ possibleReads then (block.read startOffset n, startOffset + n)
  else (block.read startOffset possibleReads, startOffset + possibleReads)

/-- The loop of `nextBytes`. Every turn reads a byte or is the last. -/
def nextBytesLoop : Nat → PayloadStream → (bytesToRead : Nat) → List Byte → TreeM (List Byte × PayloadStream)
  | 0, stream, _, buffer => return (buffer, stream)
  | fuel + 1, stream, bytesToRead, buffer => do
    if bytesToRead = 0 then return (buffer, stream)
    else
      let currPage ← readBytes stream.currPid
      let (bytes, result) := readPage currPage bytesToRead stream.currPageOffset (stream.currPageEnd - 1)
      let bytesReadFromPage := result - stream.currPageOffset
      let stream := { stream with bytesRead := stream.bytesRead + bytesReadFromPage }
      let bytesToRead := bytesToRead - bytesReadFromPage
      let buffer := buffer ++ bytes
      if result = stream.currPageEnd then
        if stream.overflow then
          releasePage stream.currPid false
          requestPage stream.overflowPageId
          let currPageHeader ← readOverflow stream.overflowPageId
          nextBytesLoop fuel
            { stream with
              currPid := stream.overflowPageId
              currPageOffset := OVERFLOW_PAGE_HEADER_SIZE
              currPageEnd := PAGE_SIZE
              overflow := 0 < currPageHeader.overflow
              overflowPageId := currPageHeader.overflowPage }
            bytesToRead buffer
        else return (buffer, stream)
      else return (buffer, { stream with currPageOffset := result })

def nextBytes (stream : PayloadStream) (n : Nat) : TreeM (List Byte × PayloadStream) := do
  let totalPossibleReadSize := stream.totalBytes - stream.bytesRead
  let bytesToRead := min n totalPossibleReadSize
  if totalPossibleReadSize = 0 then return ([], stream)
  else
    requestPage stream.currPid
    let (buffer, stream) ← nextBytesLoop (bytesToRead + 1) stream bytesToRead []
    releasePage stream.currPid false
    return (buffer, stream)

/-- Read pieces of the given sizes, whether the stream has ended or not. -/
def nextAll : List Nat → PayloadStream → TreeM (List (List Byte) × PayloadStream)
  | [], stream => return ([], stream)
  | n :: sizes, stream => do
    let (piece, stream) ← stream.nextBytes n
    let (pieces, stream) ← nextAll sizes stream
    return (piece :: pieces, stream)

/-- Read pieces of the given sizes until the stream ends or the sizes do. -/
def drain : List Nat → PayloadStream → TreeM (List Byte × PayloadStream)
  | [], stream => return ([], stream)
  | n :: sizes, stream => do
    if stream.isEOF then return ([], stream)
    else
      let (piece, stream) ← stream.nextBytes n
      let (rest, stream) ← drain sizes stream
      return (piece ++ rest, stream)

end PayloadStream
end Datashil
