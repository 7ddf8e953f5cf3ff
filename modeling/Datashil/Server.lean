import Datashil.History
import Datashil.Wire

/-! The server's side of a connection. The sockets are scripts of what the calls to
the system return, and every pass over a request is recorded with the parts of
the stream buffer it reads. -/

namespace Datashil
open Library

inductive ServerException
  | corruptPacket
  | serverShutdown
  | runtimeError (message : String)
  deriving DecidableEq, Repr

def ServerException.what : ServerException → String
  | corruptPacket => "Received corrupt response from client.\n"
  | serverShutdown => "Server shutting down via interrupt.\n"
  | runtimeError message => message

/-- Why the server does not go on. A tree the code has built does not make it crash. It
stalls if a stream yields less than it announces, which keeps the loop of `HandleSearch`
going; `fuel` counts the passes over the stream buffer. -/
inductive Stop
  | exception (exception : ServerException)
  | crash (failure : Failure)
  | stalled
  | fuel
  deriving DecidableEq, Repr

inductive WriteResult
  | wrote (count : Nat)
  | interrupted (serverRunning : Bool)
  | brokenPipe
  | failed (errno : Nat) (description : String)
  deriving DecidableEq, Repr

/-- What one call of `read` returns, `stopped` where `server_running` is found unset before it. -/
inductive Delivery
  | bytes (chunk : List Byte)
  | closed
  | interrupted
  | failed
  | stopped
  deriving DecidableEq, Repr

/-- Everything outside of the server: the results of `write`, in the order of the
calls of `writeExactlyNBytes`, and what a pass finds behind the end of the stream
buffer. After the listed results, `write` takes all bytes. -/
structure Environment where
  write : Nat → List WriteResult
  beyond : Nat → Memory Byte

/-- A pass over a request at the start of the stream buffer. Its reads are pairs of an
offset and a count. -/
structure Pass where
  command : Byte
  totalLength : Nat
  size : Nat
  reads : List (Nat × Nat)
  removed : Option Nat
  deriving DecidableEq, Repr

/-- The server with its current connection. `sent` is what has been written to it, `passes`
is newest first. -/
structure Server where
  btree : BTree
  connected : Bool
  streamBuffer : List Byte
  sent : List Byte
  writes : Nat
  passes : List Pass

abbrev ServerM := EStateM Stop Server

inductive Exit
  | returned
  | waiting
  deriving DecidableEq, Repr

namespace Server

/-- The handlers catch what the tree throws. -/
def stopOf : Failure → Stop
  | .runtimeError message => .exception (.runtimeError message)
  | failure => .crash failure

def liftTree {α : Type} (program : TreeM α) : ServerM α := fun server =>
  match program server.btree with
  | .ok result btree => .ok result { server with btree }
  | .error failure btree => .error (stopOf failure) { server with btree }

def throwRuntimeError (message : String) : ServerM Unit := throw (.exception (.runtimeError message))

/-! ### The connection -/

def send (bytes : List Byte) : ServerM Unit :=
  modify fun server => { server with sent := server.sent ++ bytes }

/-- The loop of `writeExactlyNBytes`; `count` is how often in a row nothing was written. -/
def writeLoop : List WriteResult → (buffer : List Byte) → (count : Nat) → ServerM Unit
  | [], buffer, _ => send buffer
  | result :: results, buffer, count =>
    if buffer = [] then pure ()
    else
      match result with
      | .wrote written =>
        if min written buffer.length = 0 then
          if count + 1 ≥ 100 then
            throwRuntimeError "[Server] Failing to write to the client again and again, Aborting."
          else writeLoop results buffer (count + 1)
        else do
          send (buffer.take written)
          writeLoop results (buffer.drop written) 0
      | .interrupted serverRunning =>
        if serverRunning then writeLoop results buffer 0 else throw (.exception .serverShutdown)
      | .brokenPipe => throwRuntimeError "[Server] Client disconnected abruptly (Broken Pipe)."
      | .failed errno description =>
        throwRuntimeError ("[Server] Error writing to the client, Error code: " ++ toString errno ++
          "\n Error description: " ++ description)

section
variable (environment : Environment)

def writeExactlyNBytes (buffer : List Byte) : ServerM Unit := do
  let results := environment.write (← get).writes
  modify fun server => { server with writes := server.writes + 1 }
  writeLoop results buffer 0

/-! ### The stream buffer -/

/-- Reading from the stream buffer does not check its size. -/
def readStream (offset count : Nat) : ServerM (List Byte) := do
  let server ← get
  modify fun server =>
    { server with
      passes := server.passes.modifyHead fun pass => { pass with reads := pass.reads ++ [(offset, count)] } }
  return (List.range count).map fun i =>
    server.streamBuffer.getD (offset + i) (environment.beyond server.passes.length (offset + i))

def erase (count : Nat) : ServerM Unit := modify fun server =>
  { server with
    streamBuffer := server.streamBuffer.drop count
    passes := server.passes.modifyHead fun pass =>
      { pass with removed := some (server.streamBuffer.take count).length } }

/-! ### Requests -/

def responseHeader (totalLength statusCode : Nat) (echoCommand : Command) : List Byte :=
  Utils.setChecksum (ResponseHeader.encode ⟨NETWORK_MAGIC_NUMBER, totalLength, statusCode,
    echoCommand.toByte, 0⟩)

/-- Send what a stream yields. A piece without bytes leaves the stream as it is, so there are
no more turns than bytes. -/
def sendPayload : (turns : Nat) → PayloadStream → ServerM Unit
  | 0, searchResult => if searchResult.isEOF then pure () else throw .stalled
  | turns + 1, searchResult => do
    if searchResult.isEOF then pure ()
    else
      let (buffer, searchResult) ← liftTree (searchResult.nextBytes 1024)
      writeExactlyNBytes environment buffer
      sendPayload turns searchResult

def handleSearch : ServerM Unit := do
  let requestHeader := RequestHeader.decode (← readStream environment 0 REQUEST_HEADER_SIZE)
  let searchKey := LittleEndian.decode (← readStream environment REQUEST_HEADER_SIZE SIZEOF_KEY)
  let searchResult ← liftTree (BTree.search searchKey)
  let payloadSize := searchResult.payloadRemaining
  let statusCode := if searchResult.isEOF then 4 else 1
  writeExactlyNBytes environment
    (responseHeader (u32 (RESPONSE_HEADER_SIZE + payloadSize)) statusCode .search)
  sendPayload environment payloadSize searchResult
  erase requestHeader.totalLength

/-- The answer to a change: the key is sent back. -/
def acknowledge (statusCode : Nat) (echoCommand : Command) (key : List Byte) : ServerM Unit := do
  writeExactlyNBytes environment (responseHeader (RESPONSE_HEADER_SIZE + SIZEOF_KEY) statusCode echoCommand)
  writeExactlyNBytes environment key

def handleInsert : ServerM Unit := do
  let requestHeader := RequestHeader.decode (← readStream environment 0 REQUEST_HEADER_SIZE)
  let insertKey ← readStream environment REQUEST_HEADER_SIZE SIZEOF_KEY
  if requestHeader.totalLength > 20000 ∨ requestHeader.totalLength < REQUEST_HEADER_SIZE then
    throw (.exception .corruptPacket)
  else
    let payload ← readStream environment REQUEST_HEADER_SIZE (requestHeader.totalLength - REQUEST_HEADER_SIZE)
    let insertResult ← liftTree (BTree.insert payload (LittleEndian.decode insertKey))
    acknowledge environment (if insertResult then 1 else 0) .insert insertKey
    erase requestHeader.totalLength

def handleDelete : ServerM Unit := do
  let requestHeader := RequestHeader.decode (← readStream environment 0 REQUEST_HEADER_SIZE)
  let deleteKey ← readStream environment REQUEST_HEADER_SIZE SIZEOF_KEY
  let deleteResult ← liftTree (BTree.delete (fun _ => 0) (LittleEndian.decode deleteKey))
  acknowledge environment (if deleteResult then 1 else 4) .delete deleteKey
  erase requestHeader.totalLength

/-- The `catch` clauses around a handler: any exception ends the connection. -/
def caught (handler : ServerM Unit) : ServerM Bool :=
  tryCatch (do handler; return false) fun
    | .exception _ => return true
    | stop => throw stop

/-- One pass over a complete request; the result is whether `HandleClient` returns. -/
def dispatch (requestHeader : RequestHeader) : ServerM Bool := do
  modify fun server =>
    { server with
      passes := ⟨requestHeader.command, requestHeader.totalLength, server.streamBuffer.length, [], none⟩ :: server.passes }
  match Command.ofByte requestHeader.command with
  | some .search => caught (handleSearch environment)
  | some .insert => caught (handleInsert environment)
  | some .delete => caught (handleDelete environment)
  | some .quit => return true
  | _ => throw (.exception (.runtimeError "[Server] Invalid comand type."))

/-- The loop over the stream buffer; the result is whether `HandleClient` returns. -/
def innerLoop : (fuel : Nat) → ServerM Bool
  | 0 => throw .fuel
  | fuel + 1 => do
    let streamBuffer := (← get).streamBuffer
    if streamBuffer.length < REQUEST_HEADER_SIZE then return false
    else
      let requestHeader := RequestHeader.decode (streamBuffer.take REQUEST_HEADER_SIZE)
      if requestHeader.magicNumber ≠ NETWORK_MAGIC_NUMBER then return true
      else if !Utils.verifyChecksum (streamBuffer.take REQUEST_HEADER_SIZE) then return true
      else if streamBuffer.length < requestHeader.totalLength then return false
      else if ← dispatch environment requestHeader then return true
      else innerLoop fuel

/-- The loop around `read`. Without further deliveries the server waits for the next one. -/
def readLoop (fuel : Nat) : List Delivery → ServerM Exit
  | [] => return .waiting
  | .closed :: _ | .failed :: _ | .stopped :: _ => return .returned
  | .interrupted :: deliveries => readLoop fuel deliveries
  | .bytes chunk :: deliveries => do
    modify fun server => { server with streamBuffer := server.streamBuffer ++ chunk }
    if ← innerLoop environment fuel then return .returned
    else readLoop fuel deliveries

def handleClient (fuel : Nat) (deliveries : List Delivery) : ServerM Exit := do
  modify fun server => { server with streamBuffer := [], passes := [] }
  readLoop environment fuel deliveries

end

/-! ### Connections one after the other -/

/-- `Bootstrap`, once storage manager and buffer pool are up. -/
def bootstrap : ServerM Unit := liftTree BTree.construct

def launched : Server := ⟨BTree.bootstrapped, false, [], [], 0, []⟩

/-- What one call of `accept` returns, `stopped` where `server_running` is found unset before it. -/
inductive Arrival
  | connection (deliveries : List Delivery)
  | interrupted
  | failed
  | stopped

/-- The socket of the last connection is overwritten, not closed. -/
def accept : ServerM Unit := modify fun server => { server with connected := true, sent := [] }

def runServer (environment : Environment) (fuel : Nat) : List Arrival → ServerM Exit
  | [] => return .waiting
  | .stopped :: _ => return .returned
  | .interrupted :: arrivals => runServer environment fuel arrivals
  | .failed :: _ => throw (.exception (.runtimeError "Accept failed"))
  | .connection deliveries :: arrivals => do
    accept
    match ← handleClient environment fuel deliveries with
    | .returned => runServer environment fuel arrivals
    | .waiting => return .waiting

/-- The destructor closes the connection; nothing else does. -/
def destroy : ServerM Unit := modify fun server => { server with connected := false }

end Server
end Datashil
