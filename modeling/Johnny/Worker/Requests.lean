import Johnny.Library.FlatMemory
import Johnny.Worker.Allocation

namespace Johnny
namespace Worker

open Library

/-!
# One connection: reading requests and sending responses

The functions of `johnny_worker.c` that work on one connection.  They get the
context, the flat receive buffer that all contexts on the stack share, the
results that the next calls of `send` will have, and the list of calls made so
far.  They return the same data, changed.

Reading a field of the union that was not written last does not happen, as
`index` says which one was; the definitions below give it no meaning beyond a
zero.
-/

/-- What `recv` returned: some bytes, none at the end of the stream, or `-1`. -/
inductive RecvResult
  | received (bytes : Bytes)
  | failed (errno : Nat)
  deriving DecidableEq

/-- What `send` returned: the number of bytes accepted, or `-1`. -/
inductive SendResult
  | accepted (count : Nat)
  | failed (errno : Nat)
  deriving DecidableEq

/-- `EAGAIN` and `EWOULDBLOCK` are one number on Linux. -/
def eagain : Nat := 11

def ewouldblock : Nat := 11

/-- A call seen from outside: data received, data offered to `send`, or a
response selected for a file name while `unsent` was still to be sent. -/
inductive Call
  | recv (space : Int) (result : RecvResult)
  | send (offered : Bytes) (result : SendResult)
  | request (fileName : Bytes) (unsent : Bytes)
  deriving DecidableEq

/-- `EXIT_SUCCESS` and `EXIT_FAILURE`. -/
inductive Exit
  | success
  | failure
  deriving DecidableEq

structure Connection where
  ctx : ConnectionContext
  stackDataBuffer : Int -> UInt8
  sends : List SendResult
  calls : List Call

def getResponseLength (ctx : ConnectionContext) : Nat :=
  if ctx.index = johnnyStackConnections then
    match ctx.tail with
    | .extension extension => extension.responseLength
    | .responseLength _ => 0
  else
    match ctx.tail with
    | .responseLength length => length
    | .extension _ => 0

/-- `*get_response_length(ctx) = length`. -/
def setResponseLength (ctx : ConnectionContext) (length : Nat) : ConnectionContext :=
  if ctx.index = johnnyStackConnections then
    match ctx.tail with
    | .extension extension =>
        { ctx with tail := .extension { extension with responseLength := length } }
    | .responseLength _ => ctx
  else { ctx with tail := .responseLength length }

namespace Connection

/-- Where the buffer of a context on the stack starts. -/
def bufferBase (c : Connection) : Int :=
  (c.ctx.index : Int) * johnnyBufferSize

/-- The memory behind `get_buffer(ctx)`, by distance from that pointer. -/
def getBuffer (c : Connection) : Int -> UInt8 :=
  if c.ctx.index = johnnyStackConnections then
    match c.ctx.tail with
    | .extension extension => extension.buffer
    | .responseLength _ => fun _ => 0
  else fun position => c.stackDataBuffer (c.bufferBase + position)

/-- Write through `get_buffer(ctx) + position`. -/
def writeBuffer (c : Connection) (position : Int) (bytes : Bytes) : Connection :=
  if c.ctx.index = johnnyStackConnections then
    match c.ctx.tail with
    | .extension extension =>
        { c with
          ctx := { c.ctx with
            tail := .extension { extension with
              buffer := writeBytes extension.buffer position bytes } } }
    | .responseLength _ => c
  else
    { c with stackDataBuffer := writeBytes c.stackDataBuffer (c.bufferBase + position) bytes }

/-- The bytes of the selected response that are still to be sent. -/
def unsent (c : Connection) : Bytes :=
  c.ctx.response.read (getResponseLength c.ctx)

/-- The C string at a pointer into the buffer.  Every string that is read ends
inside the buffer. -/
def fileNameAt (c : Connection) (position : Int) : Bytes :=
  bytesUntil c.getBuffer 0 position johnnyBufferSize

end Connection

def http404 : Bytes :=
  ascii "HTTP/1.1 404 Not Found\r\nContent-length: 0\r\n\r\n"

/-- `send` accepts at most what it is offered.  Without a further result the
socket would block. -/
def johnnySendsBytes (c : Connection) : Exit × Connection :=
  let responseLength := getResponseLength c.ctx
  let offered := c.ctx.response.read responseLength
  match c.sends.headD (.failed eagain) with
  | .failed errno =>
      (if errno = eagain ∨ errno = ewouldblock then .success else .failure,
        { c with
          sends := c.sends.tail
          calls := c.calls ++ [.send offered (.failed errno)] })
  | .accepted count =>
      let bytesSent := min count responseLength
      let response := { c.ctx.response with offset := c.ctx.response.offset + bytesSent }
      (.success,
        { c with
          ctx := setResponseLength { c.ctx with response := response } (responseLength - bytesSent)
          sends := c.sends.tail
          calls := c.calls ++ [.send offered (.accepted bytesSent)] })

/-- The index into `JOHNNY_FILES` that a file name leads to. -/
def johnnyFileIndex (globals : Globals) (fileName : Bytes) : Nat :=
  globals.cmphSearch fileName

/-- The response pointer and length chosen for a file name. -/
def johnnySelectsResponse (globals : Globals) (fileName : Bytes) : ResponsePointer × Nat :=
  let johnnyFile := globals.johnnyFiles (johnnyFileIndex globals fileName)
  if globals.heap.cString johnnyFile.urlEncodedFileName = some fileName then
    (⟨johnnyFile.response, 0⟩, johnnyFile.responseLength)
  else (⟨http404, 0⟩, http404.length)

/-- The context before the first `send` of the response for a file name. -/
def Connection.selectsResponse (globals : Globals) (c : Connection) (fileName : Bytes) :
    Connection :=
  let selected := johnnySelectsResponse globals fileName
  { c with
    ctx := setResponseLength { c.ctx with response := selected.1 } selected.2
    calls := c.calls ++ [.request fileName c.unsent] }

def johnnySendsResponse (globals : Globals) (c : Connection) (fileName : Bytes) :
    Exit × Connection :=
  johnnySendsBytes (c.selectsResponse globals fileName)

/-- The string literal that the parser compares with, terminator included. -/
def crlfcrlf : Bytes := ascii "\r\n\r\n" ++ [0]

/-- The `prefix_counter >= 4` branch of the parser, with the position of the
file name: skip what is left of `GET /`, then look for the space behind the
name. -/
def startsFileName (c : Connection) (bytesParsed : Int) : Option Int × Connection :=
  let bufferSize := c.ctx.bufferSize
  if bufferSize ≤ bytesParsed then
    -- The buffer ends between the end of a request and the start of a file name.
    (none,
      { c with
        ctx := { c.ctx with
          bufferOffset := 0
          bufferSize := 0
          prefixCounter := 9 - (bytesParsed - bufferSize) } })
  else
    match memchr c.getBuffer 32 bytesParsed (bufferSize - bytesParsed).toNat with
    | none =>
        -- Partial file name: the saved bytes are counted nowhere.
        let saved := readBytes c.getBuffer bytesParsed (bufferSize - bytesParsed).toNat
        let cleared :=
          { c with ctx := { c.ctx with bufferOffset := 0, bufferSize := 0, prefixCounter := 9 } }
        (none, cleared.writeBuffer 0 saved)
    | some endOfFilename =>
        let terminated := c.writeBuffer endOfFilename [0]
        (some bytesParsed,
          { terminated with
            ctx := { terminated.ctx with bufferOffset := endOfFilename + 1, prefixCounter := 0 } })

/-- The loop over the buffer, with the number of bytes not yet parsed. -/
def filenameLoop (c : Connection) : Nat -> Int -> Int -> Option Int × Connection
  | 0, _, prefixCounter =>
      (none,
        { c with
          ctx := { c.ctx with
            prefixCounter := prefixCounter, bufferOffset := 0, bufferSize := 0 } })
  | rest + 1, bytesParsed, prefixCounter =>
      if 4 ≤ prefixCounter then startsFileName c (bytesParsed + (9 - prefixCounter))
      else if c.getBuffer bytesParsed = crlfcrlf.getD prefixCounter.toNat 0 then
        filenameLoop c rest (bytesParsed + 1) (prefixCounter + 1)
      else filenameLoop c rest (bytesParsed + 1) 0

/-- The position of the next file name, or `none` for `NULL`. -/
def johnnyFindsFilename (c : Connection) : Option Int × Connection :=
  filenameLoop c (c.ctx.bufferSize - c.ctx.bufferOffset).toNat c.ctx.bufferOffset
    c.ctx.prefixCounter

/-! ## Handling requests -/

/-- The loop of `johnny_handles_requests`.  The fuel bounds the file names of
one buffer: each takes at least the space behind it. -/
def handlesRequestsLoop (globals : Globals) : Nat -> Connection -> Exit × Connection
  | 0, c => (.success, c)
  | fuel + 1, c =>
      match johnnyFindsFilename c with
      | (none, c) => (.success, c)
      | (some position, c) =>
          match johnnySendsResponse globals c (c.fileNameAt position) with
          | (.failure, c) => (.failure, c)
          | (.success, c) => handlesRequestsLoop globals fuel c

def johnnyHandlesRequests (globals : Globals) (c : Connection) : Exit × Connection :=
  handlesRequestsLoop globals (johnnyBufferSize + 1) c

/-- `recv` into the buffer: the bytes are stored at `buffer_offset`, as many as
there is space for, and `buffer_size` becomes what `recv` returned. -/
def receives (c : Connection) (result : RecvResult) : Connection :=
  let bufferSpace := (johnnyBufferSize : Int) - c.ctx.bufferOffset
  match result with
  | .failed errno =>
      { c with
        ctx := { c.ctx with bufferSize := -1 }
        calls := c.calls ++ [.recv bufferSpace (.failed errno)] }
  | .received bytes =>
      let bytes := bytes.take bufferSpace.toNat
      let written := c.writeBuffer c.ctx.bufferOffset bytes
      { written with
        ctx := { written.ctx with bufferSize := bytes.length }
        calls := c.calls ++ [.recv bufferSpace (.received bytes)] }

end Worker
end Johnny
