/- `bufio.c`: buffered input from a socket. -/

import ComputerSystems.Pserv.Buffers

set_option autoImplicit false
set_option relaxedAutoImplicit false

namespace ComputerSystems.Pserv.Input

open ComputerSystems.Memory.CStrings
open ComputerSystems.Pserv.Strings
open ComputerSystems.Pserv.Buffers

def BUFSIZE : Nat := 8192
def READSIZE : Nat := 2048

/-- What one `recv` gives. -/
structure Chunk where
  bytes : Bytes
  nonempty : bytes ≠ []
  fits : bytes.length ≤ READSIZE

/-- What `recv` returns when it has given all chunks. -/
inductive Ending where
  | eof
  | error
  deriving DecidableEq, Repr

def Ending.rc : Ending → Int
  | .eof => 0
  | .error => -1

/-- `struct bufio`; in the place of the socket, what will come from it. -/
structure Bufio where
  bufpos : Nat
  buf : Buffer
  input : List Chunk
  ending : Ending

abbrev Io := StateT Bufio (Except Stop)

def bufioCreate (fresh : Nat → UInt8) (input : List Chunk) (ending : Ending) : Bufio :=
  ⟨0, bufferInit fresh BUFSIZE, input, ending⟩

/-- `bytes_buffered`, whose difference of an `int` and a `size_t` becomes a `ssize_t`. -/
def bytesBuffered (self : Bufio) : Int := Int.bmod (self.buf.len - self.bufpos) (2 ^ 64)

def TRUNCATE_THRESHOLD : Int := 10000

/-- `bufio_truncate`; `fresh` is what `malloc` finds in the storage. -/
def bufioTruncate (fresh : Nat → UInt8) : Io Unit := do
  let self ← get
  if self.buf.len > TRUNCATE_THRESHOLD then
    let unread := int (bytesBuffered self)
    if unread < 0 then
      throw .assertion
    else if unread = 0 then
      set { self with buf := bufferReset self.buf BUFSIZE, bufpos := 0 }
    else
      let buf ← bufferAppend (bufferInit fresh BUFSIZE)
        (self.buf.storage.slice self.bufpos unread.toNat)
      set { self with buf := buf, bufpos := 0 }

def readMore : Io Int := do
  let self ← get
  let buf ← bufferEnsureCapacity self.buf READSIZE
  match self.input with
  | [] =>
    set { self with buf := buf }
    return self.ending.rc
  | c :: input =>
    let buf ← buf.storeAll buf.len c.bytes
    set { self with buf := { buf with len := int (buf.len + c.bytes.length) }, input := input }
    return c.bytes.length

def assertInside (offset : Nat) : Io Unit := do
  if (offset : Int) < (← get).buf.len then pure () else throw .assertion

def bufioOffset2ptr (offset : Nat) : Io Nat := do
  assertInside offset
  return offset

def bufioPtr2offset (ptr : Nat) : Io Nat := do
  assertInside ptr
  return ptr

/-- `self->buf.buf[self->bufpos++]`. -/
def nextByte : Io UInt8 := do
  let self ← get
  if (self.bufpos : Int) < self.buf.cap then
    set { self with bufpos := self.bufpos + 1 }
    return self.buf.buf self.bufpos
  else throw .outOfBounds

/-- `bufio_readbyte`: what it returns, and the byte. -/
def bufioReadbyte : Io (Int × UInt8) := do
  let rc ← if bytesBuffered (← get) = 0 then readMore else pure 1
  if rc ≤ 0 then
    return (rc, 0)
  else
    let out ← nextByte
    return (1, out)

def unread (self : Bufio) : Nat :=
  (bytesBuffered self).toNat + (self.input.map fun c => c.bytes.length).sum

/-- The loop of `bufio_readline`. -/
def readlineLoop (lineOffset : Nat) : Nat → UInt8 → Io Int
  | 0, _ => throw .steps
  | n + 1, p => do
    if p = LF then
      return (← get).bufpos - lineOffset
    else
      let (rc, p) ← bufioReadbyte
      if rc < 0 then
        return rc
      else if rc = 0 then
        return (← get).bufpos - lineOffset
      else readlineLoop lineOffset n p

/-- `bufio_readline`: what it returns, and the offset of the line. -/
def bufioReadline : Io (Int × Nat) := do
  let self ← get
  let len ← readlineLoop self.bufpos (unread self + 2) 0
  return (len, self.bufpos)

/-- The loop of `bufio_read`, which returns a negative `rc` of `read_more`. -/
def readLoop (count : Nat) : Nat → Io Int
  | 0 => throw .steps
  | n + 1 => do
    if bytesBuffered (← get) < count then
      let rc ← readMore
      if rc ≤ 0 then
        return rc
      else readLoop count n
    else return 0

/-- `bufio_read`: what it returns, and the offset of the bytes. -/
def bufioRead (count : Nat) : Io (Int × Nat) := do
  let bufOffset := (← get).bufpos
  let rc ← readLoop count ((← get).input.length + 2)
  if rc < 0 then
    return (rc, bufOffset)
  else
    let self ← get
    -- `min` takes two `int`s
    let bytesRead := min (int (bytesBuffered self)) (int count)
    set { self with bufpos := ((self.bufpos + bytesRead) % 2 ^ 64).toNat }
    return (bytesRead, bufOffset)

end ComputerSystems.Pserv.Input
