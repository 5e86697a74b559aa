import Dwhbll.Lib.Circular
import Dwhbll.Lib.Transition

/-!
# `buffered_socket` of `async/net/buffered_socket.cpp`

A socket with a buffer of 4096 bytes for each direction over another socket. What the socket underneath
answers is a parameter (`Peer`); which bytes went through it is kept with the state (`Wire`). A call that
places bytes in the buffer of its caller returns these bytes.
-/

namespace Dwhbll.Async.Net

/-- The answers of the socket underneath, one for each call of it. -/
structure Peer where
  /-- The bytes that arrive, in order. -/
  source : Nat → UInt8
  /-- An error, or by how much the bytes that are read exceed one, if so many are asked for. -/
  readSome : Nat → Except Int Nat
  write : Nat → Except Int Unit

/-- The calls of the socket underneath so far, and what has come from them. -/
structure Wire where
  reads : Nat := 0
  writes : Nat := 0
  received : List UInt8 := []
  failed : List Int := []
  handed : List UInt8 := []
  deriving DecidableEq, Repr

namespace Wire

/-- `decorated_socket::read_some` with a buffer of `n` bytes. -/
def readSome (peer : Peer) (n : Nat) (w : Wire) : Except Int (List UInt8) × Wire :=
  match peer.readSome w.reads with
  | .error e => (.error e, { w with reads := w.reads + 1, failed := w.failed ++ [e] })
  | .ok k =>
      let bytes := (List.range (min (k + 1) n)).map fun i => peer.source (w.received.length + i)
      (.ok bytes, { w with reads := w.reads + 1, received := w.received ++ bytes })

/-- `decorated_socket::write`. -/
def write (peer : Peer) (bytes : List UInt8) (w : Wire) : Except Int Unit × Wire :=
  match peer.write w.writes with
  | .error e => (.error e, { w with writes := w.writes + 1 })
  | .ok () => (.ok (), { w with writes := w.writes + 1, handed := w.handed ++ bytes })

end Wire

def BUFFER_SIZE : Nat := 4096

def HIGH_WATERMARK : Nat := BUFFER_SIZE / 4 * 3

/-- `refills` records what was read into the inbound buffer each time: so many bytes, or an error. -/
structure BufferedSocket where
  wire : Wire := {}
  inboundBuffer : List UInt8 := List.replicate BUFFER_SIZE 0
  inboundHead : Nat := 0
  inboundSize : Nat := 0
  outboundBuffer : List UInt8 := List.replicate BUFFER_SIZE 0
  outboundHead : Nat := 0
  outboundSize : Nat := 0
  refills : List (Option Nat) := []
  deriving DecidableEq, Repr

/-- The bytes a call has placed in the buffer of its caller, and how it ended. -/
structure ReadReply where
  bytes : List UInt8
  result : Except Int Unit

/-- `std::copy` of `bytes` to `begin() + pos`. -/
def copyTo (buffer : List UInt8) (pos : Nat) (bytes : List UInt8) : List UInt8 :=
  buffer.take pos ++ bytes ++ buffer.drop (pos + bytes.length)

namespace BufferedSocket

variable (peer : Peer)

/-! ## Reading -/

def readFromBuffer (n : Nat) (s : BufferedSocket) : List UInt8 × BufferedSocket :=
  let copySize := min n s.inboundSize
  ((s.inboundBuffer.drop s.inboundHead).take copySize,
    { s with inboundSize := s.inboundSize - copySize, inboundHead := s.inboundHead + copySize })

/-- The inbound buffer, filled from the socket underneath. The answer of that is not looked at. -/
def refill (s : BufferedSocket) : BufferedSocket :=
  match s.wire.readSome peer BUFFER_SIZE with
  | (.error _, wire) =>
      { s with wire := wire, inboundSize := BUFFER_SIZE, inboundHead := 0, refills := s.refills ++ [none] }
  | (.ok bytes, wire) =>
      { s with
        wire := wire, inboundBuffer := copyTo s.inboundBuffer 0 bytes, inboundSize := BUFFER_SIZE
        inboundHead := 0, refills := s.refills ++ [some bytes.length] }

/-- `read_some` with a buffer of `n` bytes. -/
def readSome (n : Nat) (s : BufferedSocket) : ReadReply × BufferedSocket :=
  if s.inboundSize ≠ 0 then
    let (bytes, s) := s.readFromBuffer n
    (⟨bytes, .ok ()⟩, s)
  else if n ≥ BUFFER_SIZE then
    match s.wire.readSome peer n with
    | (.error e, wire) => (⟨[], .error e⟩, { s with wire := wire })
    | (.ok bytes, wire) => (⟨bytes, .ok ()⟩, { s with wire := wire })
  else
    let (bytes, s) := (s.refill peer).readFromBuffer n
    (⟨bytes, .ok ()⟩, s)

/-- The loop of `read`, of at most `fuel` rounds, with `n` bytes still to be read. -/
def readLoop : (fuel n : Nat) → BufferedSocket → ReadReply × BufferedSocket
  | _, 0, s => (⟨[], .ok ()⟩, s)
  | 0, _ + 1, s => (⟨[], .ok ()⟩, s)
  | fuel + 1, n + 1, s =>
      match s.readSome peer (n + 1) with
      | (⟨bytes, .error e⟩, s) => (⟨bytes, .error e⟩, s)
      | (⟨bytes, .ok ()⟩, s) =>
          let (reply, s) := readLoop fuel (n + 1 - bytes.length) s
          (⟨bytes ++ reply.bytes, reply.result⟩, s)

/-- `read` with a buffer of `n` bytes. Every round reads a byte, so there are no more than `n`. -/
def read (n : Nat) (s : BufferedSocket) : ReadReply × BufferedSocket := s.readLoop peer n n

/-! ## Writing -/

def flush (s : BufferedSocket) : Except Int Unit × BufferedSocket :=
  let first := (s.outboundBuffer.drop s.outboundHead).take
    (min BUFFER_SIZE (s.outboundHead + s.outboundSize) - s.outboundHead)
  match s.wire.write peer first with
  | (.error e, wire) => (.error e, { s with wire := wire })
  | (.ok (), wire) =>
      if s.outboundHead + s.outboundSize ≥ BUFFER_SIZE then
        match wire.write peer (s.outboundBuffer.take (s.outboundHead + s.outboundSize - BUFFER_SIZE)) with
        | (.error e, wire) => (.error e, { s with wire := wire })
        | (.ok (), wire) => (.ok (), { s with wire := wire, outboundHead := 0, outboundSize := 0 })
      else (.ok (), { s with wire := wire, outboundHead := 0, outboundSize := 0 })

/-- The part of `write_some` that puts the bytes in the outbound buffer. -/
def append (bytes : List UInt8) (s : BufferedSocket) : BufferedSocket :=
  let wrapped := s.outboundHead + s.outboundSize ≥ BUFFER_SIZE
  let willWrap := s.outboundHead + s.outboundSize + bytes.length ≥ BUFFER_SIZE
  let currentHeadPos :=
    if wrapped then s.outboundHead + s.outboundSize - BUFFER_SIZE else s.outboundHead + s.outboundSize
  let outboundBuffer :=
    if willWrap ∧ ¬ wrapped then
      let firstEnd := BUFFER_SIZE - currentHeadPos
      copyTo (copyTo s.outboundBuffer currentHeadPos (bytes.take firstEnd)) 0 (bytes.drop firstEnd)
    else copyTo s.outboundBuffer currentHeadPos bytes
  let outboundHead := s.outboundHead + currentHeadPos
  let outboundHead := if outboundHead ≥ BUFFER_SIZE then outboundHead - BUFFER_SIZE else outboundHead
  { s with outboundBuffer, outboundHead, outboundSize := s.outboundSize + bytes.length }

/-- The outbound buffer is flushed before the write. -/
def flushesFirst (s : BufferedSocket) (bytes : List UInt8) : Prop :=
  s.outboundSize + bytes.length ≥ BUFFER_SIZE ∨ bytes.length ≥ HIGH_WATERMARK

instance (s : BufferedSocket) (bytes : List UInt8) : Decidable (s.flushesFirst bytes) :=
  inferInstanceAs (Decidable (_ ∨ _))

/-- What `write_some` does once the buffer is flushed, if it has to be. -/
def writeFlushed (bytes : List UInt8) (s : BufferedSocket) : Except Int Nat × BufferedSocket :=
  if bytes.length ≥ HIGH_WATERMARK then
    match s.wire.write peer bytes with
    | (.error e, wire) => (.error e, { s with wire := wire })
    | (.ok (), wire) => (.ok bytes.length, { s with wire := wire })
  else (.ok bytes.length, s.append bytes)

def writeSome (bytes : List UInt8) (s : BufferedSocket) : Except Int Nat × BufferedSocket :=
  if s.flushesFirst bytes then
    match s.flush peer with
    | (.error e, s) => (.error e, s)
    | (.ok (), s) => s.writeFlushed peer bytes
  else s.writeFlushed peer bytes

def write (bytes : List UInt8) (s : BufferedSocket) : Except Int Unit × BufferedSocket :=
  match s.writeSome peer bytes with
  | (.error e, s) => (.error e, s)
  | (.ok _, s) => (.ok (), s)

/-! ## Runs -/

inductive ReadCall where
  | read (n : Nat)
  | readSome (n : Nat)
  deriving DecidableEq, Repr

def ReadCall.run (s : BufferedSocket) : ReadCall → ReadReply × BufferedSocket
  | .read n => s.read peer n
  | .readSome n => s.readSome peer n

inductive WriteCall where
  | write (bytes : List UInt8)
  | writeSome (bytes : List UInt8)
  | flush
  deriving DecidableEq, Repr

/-- The number of bytes that are written, for those calls that return it. -/
def WriteCall.run (s : BufferedSocket) : WriteCall → Except Int (Option Nat) × BufferedSocket
  | .write bytes => let (result, s) := s.write peer bytes; (result.map fun _ => none, s)
  | .writeSome bytes => let (result, s) := s.writeSome peer bytes; (result.map some, s)
  | .flush => let (result, s) := s.flush peer; (result.map fun _ => none, s)

def WriteCall.bytes : WriteCall → List UInt8
  | .write bytes | .writeSome bytes => bytes
  | .flush => []

end BufferedSocket

end Dwhbll.Async.Net
