import Dwhbll.MemBuf.Basic
import Mathlib.Algebra.Group.Nat.Defs

/-!
# `file` of `concurrency/coroutine/wrappers/file.cpp`

A file with a buffer for what was read too much and one for what the kernel has not accepted yet. What the kernel
answers is given: how many bytes a `read` finds or a `write` accepts. `mem` is what stands behind the storage of the
rings.
-/

namespace Dwhbll.Concurrency.Coroutine.Wrappers

open Collections

structure File where
  fd : Int
  readHead : Nat := 0
  writeHead : Nat := 0
  eof : Bool := false
  rdbuf : MemBuf := MemBuf.new
  wrbuf : MemBuf := MemBuf.new
  deriving DecidableEq, Repr

namespace File

def batchReadCount : Nat := 65536

/-- `rt_exception_base` with its text, or what the buffers throw. -/
inductive Exn where
  | runtime (what : String)
  | ring (e : Ring.Exn)
  deriving DecidableEq, Repr

/-! ## Reading -/

section

variable (mem : Nat → UInt8) (contents : List UInt8) (answers : Nat → Nat)

/-- What a `read` of the kernel finds at an offset. -/
def found (offset count : Nat) : List UInt8 := (contents.drop offset).take count

/-- The loop of `read(-1)`, before call number `k`. -/
def readAll : (fuel k : Nat) → (result : List UInt8) → File → Option (List UInt8 × File)
  | 0, _, _, _ => none
  | fuel + 1, k, result, f =>
      if answers k = 0 then some (result, f)
      else
        readAll fuel (k + 1) (result ++ found contents f.readHead (answers k))
          { f with readHead := f.readHead + answers k }

/-- `read(n)` behind the bytes of the buffer, where the kernel reads straight into the result. -/
def readDirect (buf2 : List UInt8) (f : File) : List UInt8 × File :=
  (buf2 ++ found contents f.readHead (answers 0),
    { f with readHead := f.readHead + answers 0, eof := f.eof || answers 0 = 0 })

/-- The same where it reads a batch. The result has been resized to `n`, with zeros. -/
def readBatch (missing : Nat) (buf2 : List UInt8) (f : File) : List UInt8 × File :=
  let buffer := found contents f.readHead (answers 0)
  let f := { f with readHead := f.readHead + answers 0, eof := f.eof || answers 0 = 0 }
  if missing > answers 0 then (buf2 ++ (buffer ++ List.replicate (missing - answers 0) 0), f)
  else (buf2 ++ buffer.take missing, { f with rdbuf := f.rdbuf.writeVector mem (buffer.drop missing) })

/-- `read(n)`, where `n` is -1 or at least 1. There is no answer where `read(-1)` goes on. -/
def read (fuel : Nat) (n : Int) (f : File) : Option (Except Exn (List UInt8) × File) :=
  if f.fd < 0 then some (.error (.runtime "reading from closed file!"), f)
  else if f.eof then some (.ok [], f)
  else if n ≠ -1 ∧ f.rdbuf.size > n.toNat then
    match MemBuf.readVector n.toNat f.rdbuf with
    | (.error e, b) => some (.error (.ring e), { f with rdbuf := b })
    | (.ok buf2, b) => some (.ok buf2, { f with rdbuf := b })
  else
    match MemBuf.readVector f.rdbuf.size f.rdbuf with
    | (.error e, b) => some (.error (.ring e), { f with rdbuf := b })
    | (.ok buf2, b) =>
        if n = -1 then
          (readAll contents answers fuel 0 buf2 { f with rdbuf := b }).map fun (result, f) =>
            (.ok result, { f with eof := true })
        else if n.toNat - buf2.length > batchReadCount then
          let (result, f) := readDirect contents answers buf2 { f with rdbuf := b }
          some (.ok result, f)
        else
          let (result, f) := readBatch mem contents answers (n.toNat - buf2.length) buf2 { f with rdbuf := b }
          some (.ok result, f)

end

end File

/-! ## Writing -/

/-- A call that writes. -/
inductive WriteOp where
  | write (data : List UInt8)
  | drain
  deriving DecidableEq, Repr

/-- Where the calls are: in none, after the one that returned last, or at one of their `co_await`s. -/
inductive Pc where
  | returned (op : Option WriteOp)
  | thrown (e : File.Exn)
  /-- `try_flush_wrbuf` awaits the kernel. -/
  | flushing (op : WriteOp)
  /-- `write` awaits the kernel. -/
  | writing (data : List UInt8)
  /-- `drain` awaits the file to be writable. -/
  | polling
  deriving DecidableEq, Repr

/-- A file that is written, what is in it, and all data of the calls of `write` that have returned. -/
structure Writer where
  file : File
  contents : List UInt8
  pc : Pc := .returned none
  written : List UInt8 := []
  deriving DecidableEq, Repr

namespace Writer

/-- The kernel writes at an offset; a gap before it is filled with zeros. -/
def pwrite (contents : List UInt8) (offset : Nat) (bytes : List UInt8) : List UInt8 :=
  if bytes = [] then contents
  else
    (contents ++ List.replicate (offset - contents.length) 0).take offset ++ bytes ++
      contents.drop (offset + bytes.length)

/-- The kernel has written these bytes at `write_head`, which goes behind them. -/
def accept (bytes : List UInt8) (w : Writer) : Writer :=
  { w with
    contents := pwrite w.contents w.file.writeHead bytes
    file := { w.file with writeHead := w.file.writeHead + bytes.length } }

/-- `wrbuf.write_vector(data)`, and the `write` of `data` returns. -/
def keep (mem : Nat → UInt8) (data rest : List UInt8) (w : Writer) : Writer :=
  { w with
    file := { w.file with wrbuf := w.file.wrbuf.writeVector mem rest }
    written := w.written ++ data
    pc := .returned (some (.write data)) }

/-- How a call goes on with the result of `try_flush_wrbuf`. -/
def resume (mem : Nat → UInt8) (op : WriteOp) (result : Bool) (w : Writer) : Writer :=
  match op with
  | .write data => if result then { w with pc := .writing data } else w.keep mem data data
  | .drain => if result then { w with pc := .returned (some .drain) } else { w with pc := .polling }

/-- `try_flush_wrbuf`, up to its `co_await`. -/
def tryFlush (mem : Nat → UInt8) (op : WriteOp) (w : Writer) : Writer :=
  if w.file.fd < 0 then { w with pc := .thrown (.runtime "writing to closed file!") }
  else if w.file.wrbuf.isEmpty then w.resume mem op true
  else
    { w with
      file := { w.file with wrbuf := { w.file.wrbuf with buffer := w.file.wrbuf.buffer.makeCont mem } }
      pc := .flushing op }

inductive Action where
  /-- A call is made; no other is running. -/
  | call (mem : Nat → UInt8) (op : WriteOp)
  /-- The kernel's `write` ends; it has accepted `wrote` bytes. -/
  | wrote (mem : Nat → UInt8) (wrote : Nat)
  /-- The kernel's `poll` ends. -/
  | polled (mem : Nat → UInt8)

/-- What the kernel may answer to a `write` of `size` bytes: the count is a `uint32_t` and the result an `int32_t`. -/
def MayAccept (size wrote : Nat) : Prop := wrote ≤ size % 2 ^ 32 ∧ wrote < 2 ^ 31

instance (size wrote : Nat) : Decidable (MayAccept size wrote) := inferInstanceAs (Decidable (_ ∧ _))

def step (w : Writer) : Action → Option Writer
  | .call mem op =>
      match w.pc with
      | .returned _ =>
          if w.file.fd < 0 then some { w with pc := .thrown (.runtime "writing to closed file!") }
          else some (w.tryFlush mem op)
      | _ => none
  | .wrote mem wrote =>
      match w.pc with
      | .flushing op =>
          if MayAccept w.file.wrbuf.size wrote then
            -- The kernel is given the storage of the ring from its first cell on.
            let w := w.accept (w.file.wrbuf.buffer.data.take wrote)
            match MemBuf.skip wrote w.file.wrbuf with
            | (.ok (), b) => some (({ w with file := { w.file with wrbuf := b } }).resume mem op b.isEmpty)
            | (.error e, b) => some { w with file := { w.file with wrbuf := b }, pc := .thrown (.ring e) }
          else none
      | .writing data =>
          if MayAccept data.length wrote then
            let w := w.accept (data.take wrote)
            if wrote ≠ data.length then some (w.keep mem data (data.drop wrote))
            else some { w with written := w.written ++ data, pc := .returned (some (.write data)) }
          else none
      | _ => none
  | .polled mem =>
      match w.pc with
      | .polling => some (w.tryFlush mem .drain)
      | _ => none

/-- The runs on a file that is open, whatever it contains. -/
def system (fd : Int) (contents : List UInt8) : Transition.System Writer Action :=
  .ofOption { file := { fd := fd }, contents := contents } step

end Writer

end Dwhbll.Concurrency.Coroutine.Wrappers
