import Dwhbll.Lib.Blocks
import Mathlib.Algebra.Group.Nat.Defs
import Mathlib.Data.List.Basic

/-!
# SHA-1 as FIPS 180-4 states it

Words are strings of 32 bits, and a message is a string of bytes.
-/

namespace SecureHash

abbrev Word := BitVec 32

/-! ## Functions and constants -/

def ch (x y z : Word) : Word := (x &&& y) ^^^ (~~~x &&& z)

def parity (x y z : Word) : Word := x ^^^ y ^^^ z

def maj (x y z : Word) : Word := (x &&& y) ^^^ (x &&& z) ^^^ (y &&& z)

def f (t : Nat) : Word → Word → Word → Word :=
  if t < 20 then ch else if t < 40 then parity else if t < 60 then maj else parity

def K (t : Nat) : Word :=
  if t < 20 then 0x5A827999#32 else if t < 40 then 0x6ED9EBA1#32 else if t < 60 then 0x8F1BBCDC#32 else 0xCA62C1D6#32

/-! ## Padding and parsing -/

/-- The message, one bit, the fewest zero bits that leave 64 bits of a block, and the length in bits. -/
def pad (m : List UInt8) : List UInt8 :=
  m ++ [0x80] ++ List.replicate ((119 - m.length % 64) % 64) 0 ++
    (List.range 8).map fun i => UInt8.ofNat (8 * m.length / 256 ^ (7 - i))

def blocks (p : List UInt8) : List (List UInt8) := (List.range (p.length / 64)).map fun i => (p.drop (64 * i)).take 64

/-- The word `t` of a block. -/
def word (block : List UInt8) (t : Nat) : Word :=
  let byte (i : Nat) : BitVec 8 := (block.getD i 0).toBitVec
  byte (4 * t) ++ byte (4 * t + 1) ++ byte (4 * t + 2) ++ byte (4 * t + 3)

/-! ## The hash -/

/-- The message schedule. -/
def W (M : Nat → Word) (t : Nat) : Word :=
  if t < 16 then M t else (W M (t - 3) ^^^ W M (t - 8) ^^^ W M (t - 14) ^^^ W M (t - 16)).rotateLeft 1

/-- The hash value, or the working variables. -/
@[ext]
structure Value where
  a : Word
  b : Word
  c : Word
  d : Word
  e : Word
  deriving DecidableEq

def initial : Value := ⟨0x67452301#32, 0xEFCDAB89#32, 0x98BADCFE#32, 0x10325476#32, 0xC3D2E1F0#32⟩

def step (W : Nat → Word) (v : Value) (t : Nat) : Value :=
  ⟨v.a.rotateLeft 5 + f t v.b v.c v.d + v.e + K t + W t, v.a, v.b.rotateLeft 30, v.c, v.d⟩

def compress (H : Value) (block : List UInt8) : Value :=
  let v := (List.range 80).foldl (step (W (word block))) H
  ⟨v.a + H.a, v.b + H.b, v.c + H.c, v.d + H.d, v.e + H.e⟩

def Value.bytes (H : Value) : List UInt8 :=
  [H.a, H.b, H.c, H.d, H.e].flatMap fun x => [24, 16, 8, 0].map fun i => .ofBitVec (x.extractLsb' i 8)

def sha1 (m : List UInt8) : List UInt8 := ((blocks (pad m)).foldl compress initial).bytes

/-! ## Blocks -/

variable {b p : List UInt8} {full : List (List UInt8)}

theorem blocks_append (hb : b.length = 64) : blocks (b ++ p) = b :: blocks p := by
  have hlen : (b ++ p).length / 64 = p.length / 64 + 1 := by
    rw [List.length_append, hb]
    omega
  rw [blocks, hlen, List.range_succ_eq_map, List.map_cons, List.map_map]
  refine congrArg₂ _ (List.take_left' hb) (List.map_congr_left fun i _ => ?_)
  rw [Function.comp_apply, Nat.succ_eq_add_one, Nat.mul_add, Nat.mul_one, Nat.add_comm, ← List.drop_drop, List.drop_left' hb]

theorem blocks_flatten (h : ∀ b ∈ full, b.length = 64) : blocks full.flatten = full := by
  induction full with
  | nil => rfl
  | cons b full ih =>
      rw [List.flatten_cons, blocks_append (h b List.mem_cons_self), ih fun c hc => h c (List.mem_cons_of_mem _ hc)]

end SecureHash
