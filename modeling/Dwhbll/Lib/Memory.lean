/-!
# Copies between storages

A storage is a list of cells. A copy that reads past the end of its source gets whatever the memory
behind the storage holds, which `mem` stands for, so a copy is total and says nothing about such a
read by itself; `Memcpy.ReadsInside` says that there is none.
-/

namespace Memory

variable {T : Type}

/-- What a read at offset `i` of the storage `xs` returns. -/
def readAt (mem : Nat → T) (xs : List T) (i : Nat) : T := (xs[i]?).getD (mem i)

/-- One call of `memcpy`: offsets into the target and the source, and a number of cells. -/
structure Memcpy where
  dst : Nat
  src : Nat
  len : Nat
  deriving DecidableEq, Repr

/-- The copy reads only cells of a source of `n` cells. -/
def Memcpy.ReadsInside (n : Nat) (c : Memcpy) : Prop := c.src + c.len ≤ n

instance (n : Nat) (c : Memcpy) : Decidable (c.ReadsInside n) :=
  inferInstanceAs (Decidable (_ ≤ _))

/-- The target after the copy `c` from `src`. -/
def memcpy (mem : Nat → T) (src dst : List T) (c : Memcpy) : List T :=
  dst.mapIdx fun i x =>
    if c.dst ≤ i ∧ i < c.dst + c.len then readAt mem src (c.src + (i - c.dst)) else x

/-- The target after several copies from one source. -/
def memcpys (mem : Nat → T) (src dst : List T) (cs : List Memcpy) : List T :=
  cs.foldl (memcpy mem src) dst

theorem some_readAt (mem : Nat → T) {xs : List T} {i : Nat} (h : i < xs.length) :
    some (readAt mem xs i) = xs[i]? := by
  simp [readAt, List.getElem?_eq_getElem h]

@[simp] theorem memcpy_length (mem : Nat → T) (src dst : List T) (c : Memcpy) :
    (memcpy mem src dst c).length = dst.length := by
  simp [memcpy]

@[simp] theorem memcpys_length (mem : Nat → T) (src dst : List T) (cs : List Memcpy) :
    (memcpys mem src dst cs).length = dst.length := by
  induction cs generalizing dst with
  | nil => rfl
  | cons c cs ih =>
      have h := ih (memcpy mem src dst c)
      rw [memcpy_length] at h
      exact h

/-- A cell inside the target range holds the source cell at the same distance from its start. -/
theorem memcpy_getElem?_of_mem (mem : Nat → T) {src dst : List T} {c : Memcpy} {i : Nat}
    (hi : i < dst.length) (h1 : c.dst ≤ i) (h2 : i < c.dst + c.len) :
    (memcpy mem src dst c)[i]? = some (readAt mem src (c.src + (i - c.dst))) := by
  simp [memcpy, hi, h1, h2]

/-- A cell outside the target range is unchanged. -/
theorem memcpy_getElem?_of_not_mem (mem : Nat → T) {src dst : List T} {c : Memcpy} {i : Nat}
    (h : ¬ (c.dst ≤ i ∧ i < c.dst + c.len)) : (memcpy mem src dst c)[i]? = dst[i]? := by
  simp [memcpy, h]

end Memory
