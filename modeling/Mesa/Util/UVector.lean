import Mesa.Data.Ring

/-!
# Growing circular buffers

The vector of `u_vector.c`.  Numbers are of 32 bits and wrap around, sizes are powers of two, and the
remainder by a size stands for the mask that is one less; the remainder by 0 stands for the mask of
all ones, as it should.

A function without a result has failed an assertion, or has copied beyond the end of an array.
-/

namespace Util

/-- `struct u_vector`. -/
structure UVector where
  head : ℕ
  tail : ℕ
  elementSize : ℕ
  size : ℕ
  data : ℕ → UInt8

namespace UVector

/-- The difference of two numbers of 32 bits. -/
def sub32 (a b : ℕ) : ℕ := (a + 2 ^ 32 - b) % 2 ^ 32

/-- `util_is_power_of_two`. -/
def isPowerOfTwo (v : ℕ) : Bool := v &&& sub32 v 1 == 0

/-- `u_align_u32`, for a power of two `a`. -/
def alignU32 (v a : ℕ) : ℕ := (v + a - 1) % 2 ^ 32 / a * a

/-- `memcpy` between arrays of the given sizes. -/
def memcpy (dst : ℕ → UInt8) (dstSize d : ℕ) (src : ℕ → UInt8) (srcSize s n : ℕ) :
    Option (ℕ → UInt8) :=
  if d + n ≤ dstSize ∧ s + n ≤ srcSize then some (Ring.copy dst d src s n) else none

/-- `u_vector_init`, where there is memory. -/
def init (elementSize size : ℕ) (data : ℕ → UInt8) : Option UVector :=
  if isPowerOfTwo size ∧ elementSize < size ∧ isPowerOfTwo elementSize then
    some ⟨0, 0, elementSize, size, data⟩
  else none

/-- The part of `u_vector_add` that moves the elements to a new array. -/
def grow (v : UVector) (size : ℕ) (data : ℕ → UInt8) : Option UVector :=
  let srcTail := v.tail % v.size
  let dstTail := v.tail % size
  if srcTail = 0 then do
    let data ← memcpy data size dstTail v.data v.size 0 v.size
    return { v with data := data, size := size }
  else
    let split := alignU32 v.tail v.size
    if v.tail ≤ split ∧ split < v.head then do
      let data ← memcpy data size dstTail v.data v.size srcTail (sub32 split v.tail)
      let data ← memcpy data size (split % size) v.data v.size 0 (sub32 v.head split)
      return { v with data := data, size := size }
    else none

/-- The part of `u_vector_add` after the growing. -/
def push (v : UVector) : Option (Option ℕ × UVector) :=
  if sub32 v.head v.tail < v.size then
    some (some (v.head % v.size), { v with head := (v.head + v.elementSize) % 2 ^ 32 })
  else none

/-- `u_vector_add`: the place of the new element, or `NULL`.  `malloc` gives an array of the given
size, if there is memory. -/
def add (malloc : ℕ → Option (ℕ → UInt8)) (v : UVector) : Option (Option ℕ × UVector) :=
  if sub32 v.head v.tail = v.size then
    let size := v.size * 2 % 2 ^ 32
    match malloc size with
    | none => some (none, v)
    | some data => (v.grow size data).bind push
  else v.push

/-- `u_vector_remove`: the place of the element, or `NULL`. -/
def remove (v : UVector) : Option (Option ℕ × UVector) :=
  if v.head = v.tail then some (none, v)
  else if sub32 v.head v.tail ≤ v.size then
    some (some (v.tail % v.size), { v with tail := (v.tail + v.elementSize) % 2 ^ 32 })
  else none

/-- `u_vector_length`, whose result is a signed number. -/
def length (v : UVector) : ℤ :=
  let n := sub32 v.head v.tail / v.elementSize
  if n < 2 ^ 31 then n else (n : ℤ) - 2 ^ 32

/-- The element at a place. -/
def element (v : UVector) (place : ℕ) : List UInt8 :=
  (List.range v.elementSize).map fun i => v.data (place + i)

/-- The loop of `u_vector_foreach` from an offset on: the elements that it comes to.  It has no result
if it does not end within the given number of rounds. -/
def foreachLoop (v : UVector) : ℕ → ℕ → Option (List (List UInt8))
  | 0, _ => none
  | fuel + 1, offset =>
    if offset < v.head then
      (foreachLoop v fuel ((offset + v.elementSize) % 2 ^ 32)).map
        (v.element (offset % v.size) :: ·)
    else some []

/-- `u_vector_foreach`. -/
def foreach (v : UVector) : Option (List (List UInt8)) := v.foreachLoop (v.head + 1) v.tail

/-! ### Runs -/

/-- A call: an element is added, whose place is then filled, or one is removed. -/
inductive Op where
  | add (malloc : ℕ → Option (ℕ → UInt8)) (x : List UInt8)
  | remove

/-- What a call gives: whether there was a place, or the element that was removed. -/
inductive Out where
  | added (ok : Bool)
  | removed (x : Option (List UInt8))
deriving DecidableEq

/-- A call, and the use of the place that it returns. -/
def step (v : UVector) : Op → Option (Out × UVector)
  | .add malloc x => do
    match ← v.add malloc with
    | (none, v) => some (.added false, v)
    | (some place, v) =>
      some (.added true, { v with
        data := Ring.copy v.data place (fun i => x.getD i 0) 0 v.elementSize })
  | .remove => do
    match ← v.remove with
    | (none, v) => some (.removed none, v)
    | (some place, v') => some (.removed (some (v.element place)), v')

/-- Several calls. -/
def run (v : UVector) : List Op → Option (List Out × UVector)
  | [] => some ([], v)
  | op :: ops => do
    let (out, v) ← v.step op
    let (outs, v) ← v.run ops
    return (out :: outs, v)

end UVector

end Util
