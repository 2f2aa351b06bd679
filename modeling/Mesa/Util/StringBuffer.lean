import Mathlib.Tactic.Common
import Mathlib.Algebra.Group.Nat.Defs

/-!
# Buffers of strings

The string buffers of `string_buffer.c`.  Numbers are of 32 bits and wrap around.  Memory that is
asked for is given with some contents or is not given, and a string is the list of its characters.
-/

namespace Util

/-- `struct _mesa_string_buffer`.  The array has as many characters as the capacity, or is `NULL`. -/
structure StringBuffer where
  buf : Option (ℕ → UInt8)
  length : ℕ
  capacity : ℕ

namespace StringBuffer

/-- What ends a program: a loop that goes on for ever, or an access outside of an array. -/
inductive Fault where
  | endless
  | outside
deriving DecidableEq

/-- What an allocator gives for a number of characters. -/
abbrev Alloc := ℕ → Option (ℕ → UInt8)

/-- Characters are written from a place on. -/
def put (b : ℕ → UInt8) (place : ℕ) (text : List UInt8) : ℕ → UInt8 :=
  fun i => if place ≤ i then text.getD (i - place) (b i) else b i

/-- `strlen`. -/
def strlen (c : List UInt8) : ℕ := (c.takeWhile (· != 0)).length

/-- The loop of `ensure_capacity`, at most the given number of times. -/
def doubleLoop (neededCapacity : ℕ) : ℕ → ℕ → Option ℕ
  | 0, _ => none
  | fuel + 1, newCapacity =>
    if neededCapacity > newCapacity then doubleLoop neededCapacity fuel (newCapacity * 2 % 2 ^ 32)
    else some newCapacity

/-- `reralloc_array_size` for characters. -/
def reralloc (alloc : Alloc) (buf : Option (ℕ → UInt8)) (oldSize newSize : ℕ) :
    Option (ℕ → UInt8) :=
  (alloc newSize).map fun fresh =>
    match buf with
    | none => fresh
    | some b => fun i => if i < oldSize then b i else fresh i

/-- `ensure_capacity`.  A number that has been doubled 32 times is 0. -/
def ensureCapacity (str : StringBuffer) (neededCapacity : ℕ) (alloc : Alloc) :
    Except Fault (Bool × StringBuffer) :=
  if neededCapacity ≤ str.capacity then .ok (true, str)
  else
    match doubleLoop neededCapacity 32 (str.capacity * 2 % 2 ^ 32) with
    | none => .error .endless
    | some newCapacity =>
      match reralloc alloc str.buf str.capacity newCapacity with
      | none => .ok (false, { str with buf := none })
      | some b => .ok (true, { str with buf := some b, capacity := newCapacity })

/-- `_mesa_string_buffer_create`, where there is memory for the structure itself. -/
def create (initialCapacity : ℕ) (alloc : Alloc) : Option StringBuffer :=
  let capacity := if initialCapacity ≠ 0 then initialCapacity else 32
  (alloc capacity).map fun b => ⟨some (put b 0 [0]), 0, capacity⟩

/-- The part of `_mesa_string_buffer_append_len` that writes. -/
def writeLen (str : StringBuffer) (c : List UInt8) (len : ℕ) :
    Except Fault (Bool × StringBuffer) :=
  match str.buf with
  | none => .error .outside
  | some b =>
    let length := (str.length + len) % 2 ^ 32
    if str.length + len ≤ str.capacity ∧ len ≤ c.length ∧ length < str.capacity then
      .ok (true, { str with
        buf := some (put (put b str.length (c.take len)) length [0]), length := length })
    else .error .outside

/-- `_mesa_string_buffer_append_len`. -/
def appendLen (str : StringBuffer) (c : List UInt8) (len : ℕ) (alloc : Alloc) :
    Except Fault (Bool × StringBuffer) :=
  let neededLength := (str.length + len + 1) % 2 ^ 32
  if neededLength < str.length then .ok (false, str)
  else do
    let (ok, str) ← str.ensureCapacity neededLength alloc
    if ok then str.writeLen c len else return (false, str)

/-- `_mesa_string_buffer_append`. -/
def append (str : StringBuffer) (c : List UInt8) (alloc : Alloc) :
    Except Fault (Bool × StringBuffer) :=
  str.appendLen c (strlen c % 2 ^ 32) alloc

/-- `_mesa_string_buffer_append_char`. -/
def appendChar (str : StringBuffer) (c : UInt8) (alloc : Alloc) :
    Except Fault (Bool × StringBuffer) :=
  str.appendLen [c] 1 alloc

/-- `_mesa_string_buffer_append_all`, with what the allocator gives for each string. -/
def appendAll (str : StringBuffer) : List (List UInt8 × Alloc) → Except Fault (Bool × StringBuffer)
  | [] => .ok (true, str)
  | (c, alloc) :: args => do
    let (ok, str) ← str.append c alloc
    if ok then str.appendAll args else return (false, str)

/-- What a format and its arguments give: the text, or an error after some characters. -/
inductive Printed where
  | text (out : List UInt8)
  | error (written : List UInt8)

/-- The characters that `vsnprintf` writes to an array of the given size. -/
def Printed.written (size : ℕ) : Printed → List UInt8
  | .text out => if size = 0 then [] else out.take (size - 1) ++ [0]
  | .error written => written.take size

/-- `vsnprintf` at the end of the buffer. -/
def vsnprintf (str : StringBuffer) (size : ℕ) (printed : Printed) : Except Fault StringBuffer :=
  match str.buf with
  | none => if printed.written size = [] then .ok str else .error .outside
  | some b =>
    if str.length + (printed.written size).length ≤ str.capacity then
      .ok { str with buf := some (put b str.length (printed.written size)) }
    else .error .outside

/-- The loop of `_mesa_string_buffer_vprintf`. -/
@[simp]
def vprintfLoop (printed : Printed) (alloc : Alloc) :
    ℕ → StringBuffer → Except Fault (Bool × StringBuffer)
  | 0, str => .ok (false, str)
  | rounds + 1, str => do
    let spaceLeft := (str.capacity + 2 ^ 32 - str.length) % 2 ^ 32
    let str ← str.vsnprintf spaceLeft printed
    match printed with
    | .error _ => return (false, str)
    | .text out =>
      if (str.length + out.length + 1) % 2 ^ 32 < str.length then return (false, str)
      else if out.length < spaceLeft then
        return (true, { str with length := (str.length + out.length) % 2 ^ 32 })
      else
        let grown ← str.ensureCapacity ((str.length + out.length + 1) % 2 ^ 32) alloc
        vprintfLoop printed alloc rounds grown.2

/-- `_mesa_string_buffer_vprintf`. -/
def vprintf (str : StringBuffer) (printed : Printed) (alloc : Alloc) :
    Except Fault (Bool × StringBuffer) :=
  vprintfLoop printed alloc 2 str

/-! ### Runs -/

/-- A call that appends. -/
inductive Op where
  | appendLen (c : List UInt8) (len : ℕ) (alloc : Alloc)
  | append (c : List UInt8) (alloc : Alloc)
  | appendChar (c : UInt8) (alloc : Alloc)
  | appendAll (args : List (List UInt8 × Alloc))
  | vprintf (printed : Printed) (alloc : Alloc)

/-- A call. -/
def step (str : StringBuffer) : Op → Except Fault (Bool × StringBuffer)
  | .appendLen c len alloc => str.appendLen c len alloc
  | .append c alloc => str.append c alloc
  | .appendChar c alloc => str.appendChar c alloc
  | .appendAll args => str.appendAll args
  | .vprintf printed alloc => str.vprintf printed alloc

/-- The strings that a call appends, if it has any. -/
def Op.texts : Op → Option (List (List UInt8))
  | .appendLen c len _ => some [c.take len]
  | .append c _ => some [c.take (strlen c)]
  | .appendChar c _ => some [[c]]
  | .appendAll args => some (args.map fun arg => arg.1.take (strlen arg.1))
  | .vprintf (.text out) _ => some [out]
  | .vprintf (.error _) _ => none

/-- The lengths are numbers of their types, and a string is as long as it is said to be. -/
def Op.Valid : Op → Prop
  | .appendLen c len _ => len ≤ c.length ∧ len < 2 ^ 32
  | .append c _ => strlen c < 2 ^ 32
  | .appendChar _ _ => True
  | .appendAll args => ∀ arg ∈ args, strlen arg.1 < 2 ^ 32
  | .vprintf (.text out) _ => out.length < 2 ^ 31
  | .vprintf (.error _) _ => True

end StringBuffer

end Util
