import Mesa.Bits.Bytes

/-!
# Serializers

The templates of `module.cpp` that write an object to a stream, read it from one, and count the
bytes that it takes, with what they need of the streams of C++.

A serializer reads into an object that is there already, and what it does not read is left in it.
Reading `x` over `old` gives `assign old x`: an object with the fields of `x` that are serialized,
and with the other ones of `old`.
-/

namespace Clover

open Bits

/-! ### Streams -/

/-- What can be thrown while a program is created. -/
inductive Thrown where
  /-- `std::istream::failure` -/
  | failure
  /-- `std::bad_alloc` -/
  | badAlloc
  /-- An exception of the library that reads the binaries of the bridge. -/
  | bridge
deriving DecidableEq

/-- What the program does not determine: the order of the bytes of a word, what is in a variable
that is not initialized, and whether there is memory for a vector.  The latter two depend on how
many of them there were before. -/
structure Env where
  bigEndian : Bool
  garbage : ℕ → BitVec 32
  alloc : ℕ → ℕ → Bool

/-- There is memory for every vector. -/
def Env.Ample (env : Env) : Prop := ∀ k n, env.alloc k n = true

/-- `std::istream`, as far as it is used: what is left of its buffer, whether `failbit` is set, and
whether that bit is in the mask of exceptions. -/
structure IStream where
  rest : List UInt8
  failbit : Bool
  exceptions : Bool
  clock : ℕ

/-- `setstate(failbit)`. -/
def IStream.setFail (s : IStream) : Except Thrown IStream :=
  if s.exceptions then .error .failure else .ok { s with failbit := true }

/-- `read`, into a buffer with the given bytes.  Where there are too few bytes left they are read
still, and the bit is set. -/
def IStream.read (s : IStream) (buf : List UInt8) : Except Thrown (List UInt8 × IStream) :=
  if s.failbit then s.setFail.map fun s => (buf, s)
  else if s.rest.length < buf.length then
    ({ s with rest := [] } : IStream).setFail.map fun s' => (s.rest ++ buf.drop s.rest.length, s')
  else .ok (s.rest.take buf.length, { s with rest := s.rest.drop buf.length })

/-- Nothing is thrown but for lack of memory, and the stream is not told to throw. -/
def Silent {α : Type} (env : Env) (r : Except Thrown (α × IStream)) : Prop :=
  match r with
  | .error e => e = .badAlloc ∧ ¬ env.Ample
  | .ok (_, s) => s.exceptions = false

/-- A stream never throws an exception unless it was told to. -/
theorem IStream.read_silent (env : Env) {s : IStream} (h : s.exceptions = false)
    (buf : List UInt8) :
  Silent env (s.read buf)
  := by
  rw [read]
  split
  · simp [setFail, h, Except.map, Silent]
  split
  · simp [setFail, h, Except.map, Silent]
  · exact h

theorem IStream.read_append {s : IStream} {bytes rest buf : List UInt8} (good : s.failbit = false)
    (h : s.rest = bytes ++ rest) (hlength : buf.length = bytes.length) :
  s.read buf = .ok (bytes, { s with rest := rest })
  := by
  rw [read, if_neg (by simp [good]), if_neg (by simp [h, hlength]), h, hlength, List.take_left,
    List.drop_left]

theorem Silent.bind {α β : Type} {env : Env} {r : Except Thrown (α × IStream)}
    {f : α × IStream → Except Thrown (β × IStream)} (h : Silent env r)
    (hf : ∀ a s, s.exceptions = false → Silent env (f (a, s))) :
  Silent env (r >>= f)
  := by
  rcases r with e | ⟨a, s⟩
  · exact h
  · exact hf a s h

/-! ### Serializers -/

/-- `_serializer<T>`: the three functions `proc`. -/
structure Serializer (T : Type) where
  write : Env → T → List UInt8
  read : Env → T → IStream → Except Thrown (T × IStream)
  size : BitVec 32 → T → BitVec 32

/-- What serializers have in common.  What is written is read back, over any object, for the objects
that the format can hold. -/
structure Serializer.Lawful {T : Type} (ser : Serializer T) (Holds : T → Prop)
    (assign : T → T → T) : Prop where
  size_eq : ∀ env sz x, ser.size sz x = sz + BitVec.ofNat 32 (ser.write env x).length
  read_write : ∀ {env x s rest}, env.Ample → Holds x → s.failbit = false →
    s.rest = ser.write env x ++ rest → ∀ old, ∃ s', ser.read env old s = .ok (assign old x, s')
      ∧ s'.failbit = false ∧ s'.rest = rest
  silent : ∀ env old s, s.exceptions = false → Silent env (ser.read env old s)

/-- All of the object is read. -/
def whole {T : Type} (_ x : T) : T := x

/-- A type of scalars: how many bytes they take, and which ones. -/
class Scalar (T : Type) where
  sizeof : ℕ
  bytes : Env → T → List UInt8
  ofBytes : Env → List UInt8 → T
  length_bytes : ∀ env x, (bytes env x).length = sizeof
  ofBytes_bytes : ∀ env x, ofBytes env (bytes env x) = x

/-- The words of 32 bits. -/
instance : Scalar (BitVec 32) where
  sizeof := 4
  bytes env x := wordBytes env.bigEndian 4 x.toNat
  ofBytes env l := BitVec.ofNat 32 (ofWordBytes env.bigEndian l)
  length_bytes := by simp
  ofBytes_bytes env x := by
    rw [ofWordBytes_wordBytes, show 256 ^ 4 = 2 ^ 32 from rfl, Nat.mod_eq_of_lt x.isLt]
    simp

/-- The characters. -/
instance : Scalar UInt8 where
  sizeof := 1
  bytes _ x := [x]
  ofBytes _ l := l.headD 0
  length_bytes := by simp
  ofBytes_bytes := by simp

section
variable {T : Type} [Scalar T]

/-- A scalar that is read. -/
def readScalar (env : Env) (old : T) (s : IStream) : Except Thrown (T × IStream) := do
  let (bytes, s) ← s.read (Scalar.bytes env old)
  pure (Scalar.ofBytes env bytes, s)

variable (T) in
/-- The serializer of scalars. -/
def Serializer.scalar : Serializer T where
  write := Scalar.bytes
  read := readScalar
  size sz _ := sz + BitVec.ofNat 32 (Scalar.sizeof T)

theorem readScalar_append {env : Env} {x : T} {s : IStream} {rest : List UInt8}
    (good : s.failbit = false) (h : s.rest = Scalar.bytes env x ++ rest) (old : T) :
  readScalar env old s = .ok (x, { s with rest := rest })
  := by
  have hlength : (Scalar.bytes env old).length = (Scalar.bytes env x).length := by
    rw [Scalar.length_bytes, Scalar.length_bytes]
  rw [readScalar, IStream.read_append good h hlength]
  change Except.ok (Scalar.ofBytes env (Scalar.bytes env x), _) = _
  rw [Scalar.ofBytes_bytes]

theorem readScalar_silent (env : Env) (old : T) {s : IStream} (h : s.exceptions = false) :
  Silent env (readScalar env old s)
  := by
  apply (IStream.read_silent env h _).bind
  intro bytes s' h'
  exact h'

theorem Serializer.scalar_lawful :
  (Serializer.scalar T).Lawful (fun _ => True) whole
  where
  size_eq env sz x := by
    simp only [scalar, Scalar.length_bytes]
  read_write _ _ good h old := ⟨_, readScalar_append good h old, good, rfl⟩
  silent env old _ h := readScalar_silent env old h

end

/-! ### Lengths and vectors -/

/-- `_proc<uint32_t>(is)`: a length, read into a variable that is not initialized. -/
def readLength (env : Env) (s : IStream) : Except Thrown (BitVec 32 × IStream) :=
  readScalar env (env.garbage s.clock) { s with clock := s.clock + 1 }

/-- `_proc<uint32_t>(os, n)`. -/
def writeLength (env : Env) (n : ℕ) : List UInt8 := Scalar.bytes env (BitVec.ofNat 32 n)

/-- `resize`, of a vector or a string. -/
def resize {T : Type} (env : Env) (default : T) (v : List T) (n : ℕ) (s : IStream) :
    Except Thrown (List T × IStream) :=
  if env.alloc s.clock n then
    .ok (v.take n ++ List.replicate (n - v.length) default, { s with clock := s.clock + 1 })
  else .error .badAlloc

theorem readLength_append {env : Env} {n : ℕ} {s : IStream} {rest : List UInt8}
    (good : s.failbit = false) (h : s.rest = writeLength env n ++ rest) :
  ∃ s', readLength env s = .ok (BitVec.ofNat 32 n, s') ∧ s'.failbit = false ∧ s'.rest = rest
  := by
  refine ⟨_, readScalar_append ?_ ?_ _, ?_, rfl⟩
  · exact good
  · exact h
  · exact good

theorem resize_ample {T : Type} {env : Env} (ample : env.Ample) (default : T) (v : List T) (n : ℕ)
    (s : IStream) :
  resize env default v n s = .ok (v.take n ++ List.replicate (n - v.length) default,
    { s with clock := s.clock + 1 })
  := if_pos (ample _ _)

theorem resize_silent {T : Type} (env : Env) (default : T) (v : List T) (n : ℕ) {s : IStream}
    (h : s.exceptions = false) :
  Silent env (resize env default v n s)
  := by
  rw [resize]
  split
  · exact h
  · rename_i full
    exact ⟨rfl, fun ample => full (ample _ _)⟩

theorem length_resized {T : Type} (default : T) (v : List T) (n : ℕ) :
  (v.take n ++ List.replicate (n - v.length) default).length = n
  := by
  rw [List.length_append, List.length_take, List.length_replicate]
  omega

section
variable {T : Type}

/-- The elements of a vector, each read into a new object. -/
def readElements (ser : Serializer T) (env : Env) (default : T) :
    ℕ → IStream → Except Thrown (List T × IStream)
  | 0, s => .ok ([], s)
  | n + 1, s => do
    let (x, s) ← ser.read env default s
    let (xs, s) ← readElements ser env default n s
    pure (x :: xs, s)

/-- The serializer of vectors of objects. -/
def Serializer.vector (ser : Serializer T) (default : T) : Serializer (List T) where
  write env v := writeLength env v.length ++ v.flatMap (ser.write env)
  read env v s := do
    let (n, s) ← readLength env s
    let (v, s) ← resize env default v n.toNat s
    readElements ser env default v.length s
  size sz v := v.foldl ser.size (sz + BitVec.ofNat 32 4)

/-- A vector that the format can hold. -/
def VectorHolds (Holds : T → Prop) (v : List T) : Prop :=
  v.length < 2 ^ 32 ∧ ∀ x ∈ v, Holds x

variable {ser : Serializer T} {Holds : T → Prop}

theorem readElements_append (lawful : ser.Lawful Holds whole) {env : Env} (ample : env.Ample)
    (default : T) {v : List T} (holds : ∀ x ∈ v, Holds x) {s : IStream} {rest : List UInt8}
    (good : s.failbit = false) (h : s.rest = v.flatMap (ser.write env) ++ rest) :
  ∃ s', readElements ser env default v.length s = .ok (v, s') ∧ s'.failbit = false
    ∧ s'.rest = rest
  := by
  induction v generalizing s with
  | nil => exact ⟨s, rfl, good, h⟩
  | cons x v ih =>
    rw [List.flatMap_cons, List.append_assoc] at h
    obtain ⟨s₁, read₁, good₁, rest₁⟩ :=
      lawful.read_write ample (holds x List.mem_cons_self) good h default
    obtain ⟨s₂, read₂, good₂, rest₂⟩ :=
      ih (fun y mem => holds y (List.mem_cons_of_mem _ mem)) good₁ rest₁
    refine ⟨s₂, ?_, good₂, rest₂⟩
    rw [List.length_cons, readElements, read₁]
    change (readElements ser env default v.length s₁ >>= fun r => pure (x :: r.1, r.2)) = _
    rw [read₂]
    rfl

theorem readElements_silent (lawful : ser.Lawful Holds whole) (env : Env) (default : T) (n : ℕ)
    {s : IStream} (h : s.exceptions = false) :
  Silent env (readElements ser env default n s)
  := by
  induction n generalizing s with
  | zero => exact h
  | succ n ih =>
    apply (lawful.silent env default s h).bind
    intro x s₁ h₁
    apply (ih h₁).bind
    intro xs s₂ h₂
    exact h₂

theorem foldl_size (lawful : ser.Lawful Holds whole) (env : Env) (v : List T) (sz : BitVec 32) :
  v.foldl ser.size sz = sz + BitVec.ofNat 32 (v.flatMap (ser.write env)).length
  := by
  induction v generalizing sz with
  | nil => simp
  | cons x v ih =>
    rw [List.foldl_cons, ih, lawful.size_eq env, List.flatMap_cons, List.length_append,
      BitVec.ofNat_add, BitVec.add_assoc]

theorem Serializer.vector_lawful (lawful : ser.Lawful Holds whole) (default : T) :
  (ser.vector default).Lawful (VectorHolds Holds) whole
  where
  size_eq env sz v := by
    have hlength : (writeLength env v.length).length = 4 := Scalar.length_bytes env _
    simp only [vector]
    rw [foldl_size lawful env, List.length_append, hlength, BitVec.ofNat_add, BitVec.add_assoc]
  read_write {env v s rest} ample holds good h old := by
    simp only [vector] at h
    rw [List.append_assoc] at h
    obtain ⟨s₁, read₁, good₁, rest₁⟩ := readLength_append good h
    have toNat : (BitVec.ofNat 32 v.length).toNat = v.length := by
      rw [BitVec.toNat_ofNat, Nat.mod_eq_of_lt holds.1]
    have read₂ := resize_ample ample default old v.length s₁
    obtain ⟨s₃, read₃, good₃, rest₃⟩ :=
      readElements_append lawful ample default holds.2
        (show ({ s₁ with clock := s₁.clock + 1 } : IStream).failbit = false from good₁) rest₁
    refine ⟨s₃, ?_, good₃, rest₃⟩
    simp only [vector, read₁]
    change (resize env default old (BitVec.ofNat 32 v.length).toNat s₁ >>= fun r =>
      readElements ser env default r.1.length r.2) = _
    rw [toNat, read₂]
    change readElements ser env default (_ : List T).length _ = _
    rw [length_resized, read₃]
    rfl
  silent env old s h := by
    apply (readScalar_silent env _ (s := { s with clock := s.clock + 1 }) h).bind
    intro n s₁ h₁
    apply (resize_silent env default old n.toNat h₁).bind
    intro v s₂ h₂
    exact readElements_silent lawful env default v.length h₂

end

/-! ### Characters -/

/-- The serializer of vectors of characters, and of strings. -/
def Serializer.chars : Serializer (List UInt8) where
  write env v := writeLength env v.length ++ v
  read env v s := do
    let (n, s) ← readLength env s
    let (v, s) ← resize env 0 v n.toNat s
    s.read v
  size sz v := sz + BitVec.ofNat 32 (4 + v.length)

theorem Serializer.chars_lawful :
  Serializer.chars.Lawful (fun v => v.length < 2 ^ 32) whole
  where
  size_eq env sz v := by
    have hlength : (writeLength env v.length).length = 4 := Scalar.length_bytes env _
    simp only [chars]
    rw [List.length_append, hlength]
  read_write {env v s rest} ample holds good h old := by
    simp only [chars] at h
    rw [List.append_assoc] at h
    obtain ⟨s₁, read₁, good₁, rest₁⟩ := readLength_append good h
    have toNat : (BitVec.ofNat 32 v.length).toNat = v.length := by
      rw [BitVec.toNat_ofNat, Nat.mod_eq_of_lt holds]
    have read₂ := resize_ample ample 0 old v.length s₁
    have read₃ := IStream.read_append (s := { s₁ with clock := s₁.clock + 1 }) good₁ rest₁
      (length_resized 0 old v.length)
    refine ⟨⟨rest, s₁.failbit, s₁.exceptions, s₁.clock + 1⟩, ?_, good₁, rfl⟩
    simp only [chars, read₁]
    change (resize env 0 old (BitVec.ofNat 32 v.length).toNat s₁ >>= fun r => r.2.read r.1) = _
    rw [toNat, read₂]
    exact read₃
  silent env old s h := by
    apply (readScalar_silent env _ (s := { s with clock := s.clock + 1 }) h).bind
    intro n s₁ h₁
    apply (resize_silent env 0 old n.toNat h₁).bind
    intro v s₂ h₂
    exact IStream.read_silent env h₂ v

/-! ### Records -/

section
variable {R T : Type}

/-- A serializer of one field of a record. -/
def Serializer.field (get : R → T) (set : R → T → R) (ser : Serializer T) : Serializer R where
  write env x := ser.write env (get x)
  read env x s := do
    let (v, s) ← ser.read env (get x) s
    pure (set x v, s)
  size sz x := ser.size sz (get x)

/-- A serializer that does what one and then another one do. -/
def Serializer.andThen (ser ser' : Serializer R) : Serializer R where
  write env x := ser.write env x ++ ser'.write env x
  read env x s := do
    let (x, s) ← ser.read env x s
    ser'.read env x s
  size sz x := ser'.size (ser.size sz x) x

theorem Serializer.Lawful.field {ser : Serializer T} {Holds : T → Prop}
    (lawful : ser.Lawful Holds whole) (get : R → T) (set : R → T → R) :
  (Serializer.field get set ser).Lawful (fun x => Holds (get x)) (fun old x => set old (get x))
  where
  size_eq env sz x := lawful.size_eq env sz (get x)
  read_write {env x s rest} ample holds good h old := by
    obtain ⟨s', read, good', rest'⟩ := lawful.read_write ample holds good h (get old)
    refine ⟨s', ?_, good', rest'⟩
    simp only [Serializer.field, read]
    rfl
  silent env old s h := by
    apply (lawful.silent env (get old) s h).bind
    intro v s' h'
    exact h'

theorem Serializer.Lawful.andThen {ser ser' : Serializer R} {Holds Holds' : R → Prop}
    {assign assign' : R → R → R} (lawful : ser.Lawful Holds assign)
    (lawful' : ser'.Lawful Holds' assign') :
  (ser.andThen ser').Lawful (fun x => Holds x ∧ Holds' x)
    (fun old x => assign' (assign old x) x)
  where
  size_eq env sz x := by
    simp only [Serializer.andThen]
    rw [lawful'.size_eq env, lawful.size_eq env, List.length_append, BitVec.ofNat_add,
      BitVec.add_assoc]
  read_write {env x s rest} ample holds good h old := by
    simp only [Serializer.andThen] at h
    rw [List.append_assoc] at h
    obtain ⟨s₁, read₁, good₁, rest₁⟩ := lawful.read_write ample holds.1 good h old
    obtain ⟨s₂, read₂, good₂, rest₂⟩ :=
      lawful'.read_write ample holds.2 good₁ rest₁ (assign old x)
    refine ⟨s₂, ?_, good₂, rest₂⟩
    simp only [Serializer.andThen, read₁]
    exact read₂
  silent env old s h := by
    apply (lawful.silent env old s h).bind
    intro x s' h'
    exact lawful'.silent env x s' h'

end

end Clover
