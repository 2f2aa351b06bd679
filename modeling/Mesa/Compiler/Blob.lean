import Mesa.Bits.Bytes

/-!
# Blobs

The serialization of `blob.c`: a growing buffer to which bytes, strings and aligned words are
written, and a reader that gives them back.

A pointer is an offset from the start of the object that it points into.  There is no result where
an assertion fails and where memory outside an object is read or written.
-/

namespace Compiler

open Bits

/-! ### Memory -/

/-- What the C implementation fixes: the size of a pointer and the order of the bytes of a word. -/
structure Platform where
  ptrBytes : ℕ
  ptrBytes_eq : ptrBytes = 4 ∨ ptrBytes = 8
  bigEndian : Bool

namespace Platform

variable (p : Platform)

/-- How many values `size_t` and `uintptr_t` have. -/
def sizes : ℕ := 2 ^ (8 * p.ptrBytes)

/-- One more than `PTRDIFF_MAX`. -/
def objectBound : ℕ := 2 ^ (8 * p.ptrBytes - 1)

theorem sizes_eq :
  p.sizes = 2 * p.objectBound
  := by
  rw [sizes, objectBound, ← pow_succ']
  rcases p.ptrBytes_eq with h | h <;> rw [h]

theorem objectBound_ge :
  2 ^ 31 ≤ p.objectBound
  := by
  rw [objectBound]
  apply Nat.pow_le_pow_right (by decide)
  rcases p.ptrBytes_eq with h | h <;> omega

end Platform

/-- An object in memory.  The difference of two pointers into it is a `ptrdiff_t`. -/
structure Object (p : Platform) where
  bytes : List UInt8
  bound : bytes.length < p.objectBound

/-- A string in memory, without the zero that ends it. -/
structure CString (p : Platform) where
  chars : List UInt8
  noNul : 0 ∉ chars
  bound : chars.length + 1 < p.objectBound

variable {p : Platform}

/-- How many bytes there are in an object. -/
def Object.length (o : Object p) : ℕ := o.bytes.length

/-- The object that a string takes, with its zero. -/
def CString.object (s : CString p) : Object p := ⟨s.chars ++ [0], by simpa using s.bound⟩

/-- The object that a word takes. -/
def wordObject (p : Platform) (k : ℕ) (hk : k ≤ 8) (value : BitVec (8 * k)) : Object p where
  bytes := wordBytes p.bigEndian k value.toNat
  bound := by
    rw [length_wordBytes]
    have := p.objectBound_ge
    omega

/-- Bytes that are read from an object. -/
def Object.load (o : Object p) (pos n : ℕ) : Option (List UInt8) :=
  if pos + n ≤ o.length then some (slice o.bytes pos n) else none

/-- The object after bytes were copied into it. -/
def Object.store (o : Object p) (pos : ℕ) (src : List UInt8) : Option (Object p) :=
  if h : pos + src.length ≤ o.length then
    some ⟨patch o.bytes pos src, by rw [length_patch h]; exact o.bound⟩
  else none

/-- How a call of `realloc` goes.  It may fail; where it does not, there are as many bytes as were
asked for, and those that fit of the old object are in them. -/
structure Realloc (p : Platform) where
  realloc : Option (Object p) → ℕ → Option (Object p)
  length_eq : ∀ {o n o'}, realloc o n = some o' → o'.length = n
  keeps : ∀ {o n o' pos}, realloc (some o) n = some o' → pos < o.length → pos < n →
    o'.bytes[pos]? = o.bytes[pos]?

/-- `ALIGN`, for an alignment that is a power of two. -/
def align (p : Platform) (value alignment : ℕ) : ℕ :=
  (value + alignment - 1) % p.sizes / alignment * alignment

/-! ### Writing -/

/-- `struct blob`; no data for `NULL`. -/
structure Blob (p : Platform) where
  data : Option (Object p)
  allocated : ℕ
  size : ℕ
  fixedAllocation : Bool
  outOfMemory : Bool

/-- `BLOB_INITIAL_SIZE`. -/
def blobInitialSize : ℕ := 4096

/-- `blob_init`. -/
def blobInit (p : Platform) : Blob p where
  data := none
  allocated := 0
  size := 0
  fixedAllocation := false
  outOfMemory := false

/-- `blob_init_fixed`, with a buffer. -/
def blobInitFixed (data : Object p) : Blob p where
  data := some data
  allocated := data.length
  size := 0
  fixedAllocation := true
  outOfMemory := false

/-- `grow_to_fit`. -/
def growToFit (mem : Realloc p) (blob : Blob p) (additional : ℕ) : Bool × Blob p :=
  if blob.outOfMemory then (false, blob)
  else if (blob.size + additional) % p.sizes ≤ blob.allocated then (true, blob)
  else if blob.fixedAllocation then (false, { blob with outOfMemory := true })
  else
    let twice := if blob.allocated = 0 then blobInitialSize else blob.allocated * 2 % p.sizes
    let toAllocate := max twice ((blob.allocated + additional) % p.sizes)
    match mem.realloc blob.data toAllocate with
    | none => (false, { blob with outOfMemory := true })
    | some newData => (true, { blob with data := some newData, allocated := toAllocate })

/-- The data of a blob after bytes were copied to it, unless it is `NULL`. -/
def Blob.copyIn (blob : Blob p) (pos : ℕ) (src : List UInt8) : Option (Blob p) :=
  match blob.data with
  | none => some blob
  | some data => (data.store pos src).map fun data' => { blob with data := some data' }

/-- `align_blob`. -/
def alignBlob (mem : Realloc p) (blob : Blob p) (alignment : ℕ) : Option (Bool × Blob p) :=
  let newSize := align p blob.size alignment
  if blob.size < newSize then
    let (grown, blob') := growToFit mem blob (newSize - blob.size)
    if grown then
      (blob'.copyIn blob.size (List.replicate (newSize - blob.size) 0)).map
        fun blob'' => (true, { blob'' with size := newSize })
    else some (false, blob')
  else some (true, blob)

/-- `blob_overwrite_bytes`. -/
def blobOverwriteBytes (blob : Blob p) (offset : ℕ) (bytes : Object p) : Option (Bool × Blob p) :=
  if (offset + bytes.length) % p.sizes < offset ∨ blob.size < (offset + bytes.length) % p.sizes then
    some (false, blob)
  else (blob.copyIn offset bytes.bytes).map fun blob' => (true, blob')

/-- `blob_write_bytes`. -/
def blobWriteBytes (mem : Realloc p) (blob : Blob p) (bytes : Object p) :
    Option (Bool × Blob p) :=
  let (grown, blob') := growToFit mem blob bytes.length
  if grown then
    (blob'.copyIn blob'.size bytes.bytes).map
      fun blob'' => (true, { blob'' with size := (blob''.size + bytes.length) % p.sizes })
  else some (false, blob')

/-- What a reservation that fails returns: `-1`. -/
def noOffset (p : Platform) : ℕ := p.sizes - 1

/-- `blob_reserve_bytes`; the bits of the returned `intptr_t` are read as those of a `size_t`. -/
def blobReserveBytes (mem : Realloc p) (blob : Blob p) (toWrite : ℕ) : ℕ × Blob p :=
  let (grown, blob') := growToFit mem blob toWrite
  if grown then (blob'.size, { blob' with size := (blob'.size + toWrite) % p.sizes })
  else (noOffset p, blob')

/-- A reservation of an aligned word of `k` bytes. -/
def blobReserveWord (mem : Realloc p) (k : ℕ) (blob : Blob p) : Option (ℕ × Blob p) :=
  (alignBlob mem blob k).map fun (_, blob') => blobReserveBytes mem blob' k

/-- `blob_reserve_uint32`. -/
def blobReserveUint32 (mem : Realloc p) (blob : Blob p) : Option (ℕ × Blob p) :=
  blobReserveWord mem 4 blob

/-- `blob_reserve_intptr`. -/
def blobReserveIntptr (mem : Realloc p) (blob : Blob p) : Option (ℕ × Blob p) :=
  blobReserveWord mem p.ptrBytes blob

/-- A write of an aligned word of `k` bytes. -/
def blobWriteWord (mem : Realloc p) (k : ℕ) (hk : k ≤ 8) (blob : Blob p)
    (value : BitVec (8 * k)) : Option (Bool × Blob p) :=
  (alignBlob mem blob k).bind fun (_, blob') => blobWriteBytes mem blob' (wordObject p k hk value)

theorem Platform.ptrBytes_le (p : Platform) :
  p.ptrBytes ≤ 8
  := by
  rcases p.ptrBytes_eq with h | h <;> omega

/-- `blob_write_uint32`. -/
def blobWriteUint32 (mem : Realloc p) (blob : Blob p) (value : BitVec 32) :
    Option (Bool × Blob p) :=
  blobWriteWord mem 4 (by decide) blob value

/-- `blob_write_uint64`. -/
def blobWriteUint64 (mem : Realloc p) (blob : Blob p) (value : BitVec 64) :
    Option (Bool × Blob p) :=
  blobWriteWord mem 8 (by decide) blob value

/-- `blob_write_intptr`. -/
def blobWriteIntptr (mem : Realloc p) (blob : Blob p) (value : BitVec (8 * p.ptrBytes)) :
    Option (Bool × Blob p) :=
  blobWriteWord mem p.ptrBytes p.ptrBytes_le blob value

/-- An overwrite of an aligned word of `k` bytes, with `ASSERT_ALIGNED`. -/
def blobOverwriteWord (k : ℕ) (hk : k ≤ 8) (blob : Blob p) (offset : ℕ)
    (value : BitVec (8 * k)) : Option (Bool × Blob p) :=
  if align p offset k = offset then blobOverwriteBytes blob offset (wordObject p k hk value)
  else none

/-- `blob_overwrite_uint32`. -/
def blobOverwriteUint32 (blob : Blob p) (offset : ℕ) (value : BitVec 32) :
    Option (Bool × Blob p) :=
  blobOverwriteWord 4 (by decide) blob offset value

/-- `blob_overwrite_intptr`. -/
def blobOverwriteIntptr (blob : Blob p) (offset : ℕ) (value : BitVec (8 * p.ptrBytes)) :
    Option (Bool × Blob p) :=
  blobOverwriteWord p.ptrBytes p.ptrBytes_le blob offset value

/-- `blob_write_string`. -/
def blobWriteString (mem : Realloc p) (blob : Blob p) (str : CString p) :
    Option (Bool × Blob p) :=
  blobWriteBytes mem blob str.object

/-! ### Reading -/

/-- `struct blob_reader`; `end` is the end of the data. -/
structure BlobReader (p : Platform) where
  data : Object p
  current : ℕ
  overrun : Bool

/-- `blob_reader_init`. -/
def blobReaderInit (data : Object p) : BlobReader p := ⟨data, 0, false⟩

/-- `align_blob_reader`. -/
def alignBlobReader (blob : BlobReader p) (alignment : ℕ) : BlobReader p :=
  { blob with current := align p blob.current alignment }

/-- `ensure_can_read`. -/
def ensureCanRead (blob : BlobReader p) (size : ℕ) : Bool × BlobReader p :=
  if blob.overrun then (false, blob)
  else if blob.current < blob.data.length ∧ size ≤ blob.data.length - blob.current then (true, blob)
  else (false, { blob with overrun := true })

/-- `blob_read_bytes`; the returned pointer is given by the bytes that it points to. -/
def blobReadBytes (blob : BlobReader p) (size : ℕ) : Option (Option (List UInt8) × BlobReader p) :=
  let (ok, blob) := ensureCanRead blob size
  if ok then
    (blob.data.load blob.current size).map
      fun ret => (some ret, { blob with current := blob.current + size })
  else some (none, blob)

/-- `blob_copy_bytes`; no bytes where the destination is left as it is. -/
def blobCopyBytes (blob : BlobReader p) (size : ℕ) : Option (Option (List UInt8) × BlobReader p) :=
  blobReadBytes blob size

/-- The reading of an aligned word of `k` bytes. -/
def blobReadWord (k : ℕ) (blob : BlobReader p) : Option (BitVec (8 * k) × BlobReader p) :=
  let (ok, blob) := ensureCanRead (alignBlobReader blob k) k
  if ok then
    (blob.data.load blob.current k).map fun ret =>
      (BitVec.ofNat _ (ofWordBytes p.bigEndian ret), { blob with current := blob.current + k })
  else some (0, blob)

/-- `blob_read_uint32`. -/
def blobReadUint32 (blob : BlobReader p) : Option (BitVec 32 × BlobReader p) := blobReadWord 4 blob

/-- `blob_read_uint64`. -/
def blobReadUint64 (blob : BlobReader p) : Option (BitVec 64 × BlobReader p) := blobReadWord 8 blob

/-- `blob_read_intptr`. -/
def blobReadIntptr (blob : BlobReader p) : Option (BitVec (8 * p.ptrBytes) × BlobReader p) :=
  blobReadWord p.ptrBytes blob

/-- A number as an `int`. -/
def toInt32 (n : ℕ) : ℤ := Int.bmod n (2 ^ 32)

/-- An `int` as a `size_t`. -/
def toSizeT (p : Platform) (i : ℤ) : ℕ := (i % (p.sizes : ℤ)).toNat

/-- How far the next zero byte is, `memchr` from the given position on. -/
def BlobReader.nul (blob : BlobReader p) : Option ℕ :=
  (blob.data.bytes.drop blob.current).findIdx? (· = 0)

/-- `blob_read_string`; the returned pointer is given by the string that it points to. -/
def blobReadString (blob : BlobReader p) : Option (Option (List UInt8) × BlobReader p) :=
  if blob.data.length ≤ blob.current then some (none, { blob with overrun := true })
  else
    match blob.nul with
    | none => some (none, { blob with overrun := true })
    | some nul =>
      let size := toInt32 (nul + 1)
      let (ok, blob) := ensureCanRead blob (toSizeT p size)
      -- The assertion.
      if ok then
        (blob.data.load blob.current (nul + 1)).map fun ret =>
          (some (ret.take nul), { blob with current := (blob.current + size).toNat })
      else none

/-! ### Runs of a reader -/

/-- A call of the reader. -/
inductive ReadCall where
  | bytes (size : ℕ)
  | copyBytes (size : ℕ)
  | uint32
  | uint64
  | intptr
  | string
deriving DecidableEq

/-- What a call of the reader returns. -/
inductive Value (p : Platform) where
  | bytes (ret : Option (List UInt8))
  | copied (ret : Option (List UInt8))
  | uint32 (ret : BitVec 32)
  | uint64 (ret : BitVec 64)
  | intptr (ret : BitVec (8 * p.ptrBytes))
  | string (ret : Option (List UInt8))
deriving DecidableEq

/-- What a call returns that fails: `0` or `NULL`. -/
def Value.failure : ReadCall → Value p
  | .bytes _ => .bytes none
  | .copyBytes _ => .copied none
  | .uint32 => .uint32 0
  | .uint64 => .uint64 0
  | .intptr => .intptr 0
  | .string => .string none

/-- A call of the reader. -/
def BlobReader.call (blob : BlobReader p) : ReadCall → Option (Value p × BlobReader p)
  | .bytes size => (blobReadBytes blob size).map (Prod.map .bytes id)
  | .copyBytes size => (blobCopyBytes blob size).map (Prod.map .copied id)
  | .uint32 => (blobReadUint32 blob).map (Prod.map .uint32 id)
  | .uint64 => (blobReadUint64 blob).map (Prod.map .uint64 id)
  | .intptr => (blobReadIntptr blob).map (Prod.map .intptr id)
  | .string => (blobReadString blob).map (Prod.map .string id)

/-- The calls of the reader, one after the other. -/
def BlobReader.run (blob : BlobReader p) : List ReadCall → Option (List (Value p) × BlobReader p)
  | [] => some ([], blob)
  | c :: calls => do
    let (v, blob) ← blob.call c
    let (vs, blob) ← blob.run calls
    pure (v :: vs, blob)

/-! ### What a call of the reader can do -/

/-- A string can be read where the next zero is not too far, unless there was an overrun. -/
def BlobReader.StringReadable (blob : BlobReader p) : Prop :=
  ∀ nul, blob.nul = some nul → blob.overrun = false ∧ (nul + 1) % 2 ^ 32 < 2 ^ 31

/-- A call is sound that is not the reading of a string, or that finds one. -/
def BlobReader.Sound (blob : BlobReader p) (c : ReadCall) : Prop :=
  c = .string → blob.StringReadable

theorem ensureCanRead_of_fits {blob : BlobReader p} {size : ℕ} (h : blob.overrun = false)
    (inside : blob.current < blob.data.length) (fits : blob.current + size ≤ blob.data.length) :
  ensureCanRead blob size = (true, blob)
  := by
  rw [ensureCanRead, h, if_neg (by decide), if_pos ⟨inside, by omega⟩]

/-- Either the bytes that are asked for are there, or there is an overrun. -/
theorem ensureCanRead_cases (blob : BlobReader p) (size : ℕ) :
  (blob.overrun = false ∧ blob.current < blob.data.length
      ∧ blob.current + size ≤ blob.data.length ∧ ensureCanRead blob size = (true, blob))
    ∨ ensureCanRead blob size = (false, { blob with overrun := true })
  := by
  rcases blob with ⟨data, current, _ | _⟩
  · rcases Decidable.em (current < data.length ∧ size ≤ data.length - current) with h | h
    · left
      refine ⟨rfl, h.1, ?_, ensureCanRead_of_fits rfl h.1 ?_⟩ <;> dsimp only <;> omega
    · right
      rw [ensureCanRead, if_neg (by simp), if_neg h]
  · right
    rfl

theorem load_of_fits {o : Object p} {pos n : ℕ} (h : pos + n ≤ o.length) :
  o.load pos n = some (slice o.bytes pos n)
  := if_pos h

theorem nul_lt {blob : BlobReader p} {nul : ℕ} (h : blob.nul = some nul) :
  blob.current + nul < blob.data.length
  := by
  have := (List.findIdx?_eq_some_iff_getElem.1 h).1
  rw [List.length_drop] at this
  rw [Object.length]
  omega

/-- The distance of a zero, as an `int` and then as a `size_t`. -/
theorem toSizeT_toInt32 {n : ℕ} (h : n % 2 ^ 32 < 2 ^ 31) :
  toInt32 n = (n % 2 ^ 32 : ℕ) ∧ toSizeT p (toInt32 n) = n % 2 ^ 32
  := by
  have eq : toInt32 n = (n % 2 ^ 32 : ℕ) := by
    unfold toInt32
    rw [Int.bmod_def]
    omega
  have large := p.objectBound_ge
  have twice := p.sizes_eq
  refine ⟨eq, ?_⟩
  rw [eq, toSizeT, ← Int.natCast_mod, Int.toNat_natCast]
  apply Nat.mod_eq_of_lt
  omega

/-- A distance that is negative as an `int` is larger than every object. -/
theorem toSizeT_toInt32_large {n : ℕ} (h : ¬ n % 2 ^ 32 < 2 ^ 31) :
  p.objectBound ≤ toSizeT p (toInt32 n)
  := by
  have eq : toInt32 n = (n % 2 ^ 32 : ℕ) - (2 ^ 32 : ℤ) := by
    unfold toInt32
    rw [Int.bmod_def]
    omega
  have large := p.objectBound_ge
  have twice := p.sizes_eq
  have wrapped : toInt32 n % (p.sizes : ℤ) = p.sizes + toInt32 n := by
    rw [← Int.add_emod_left]
    apply Int.emod_eq_of_lt <;> omega
  rw [toSizeT, wrapped]
  omega

theorem blobReadBytes_of_fits {blob : BlobReader p} {size : ℕ} (clean : blob.overrun = false)
    (inside : blob.current < blob.data.length) (fits : blob.current + size ≤ blob.data.length) :
  blobReadBytes blob size = some (some (slice blob.data.bytes blob.current size),
    { blob with current := blob.current + size })
  := by
  simp only [blobReadBytes, ensureCanRead_of_fits clean inside fits, if_true, load_of_fits fits,
    Option.map_some]

theorem blobReadBytes_of_overrun {blob : BlobReader p} {size : ℕ}
    (h : ensureCanRead blob size = (false, { blob with overrun := true })) :
  blobReadBytes blob size = some (none, { blob with overrun := true })
  := by
  simp only [blobReadBytes, h, Bool.false_eq_true, if_false]

/-- The reading of bytes returns, and it fails after an overrun. -/
theorem blobReadBytes_total (blob : BlobReader p) (size : ℕ) :
  ∃ ret blob', blobReadBytes blob size = some (ret, blob')
    ∧ (blob.overrun = true → ret = none ∧ blob'.overrun = true)
  := by
  rcases ensureCanRead_cases blob size with ⟨clean, inside, fits, -⟩ | h
  · refine ⟨_, _, blobReadBytes_of_fits clean inside fits, ?_⟩
    intro past
    rw [clean] at past
    contradiction
  · exact ⟨_, _, blobReadBytes_of_overrun h, fun _ => ⟨rfl, rfl⟩⟩

theorem blobReadWord_of_fits {blob : BlobReader p} {k pos : ℕ} (clean : blob.overrun = false)
    (aligned : align p blob.current k = pos) (inside : pos < blob.data.length)
    (fits : pos + k ≤ blob.data.length) :
  blobReadWord k blob = some (BitVec.ofNat _ (ofWordBytes p.bigEndian (slice blob.data.bytes pos k)),
    { blob with current := pos + k })
  := by
  subst aligned
  have can : ensureCanRead (alignBlobReader blob k) k = (true, alignBlobReader blob k) :=
    ensureCanRead_of_fits clean inside fits
  simp only [blobReadWord, can, if_true]
  simp only [alignBlobReader, load_of_fits fits, Option.map_some]

/-- The reading of a word returns, and it fails after an overrun. -/
theorem blobReadWord_total (k : ℕ) (blob : BlobReader p) :
  ∃ ret blob', blobReadWord k blob = some (ret, blob')
    ∧ (blob.overrun = true → ret = 0 ∧ blob'.overrun = true)
  := by
  rcases ensureCanRead_cases (alignBlobReader blob k) k with ⟨clean, inside, fits, -⟩ | h
  · refine ⟨_, _, blobReadWord_of_fits clean rfl inside fits, ?_⟩
    intro past
    rw [show blob.overrun = false from clean] at past
    contradiction
  · refine ⟨0, { alignBlobReader blob k with overrun := true }, ?_, fun _ => ⟨rfl, rfl⟩⟩
    simp only [blobReadWord, h, Bool.false_eq_true, if_false]

theorem blobReadString_of_no_nul {blob : BlobReader p} (h : blob.nul = none) :
  blobReadString blob = some (none, { blob with overrun := true })
  := by
  simp only [blobReadString, h, ite_self]

theorem blobReadString_of_nul {blob : BlobReader p} {nul : ℕ} (found : blob.nul = some nul)
    (clean : blob.overrun = false) (small : (nul + 1) % 2 ^ 32 < 2 ^ 31) :
  blobReadString blob = some (some (slice blob.data.bytes blob.current nul),
    { blob with current := blob.current + (nul + 1) % 2 ^ 32 })
  := by
  have near := nul_lt found
  have below : (nul + 1) % 2 ^ 32 ≤ nul + 1 := Nat.mod_le _ _
  obtain ⟨size, sizeT⟩ := toSizeT_toInt32 (p := p) small
  have can : ensureCanRead blob (toSizeT p (toInt32 (nul + 1))) = (true, blob) := by
    apply ensureCanRead_of_fits clean <;> omega
  have load := load_of_fits (show blob.current + (nul + 1) ≤ blob.data.length by omega)
  have cut : (slice blob.data.bytes blob.current (nul + 1)).take nul
      = slice blob.data.bytes blob.current nul := by
    rw [slice, List.take_take, Nat.min_eq_left (Nat.le_succ nul), slice]
  have next : ((blob.current : ℤ) + toInt32 (nul + 1)).toNat
      = blob.current + (nul + 1) % 2 ^ 32 := by
    rw [size, ← Nat.cast_add, Int.toNat_natCast]
  simp only [blobReadString, if_neg (show ¬ blob.data.length ≤ blob.current by omega), found, can,
    if_true, load, Option.map_some, cut, next]

/-- The reading of a string returns where it can, and then it fails after an overrun. -/
theorem blobReadString_total {blob : BlobReader p} (readable : blob.StringReadable) :
  ∃ ret blob', blobReadString blob = some (ret, blob')
    ∧ (blob.overrun = true → ret = none ∧ blob'.overrun = true)
  := by
  rcases found : blob.nul with _ | nul
  · exact ⟨_, _, blobReadString_of_no_nul found, fun _ => ⟨rfl, rfl⟩⟩
  · obtain ⟨clean, small⟩ := readable nul found
    refine ⟨_, _, blobReadString_of_nul found clean small, ?_⟩
    intro past
    rw [clean] at past
    contradiction

/-- The assertion fails where a string is not readable. -/
theorem blobReadString_eq_none {blob : BlobReader p} (h : ¬ blob.StringReadable) :
  blobReadString blob = none
  := by
  simp only [BlobReader.StringReadable, not_forall] at h
  obtain ⟨nul, found, bad⟩ := h
  have near := nul_lt found
  have cannot : (ensureCanRead blob (toSizeT p (toInt32 (nul + 1)))).1 = false := by
    rcases ensureCanRead_cases blob (toSizeT p (toInt32 (nul + 1))) with ⟨clean, _, fits, _⟩ | h
    · have far : ¬ (nul + 1) % 2 ^ 32 < 2 ^ 31 := fun small => bad ⟨clean, small⟩
      have large := toSizeT_toInt32_large (p := p) far
      have bound : blob.data.length < p.objectBound := blob.data.bound
      omega
    · rw [h]
  simp only [blobReadString, if_neg (show ¬ blob.data.length ≤ blob.current by omega), found,
    cannot, Bool.false_eq_true, if_false]

/-! ### Runs without an assertion that fails -/

/-- A sound call returns, and it fails after an overrun. -/
theorem BlobReader.call_total {blob : BlobReader p} {c : ReadCall} (sound : blob.Sound c) :
  ∃ v blob', blob.call c = some (v, blob')
    ∧ (blob.overrun = true → v = .failure c ∧ blob'.overrun = true)
  := by
  cases c with
  | bytes size =>
    obtain ⟨ret, blob', h, sticky⟩ := blobReadBytes_total blob size
    refine ⟨.bytes ret, blob', by simp [BlobReader.call, h], fun past => ?_⟩
    simp [Value.failure, sticky past]
  | copyBytes size =>
    obtain ⟨ret, blob', h, sticky⟩ := blobReadBytes_total blob size
    refine ⟨.copied ret, blob', by simp [BlobReader.call, blobCopyBytes, h], fun past => ?_⟩
    simp [Value.failure, sticky past]
  | uint32 =>
    obtain ⟨ret, blob', h, sticky⟩ := blobReadWord_total 4 blob
    refine ⟨.uint32 ret, blob', by simp [BlobReader.call, blobReadUint32, h], fun past => ?_⟩
    simp [Value.failure, sticky past]
  | uint64 =>
    obtain ⟨ret, blob', h, sticky⟩ := blobReadWord_total 8 blob
    refine ⟨.uint64 ret, blob', by simp [BlobReader.call, blobReadUint64, h], fun past => ?_⟩
    simp [Value.failure, sticky past]
  | intptr =>
    obtain ⟨ret, blob', h, sticky⟩ := blobReadWord_total p.ptrBytes blob
    refine ⟨.intptr ret, blob', by simp [BlobReader.call, blobReadIntptr, h], fun past => ?_⟩
    simp [Value.failure, sticky past]
  | string =>
    obtain ⟨ret, blob', h, sticky⟩ := blobReadString_total (sound rfl)
    refine ⟨.string ret, blob', by simp [BlobReader.call, h], fun past => ?_⟩
    simp [Value.failure, sticky past]

theorem BlobReader.call_eq_none {blob : BlobReader p} {c : ReadCall} (h : ¬ blob.Sound c) :
  blob.call c = none
  := by
  simp only [BlobReader.Sound, not_forall] at h
  obtain ⟨rfl, unreadable⟩ := h
  simp [BlobReader.call, blobReadString_eq_none unreadable]

@[simp]
theorem BlobReader.run_nil (blob : BlobReader p) :
  blob.run [] = some ([], blob)
  := rfl

theorem BlobReader.run_cons (blob : BlobReader p) (c : ReadCall) (calls : List ReadCall) :
  blob.run (c :: calls) = (blob.call c).bind fun r =>
    (r.2.run calls).map fun rs => (r.1 :: rs.1, rs.2)
  := by
  rw [BlobReader.run]
  rcases blob.call c with _ | ⟨v, blob'⟩
  · rfl
  · simp only [Option.bind_eq_bind, Option.bind_some]
    rcases blob'.run calls with _ | _ <;> rfl

theorem BlobReader.run_cons_of_call {blob blob' : BlobReader p} {c : ReadCall} {v : Value p}
    (h : blob.call c = some (v, blob')) (calls : List ReadCall) :
  blob.run (c :: calls) = (blob'.run calls).map fun rs => (v :: rs.1, rs.2)
  := by
  rw [run_cons, h]
  rfl

theorem BlobReader.run_append (blob : BlobReader p) (calls calls' : List ReadCall) :
  blob.run (calls ++ calls') = (blob.run calls).bind fun r =>
    (r.2.run calls').map fun rs => (r.1 ++ rs.1, rs.2)
  := by
  induction calls generalizing blob with
  | nil => simp
  | cons c calls ih =>
    rw [List.cons_append, run_cons, run_cons]
    rcases blob.call c with _ | ⟨v, blob'⟩
    · rfl
    · simp only [Option.bind_some, ih, Option.map_bind, Option.bind_map]
      rcases blob'.run calls with _ | ⟨vs, blob''⟩
      · rfl
      · simp [Function.comp_def]

/-- The calls are all sound, each in the state that the ones before it lead to. -/
def BlobReader.AllSound (blob : BlobReader p) (calls : List ReadCall) : Prop :=
  ∀ before c after vs blob', calls = before ++ c :: after → blob.run before = some (vs, blob') →
    blob'.Sound c

/-- The calls all return, and once there was an overrun they fail. -/
def BlobReader.ReadsSafely (blob : BlobReader p) (calls : List ReadCall) : Prop :=
  (blob.run calls).isSome
    ∧ ∀ before after vs blob', calls = before ++ after → blob.run before = some (vs, blob') →
      blob'.overrun = true →
      ∃ blob'', blob'.run after = some (after.map .failure, blob'') ∧ blob''.overrun = true

theorem BlobReader.AllSound.head {blob : BlobReader p} {c : ReadCall} {calls : List ReadCall}
    (h : blob.AllSound (c :: calls)) :
  blob.Sound c
  := h [] c calls [] blob rfl rfl

theorem BlobReader.AllSound.tail {blob blob' : BlobReader p} {c : ReadCall} {v : Value p}
    {calls : List ReadCall} (h : blob.AllSound (c :: calls)) (called : blob.call c = some (v, blob')) :
  blob'.AllSound calls
  := by
  intro before c' after vs blob'' split ran
  apply h (c :: before) c' after (v :: vs) blob''
  · rw [split, List.cons_append]
  · rw [run_cons_of_call called, ran]
    rfl

theorem BlobReader.AllSound.run_isSome {blob : BlobReader p} {calls : List ReadCall}
    (h : blob.AllSound calls) :
  (blob.run calls).isSome
  := by
  induction calls generalizing blob with
  | nil => rfl
  | cons c calls ih =>
    obtain ⟨v, blob', called, -⟩ := call_total h.head
    rw [run_cons_of_call called, Option.isSome_map]
    apply ih
    apply h.tail called

/-- After an overrun the calls fail, as far as they return. -/
theorem BlobReader.run_of_overrun {blob blob' : BlobReader p} {calls : List ReadCall}
    {vs : List (Value p)} (past : blob.overrun = true) (ran : blob.run calls = some (vs, blob')) :
  vs = calls.map .failure ∧ blob'.overrun = true
  := by
  induction calls generalizing blob vs with
  | nil =>
    simp only [run_nil, Option.some.injEq, Prod.mk.injEq] at ran
    obtain ⟨rfl, rfl⟩ := ran
    exact ⟨rfl, past⟩
  | cons c calls ih =>
    have sound : blob.Sound c := by
      by_contra unsound
      rw [run_cons, call_eq_none unsound] at ran
      contradiction
    obtain ⟨v, blob₁, called, sticky⟩ := call_total sound
    obtain ⟨rfl, past₁⟩ := sticky past
    rw [run_cons_of_call called, Option.map_eq_some_iff] at ran
    obtain ⟨⟨vs₁, blob₂⟩, ran₁, eq⟩ := ran
    obtain ⟨rfl, rfl⟩ := Prod.mk.inj eq
    obtain ⟨rfl, past₂⟩ := ih past₁ ran₁
    exact ⟨rfl, past₂⟩

/-- A run of the reader is safe exactly when all its calls are sound. -/
theorem BlobReader.readsSafely_iff (blob : BlobReader p) (calls : List ReadCall) :
  blob.ReadsSafely calls ↔ blob.AllSound calls
  := by
  constructor
  · rintro ⟨returns, -⟩ before c after vs blob' rfl ran
    by_contra unsound
    rw [run_append, ran, Option.bind_some, run_cons, call_eq_none unsound] at returns
    contradiction
  · intro sound
    refine ⟨sound.run_isSome, ?_⟩
    rintro before after vs blob' rfl ran past
    have returns := sound.run_isSome
    rw [run_append, ran, Option.bind_some, Option.isSome_map, Option.isSome_iff_exists] at returns
    obtain ⟨⟨vs', blob''⟩, ran'⟩ := returns
    obtain ⟨rfl, past'⟩ := run_of_overrun past ran'
    exact ⟨blob'', ran', past'⟩

end Compiler
