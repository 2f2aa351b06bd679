import Mesa.Compiler.Blob
import Mathlib.Data.List.Induction

/-!
# What is written to a blob is read back

A blob is written by a script: data is appended to it, and room is reserved that is filled later.
What the script means is a list of slots, each with the call that reads it back and with what it
holds.  The blob stores the slots one after the other, and the calls give back what they hold.
-/

namespace Compiler

open Bits

variable {p : Platform}

/-! ### Scripts -/

/-- Something that is written to a blob.  Bytes are read back with `blob_read_bytes` or with
`blob_copy_bytes`. -/
inductive Datum (p : Platform) where
  | bytes (bytes : Object p) (copy : Bool)
  | uint32 (value : BitVec 32)
  | uint64 (value : BitVec 64)
  | intptr (value : BitVec (8 * p.ptrBytes))
  | string (str : CString p)

/-- The call that reads bytes. -/
def bytesCall (size : ℕ) (copy : Bool) : ReadCall := if copy then .copyBytes size else .bytes size

namespace Datum

theorem four_le_eight : 4 ≤ 8 := by decide

theorem eight_le_eight : 8 ≤ 8 := Nat.le_refl 8

/-- The bytes that stand for a datum. -/
def object : Datum p → Object p
  | bytes o _ => o
  | uint32 v => wordObject p 4 four_le_eight v
  | uint64 v => wordObject p 8 eight_le_eight v
  | intptr v => wordObject p p.ptrBytes p.ptrBytes_le v
  | string s => s.object

/-- The call that reads a datum. -/
def call : Datum p → ReadCall
  | bytes o copy => bytesCall o.length copy
  | uint32 _ => .uint32
  | uint64 _ => .uint64
  | intptr _ => .intptr
  | string _ => .string

/-- What the reading of a datum has to return. -/
def value : Datum p → Value p
  | bytes o copy => if copy then .copied (some o.bytes) else .bytes (some o.bytes)
  | uint32 v => .uint32 v
  | uint64 v => .uint64 v
  | intptr v => .intptr v
  | string s => .string (some s.chars)

end Datum

/-- A call that writes to a blob.  What is overwritten is given by its number in the script. -/
inductive WriteCall (p : Platform) where
  | write (d : Datum p)
  | reserveBytes (n : ℕ) (copy : Bool)
  | reserveUint32
  | reserveIntptr
  | overwrite (k : ℕ) (d : Datum p)

/-- A part of a blob. -/
structure Slot (p : Platform) where
  call : ReadCall
  length : ℕ
  contents : Option (Datum p)
  reserved : Bool

/-- A slot that is written at once. -/
def Datum.slot (d : Datum p) : Slot p := ⟨d.call, d.object.length, some d, false⟩

/-- A slot that is reserved. -/
def reservation (c : ReadCall) (n : ℕ) : Slot p := ⟨c, n, none, true⟩

/-- What a call means for the slots.  What overwrites a slot is of the kind that was reserved. -/
def WriteCall.slots (doc : List (Slot p)) : WriteCall p → Option (List (Slot p))
  | .write d => some (doc ++ [d.slot])
  | .reserveBytes n copy => some (doc ++ [reservation (bytesCall n copy) n])
  | .reserveUint32 => some (doc ++ [reservation .uint32 4])
  | .reserveIntptr => some (doc ++ [reservation .intptr p.ptrBytes])
  | .overwrite k d => do
    let slot ← doc[k]?
    if slot.reserved = true ∧ slot.call = d.call then
      some (doc.set k { slot with contents := some d })
    else none

/-- What a script means. -/
def slotsOf (doc : List (Slot p)) : List (WriteCall p) → Option (List (Slot p))
  | [] => some doc
  | c :: script => (c.slots doc).bind fun doc => slotsOf doc script

/-- A blob, and the offsets that the reservations returned; the writes return none. -/
structure Session (p : Platform) where
  blob : Blob p
  offsets : List ℕ

/-- A call that writes a datum. -/
def writeDatum (mem : Realloc p) (blob : Blob p) : Datum p → Option (Bool × Blob p)
  | .bytes o _ => blobWriteBytes mem blob o
  | .uint32 v => blobWriteUint32 mem blob v
  | .uint64 v => blobWriteUint64 mem blob v
  | .intptr v => blobWriteIntptr mem blob v
  | .string s => blobWriteString mem blob s

/-- A call that overwrites a reservation; there is none for strings and 64-bit words. -/
def overwriteDatum (blob : Blob p) (offset : ℕ) : Datum p → Option (Bool × Blob p)
  | .bytes o _ => blobOverwriteBytes blob offset o
  | .uint32 v => blobOverwriteUint32 blob offset v
  | .intptr v => blobOverwriteIntptr blob offset v
  | .uint64 _ | .string _ => none

namespace Session

/-- The session after a write, if that succeeds. -/
def wrote (s : Session p) (r : Bool × Blob p) : Option (Session p) :=
  if r.1 then some ⟨r.2, s.offsets ++ [noOffset p]⟩ else none

/-- The session after a reservation, if that succeeds. -/
def reserved (s : Session p) (r : ℕ × Blob p) : Option (Session p) :=
  if r.1 = noOffset p then none else some ⟨r.2, s.offsets ++ [r.1]⟩

/-- The session after an overwrite, if that succeeds. -/
def overwrote (s : Session p) (r : Bool × Blob p) : Option (Session p) :=
  if r.1 then some { s with blob := r.2 } else none

/-- A call of a script, if it succeeds. -/
def step (mem : Realloc p) (s : Session p) : WriteCall p → Option (Session p)
  | .write d => (writeDatum mem s.blob d).bind s.wrote
  | .reserveBytes n _ => s.reserved (blobReserveBytes mem s.blob n)
  | .reserveUint32 => (blobReserveUint32 mem s.blob).bind s.reserved
  | .reserveIntptr => (blobReserveIntptr mem s.blob).bind s.reserved
  | .overwrite k d => do
    let offset ← s.offsets[k]?
    (overwriteDatum s.blob offset d).bind s.overwrote

/-- The calls of a script, if all of them succeed.  Each may find another state of the memory. -/
def run (s : Session p) : List (Realloc p × WriteCall p) → Option (Session p)
  | [] => some s
  | c :: script => (s.step c.1 c.2).bind fun s => s.run script

end Session

/-- The data of a blob. -/
def Blob.bytes (blob : Blob p) : List UInt8 :=
  match blob.data with
  | none => []
  | some o => o.bytes

theorem Blob.length_bytes_lt (blob : Blob p) :
  blob.bytes.length < p.objectBound
  := by
  have := p.objectBound_ge
  rcases h : blob.data with _ | o
  · simp only [bytes, h, List.length_nil]
    omega
  · simp only [bytes, h]
    apply o.bound

/-- The data that was written to a blob. -/
def Blob.contents (blob : Blob p) : Object p where
  bytes := blob.bytes.take blob.size
  bound := by
    have := blob.length_bytes_lt
    rw [List.length_take]
    omega

/-! ### Alignment -/

/-- The next multiple. -/
def alignUp (value alignment : ℕ) : ℕ := (value + alignment - 1) / alignment * alignment

theorem align_eq {value alignment : ℕ} (h : value < p.objectBound) (ha : alignment ≤ 8) :
  align p value alignment = alignUp value alignment
  := by
  have := p.sizes_eq
  have := p.objectBound_ge
  rw [align, alignUp, Nat.mod_eq_of_lt (by omega)]

@[simp]
theorem alignUp_one (value : ℕ) :
  alignUp value 1 = value
  := by
  simp [alignUp]

theorem le_alignUp (value : ℕ) {alignment : ℕ} (h : 0 < alignment) :
  value ≤ alignUp value alignment
  := by
  have := Nat.div_add_mod (value + alignment - 1) alignment
  have := Nat.mod_lt (value + alignment - 1) h
  rw [alignUp, Nat.mul_comm]
  omega

/-! ### What the slots hold -/

/-- A slot holds what it is made for. -/
structure Slot.Proper (slot : Slot p) : Prop where
  call_eq : ∀ d, slot.contents = some d → d.call = slot.call
  length_eq : ∀ d, slot.contents = some d → d.object.length = slot.length
  reserved_length : slot.reserved = true → ∀ d : Datum p, d.call = slot.call →
    d.object.length = slot.length

theorem Datum.slot_proper (d : Datum p) :
  d.slot.Proper
  where
  call_eq := by
    rintro _ ⟨⟩
    rfl
  length_eq := by
    rintro _ ⟨⟩
    rfl
  reserved_length := by
    rintro ⟨⟩

theorem reservation_proper {c : ReadCall} {n : ℕ}
    (h : ∀ d : Datum p, d.call = c → d.object.length = n) :
  (reservation c n : Slot p).Proper
  where
  call_eq := by
    rintro _ ⟨⟩
  length_eq := by
    rintro _ ⟨⟩
  reserved_length := fun _ => h

/-- What is read by the call for some bytes is that long. -/
theorem length_of_call_bytes {n : ℕ} {copy : Bool} (d : Datum p) (h : d.call = bytesCall n copy) :
  d.object.length = n
  := by
  cases copy <;> cases d with
  | bytes o copy' => cases copy' <;> simp_all [Datum.call, bytesCall, Datum.object]
  | _ => simp [Datum.call, bytesCall] at h

theorem length_of_call_uint32 (d : Datum p) (h : d.call = .uint32) :
  d.object.length = 4
  := by
  cases d with
  | uint32 v => apply length_wordBytes
  | bytes o copy => cases copy <;> simp [Datum.call, bytesCall] at h
  | _ => simp [Datum.call] at h

theorem length_of_call_intptr (d : Datum p) (h : d.call = .intptr) :
  d.object.length = p.ptrBytes
  := by
  cases d with
  | intptr v => apply length_wordBytes
  | bytes o copy => cases copy <;> simp [Datum.call, bytesCall] at h
  | _ => simp [Datum.call] at h

/-- What an overwrite means for the slots. -/
theorem slots_overwrite {doc doc' : List (Slot p)} {k : ℕ} {d : Datum p}
    (h : (WriteCall.overwrite k d).slots doc = some doc') :
  ∃ slot, doc[k]? = some slot ∧ slot.reserved = true ∧ slot.call = d.call
    ∧ doc' = doc.set k { slot with contents := some d }
  := by
  simp only [WriteCall.slots, Option.bind_eq_bind, Option.bind_eq_some_iff] at h
  obtain ⟨slot, found, h⟩ := h
  split at h
  · rename_i fit
    exact ⟨slot, found, fit.1, fit.2, (Option.some.inj h).symm⟩
  · contradiction

theorem forall_append_singleton {P : Slot p → Prop} {doc : List (Slot p)} {slot : Slot p}
    (h : ∀ slot ∈ doc, P slot) (h' : P slot) :
  ∀ slot' ∈ doc ++ [slot], P slot'
  := by
  intro slot' mem
  rcases List.mem_append.1 mem with old | new
  · exact h slot' old
  · rw [List.mem_singleton.1 new]
    exact h'

/-- Slots stay proper. -/
theorem WriteCall.slots_proper {doc doc' : List (Slot p)} {c : WriteCall p}
    (h : c.slots doc = some doc') (proper : ∀ slot ∈ doc, slot.Proper) :
  ∀ slot ∈ doc', slot.Proper
  := by
  cases c with
  | write d =>
    rw [← Option.some.inj h]
    exact forall_append_singleton proper d.slot_proper
  | reserveBytes n copy =>
    rw [← Option.some.inj h]
    exact forall_append_singleton proper (reservation_proper length_of_call_bytes)
  | reserveUint32 =>
    rw [← Option.some.inj h]
    exact forall_append_singleton proper (reservation_proper length_of_call_uint32)
  | reserveIntptr =>
    rw [← Option.some.inj h]
    exact forall_append_singleton proper (reservation_proper length_of_call_intptr)
  | overwrite k d =>
    obtain ⟨slot, found, reserved, call_eq, rfl⟩ := slots_overwrite h
    have old := proper slot (List.mem_of_getElem? found)
    intro slot' mem
    rcases List.mem_or_eq_of_mem_set mem with same | rfl
    · exact proper slot' same
    · refine ⟨?_, ?_, old.reserved_length⟩
      · rintro _ ⟨⟩
        exact call_eq.symm
      · rintro _ ⟨⟩
        exact old.reserved_length reserved d call_eq.symm

/-! ### Where the slots are -/

/-- To which multiple a call aligns. -/
def ReadCall.alignment (p : Platform) : ReadCall → ℕ
  | .bytes _ | .copyBytes _ | .string => 1
  | .uint32 => 4
  | .uint64 => 8
  | .intptr => p.ptrBytes

theorem ReadCall.alignment_pos (c : ReadCall) :
  0 < c.alignment p
  := by
  rcases p.ptrBytes_eq with h | h <;> cases c <;> simp [alignment, h]

/-- Where a slot starts that comes after the given position. -/
def Slot.start (slot : Slot p) (pos : ℕ) : ℕ := alignUp pos (slot.call.alignment p)

/-- Where the slots end. -/
def finish (doc : List (Slot p)) : ℕ := doc.foldl (fun pos slot => slot.start pos + slot.length) 0

/-- Where a slot starts. -/
def offset (doc : List (Slot p)) (k : ℕ) (slot : Slot p) : ℕ := slot.start (finish (doc.take k))

theorem finish_append_singleton (doc : List (Slot p)) (slot : Slot p) :
  finish (doc ++ [slot]) = slot.start (finish doc) + slot.length
  := by
  rw [finish, List.foldl_append, List.foldl_cons, List.foldl_nil, ← finish]

theorem Slot.le_start (slot : Slot p) (pos : ℕ) :
  pos ≤ slot.start pos
  := le_alignUp pos slot.call.alignment_pos

theorem finish_le_append (doc doc' : List (Slot p)) :
  finish doc ≤ finish (doc ++ doc')
  := by
  induction doc' generalizing doc with
  | nil => simp
  | cons slot doc' ih =>
    have next := ih (doc ++ [slot])
    have := slot.le_start (finish doc)
    rw [finish_append_singleton, List.append_assoc, List.singleton_append] at next
    omega

theorem finish_take_le (doc : List (Slot p)) {j k : ℕ} (h : j ≤ k) :
  finish (doc.take j) ≤ finish (doc.take k)
  := by
  have split : doc.take k = doc.take j ++ (doc.take k).drop j := by
    conv_lhs => rw [← List.take_append_drop j (doc.take k), List.take_take, Nat.min_eq_left h]
  rw [split]
  apply finish_le_append

theorem finish_take_succ {doc : List (Slot p)} {k : ℕ} {slot : Slot p} (h : doc[k]? = some slot) :
  finish (doc.take (k + 1)) = offset doc k slot + slot.length
  := by
  rw [List.take_add_one, h, Option.toList_some, finish_append_singleton, offset]

/-- Slots end within the blob. -/
theorem offset_add_length_le {doc : List (Slot p)} {k : ℕ} {slot : Slot p}
    (h : doc[k]? = some slot) :
  offset doc k slot + slot.length ≤ finish doc
  := by
  rw [← finish_take_succ h]
  conv_rhs => rw [← List.take_append_drop (k + 1) doc]
  apply finish_le_append

/-- Slots do not overlap. -/
theorem offset_add_length_le_offset {doc : List (Slot p)} {j k : ℕ} {slot slot' : Slot p}
    (h : doc[j]? = some slot) (hjk : j < k) :
  offset doc j slot + slot.length ≤ offset doc k slot'
  := by
  rw [← finish_take_succ h]
  apply Nat.le_trans (finish_take_le doc hjk)
  apply Slot.le_start

/-- Where slots end does not depend on what they hold. -/
theorem finish_congr {doc doc' : List (Slot p)}
    (h : doc.map (fun s => (s.call, s.length)) = doc'.map (fun s => (s.call, s.length))) :
  finish doc = finish doc'
  := by
  have eq : ∀ doc : List (Slot p), finish doc
      = (doc.map (fun s => (s.call, s.length))).foldl
          (fun pos s => alignUp pos (s.1.alignment p) + s.2) 0 := by
    intro doc
    rw [List.foldl_map]
    rfl
  rw [eq, eq, h]

/-! ### Growing and copying -/

/-- What the calls keep as long as they succeed. -/
structure Blob.Good (blob : Blob p) : Prop where
  allocated_eq : blob.allocated = blob.bytes.length
  size_le : blob.size ≤ blob.allocated
  inMemory : blob.outOfMemory = false

/-- A later state of a blob, in which nothing that was there is lost. -/
structure Blob.Extends (blob' blob : Blob p) : Prop where
  good : blob'.Good
  size_le : blob.size ≤ blob'.size
  keeps : ∀ i < blob.size, blob'.bytes[i]? = blob.bytes[i]?

theorem Blob.Good.size_lt {blob : Blob p} (h : blob.Good) :
  blob.size < p.objectBound
  := by
  have := h.size_le
  have := h.allocated_eq
  have := blob.length_bytes_lt
  omega

theorem Blob.Extends.trans {blob blob' blob'' : Blob p} (h' : blob''.Extends blob')
    (h : blob'.Extends blob) :
  blob''.Extends blob
  := by
  refine ⟨h'.good, Nat.le_trans h.size_le h'.size_le, ?_⟩
  intro i hi
  rw [h'.keeps i (Nat.lt_of_lt_of_le hi h.size_le), h.keeps i hi]

theorem Blob.Extends.slice_eq {blob blob' : Blob p} (h : blob'.Extends blob) {pos n : ℕ}
    (inside : pos + n ≤ blob.size) :
  slice blob'.bytes pos n = slice blob.bytes pos n
  := by
  apply slice_congr
  intro i _ hi
  apply h.keeps
  omega

/-- Where it succeeds, `grow_to_fit` makes room and keeps what there is. -/
theorem growToFit_spec {mem : Realloc p} {blob blob' : Blob p} {n : ℕ} (good : blob.Good)
    (hn : n < p.objectBound) (grown : growToFit mem blob n = (true, blob')) :
  blob'.Extends blob ∧ blob'.size = blob.size ∧ blob.size + n ≤ blob'.allocated
  := by
  have hsize := good.size_lt
  have hlength := blob.length_bytes_lt
  have hallocated := good.allocated_eq
  have hle := good.size_le
  have wide := p.sizes_eq
  have noWrap : (blob.size + n) % p.sizes = blob.size + n := Nat.mod_eq_of_lt (by omega)
  have noWrap' : (blob.allocated + n) % p.sizes = blob.allocated + n := Nat.mod_eq_of_lt (by omega)
  rw [growToFit, if_neg (by simp [good.inMemory]), noWrap, noWrap'] at grown
  split at grown
  · obtain ⟨-, rfl⟩ := Prod.mk.inj grown
    exact ⟨⟨good, Nat.le_refl _, fun _ _ => rfl⟩, rfl, by assumption⟩
  rename_i tight
  split at grown
  · simp at grown
  dsimp only at grown
  split at grown
  · simp at grown
  rename_i newData reallocated
  obtain ⟨-, rfl⟩ := Prod.mk.inj grown
  have newLength := mem.length_eq reallocated
  have enough : blob.size + n ≤ newData.length := by
    rw [newLength]
    omega
  refine ⟨⟨⟨?_, ?_, good.inMemory⟩, Nat.le_refl _, ?_⟩, rfl, ?_⟩
  · exact newLength.symm
  · dsimp only
    omega
  · intro i hi
    rcases hdata : blob.data with _ | data
    · simp only [Blob.bytes, hdata, List.length_nil] at hallocated
      omega
    · rw [hdata] at reallocated
      have kept : newData.bytes[i]? = data.bytes[i]? := by
        apply mem.keeps reallocated
        · simp only [Blob.bytes, hdata] at hallocated
          rw [Object.length]
          omega
        · rw [← newLength]
          omega
      simpa only [Blob.bytes, hdata] using kept
  · dsimp only
    omega

theorem growToFit_of_outOfMemory {mem : Realloc p} {blob : Blob p} (h : blob.outOfMemory = true)
    (n : ℕ) :
  growToFit mem blob n = (false, blob)
  := by
  rw [growToFit, if_pos h]

/-- Where it fails, `grow_to_fit` says so. -/
theorem growToFit_failed {mem : Realloc p} {blob blob' : Blob p} {n : ℕ}
    (failed : growToFit mem blob n = (false, blob')) :
  blob'.outOfMemory = true
  := by
  rw [growToFit] at failed
  split at failed
  · obtain ⟨-, rfl⟩ := Prod.mk.inj failed
    assumption
  split at failed
  · simp at failed
  split at failed
  · obtain ⟨-, rfl⟩ := Prod.mk.inj failed
    rfl
  dsimp only at failed
  split at failed
  · obtain ⟨-, rfl⟩ := Prod.mk.inj failed
    rfl
  · simp at failed

theorem Object.store_of_fits {o : Object p} {pos : ℕ} {src : List UInt8}
    (fits : pos + src.length ≤ o.length) :
  ∃ o', o.store pos src = some o' ∧ o'.bytes = patch o.bytes pos src
  := ⟨_, dif_pos fits, rfl⟩

/-- A copy within the data of a blob. -/
theorem Blob.copyIn_spec {blob : Blob p} {pos : ℕ} {src : List UInt8}
    (fits : pos + src.length ≤ blob.bytes.length) :
  ∃ blob', blob.copyIn pos src = some blob' ∧ blob'.bytes = patch blob.bytes pos src
    ∧ blob'.allocated = blob.allocated ∧ blob'.size = blob.size
    ∧ blob'.outOfMemory = blob.outOfMemory
  := by
  rcases hdata : blob.data with _ | data
  · simp only [bytes, hdata, List.length_nil] at fits
    have empty : src = [] := List.eq_nil_of_length_eq_zero (by omega)
    refine ⟨blob, by simp [copyIn, hdata], ?_, rfl, rfl, rfl⟩
    simp [bytes, hdata, patch, empty]
  · simp only [bytes, hdata] at fits
    obtain ⟨data', stored, eq⟩ := Object.store_of_fits fits
    refine ⟨{ blob with data := some data' }, by simp [copyIn, hdata, stored], ?_, rfl, rfl, rfl⟩
    simp only [bytes, hdata, eq]

/-- Bytes that are copied to the room at the end of a blob. -/
theorem Blob.copyIn_end {blob : Blob p} {src : List UInt8} (good : blob.Good)
    (room : blob.size + src.length ≤ blob.allocated) :
  ∃ blob', blob.copyIn blob.size src = some blob' ∧ blob'.size = blob.size
    ∧ Blob.Extends { blob' with size := blob.size + src.length } blob
    ∧ slice blob'.bytes blob.size src.length = src
  := by
  have fits : blob.size + src.length ≤ blob.bytes.length := by
    rw [← good.allocated_eq]
    exact room
  obtain ⟨blob', copied, hbytes, hallocated, hsize, hmem⟩ := copyIn_spec fits
  have keeps : ∀ i < blob.size, blob'.bytes[i]? = blob.bytes[i]? := by
    intro i hi
    rw [hbytes, getElem?_patch fits, if_neg (by omega)]
  refine ⟨blob', copied, hsize, ⟨⟨?_, ?_, ?_⟩, Nat.le_add_right _ _, keeps⟩, ?_⟩
  · change blob'.allocated = blob'.bytes.length
    rw [hallocated, hbytes, length_patch fits, good.allocated_eq]
  · change blob.size + src.length ≤ blob'.allocated
    rw [hallocated]
    exact room
  · change blob'.outOfMemory = false
    rw [hmem, good.inMemory]
  · rw [hbytes, slice_patch_self fits]

/-! ### What the writers do -/

/-- Where it succeeds, `blob_write_bytes` appends the bytes. -/
theorem blobWriteBytes_spec {mem : Realloc p} {blob blob' : Blob p} {o : Object p}
    (good : blob.Good) (wrote : blobWriteBytes mem blob o = some (true, blob')) :
  blob'.Extends blob ∧ blob'.size = blob.size + o.length
    ∧ slice blob'.bytes blob.size o.length = o.bytes
  := by
  rw [blobWriteBytes] at wrote
  rcases grown : growToFit mem blob o.length with ⟨_ | _, blob₁⟩
  · simp [grown] at wrote
  obtain ⟨extends₁, hsize, room⟩ := growToFit_spec good o.bound grown
  have room₁ : blob₁.size + o.bytes.length ≤ blob₁.allocated := by
    rw [hsize]
    exact room
  obtain ⟨blob₂, copied, hsize₂, extends₂, stored⟩ := Blob.copyIn_end extends₁.good room₁
  have noWrap : (blob₂.size + o.length) % p.sizes = blob₁.size + o.bytes.length := by
    have below : blob₁.size + o.bytes.length < p.objectBound := extends₂.good.size_lt
    have := p.sizes_eq
    rw [hsize₂, Object.length]
    apply Nat.mod_eq_of_lt
    omega
  simp only [grown, if_true, copied, Option.map_some, noWrap, Option.some.injEq, Prod.mk.injEq,
    true_and] at wrote
  subst wrote
  refine ⟨extends₂.trans extends₁, by simp only [hsize, Object.length], ?_⟩
  rw [← hsize]
  exact stored

/-- Where it does not run out of memory, `align_blob` pads the blob. -/
theorem alignBlob_spec {mem : Realloc p} {blob blob' : Blob p} {k : ℕ} {r : Bool}
    (good : blob.Good) (hk : 0 < k) (hk' : k ≤ 8) (aligned : alignBlob mem blob k = some (r, blob'))
    (inMemory : blob'.outOfMemory = false) :
  blob'.Extends blob ∧ blob'.size = alignUp blob.size k
  := by
  have up := le_alignUp blob.size hk
  have below : alignUp blob.size k - blob.size < p.objectBound := by
    have := p.objectBound_ge
    have := Nat.div_mul_le_self (blob.size + k - 1) k
    rw [alignUp]
    omega
  rw [alignBlob, align_eq good.size_lt hk'] at aligned
  dsimp only at aligned
  split at aligned
  swap
  · simp only [Option.some.injEq, Prod.mk.injEq] at aligned
    obtain ⟨-, rfl⟩ := aligned
    exact ⟨⟨good, Nat.le_refl _, fun _ _ => rfl⟩, by omega⟩
  rcases grown : growToFit mem blob (alignUp blob.size k - blob.size) with ⟨_ | _, blob₁⟩
  · simp only [grown, Bool.false_eq_true, if_false, Option.some.injEq, Prod.mk.injEq] at aligned
    obtain ⟨-, rfl⟩ := aligned
    rw [growToFit_failed grown] at inMemory
    contradiction
  obtain ⟨extends₁, hsize, room⟩ := growToFit_spec good below grown
  have room₁ : blob₁.size + (List.replicate (alignUp blob.size k - blob.size) (0 : UInt8)).length
      ≤ blob₁.allocated := by
    rw [hsize, List.length_replicate]
    exact room
  obtain ⟨blob₂, copied, hsize₂, extends₂, -⟩ := Blob.copyIn_end extends₁.good room₁
  rw [hsize] at copied
  simp only [grown, if_true, copied, Option.map_some, Option.some.injEq, Prod.mk.injEq] at aligned
  obtain ⟨-, rfl⟩ := aligned
  rw [List.length_replicate, hsize, Nat.add_sub_cancel' up] at extends₂
  exact ⟨extends₂.trans extends₁, rfl⟩

/-- Where it succeeds, `blob_reserve_bytes` makes room at the end. -/
theorem blobReserveBytes_spec {mem : Realloc p} {blob blob' : Blob p} {n pos : ℕ}
    (good : blob.Good) (hn : n < p.objectBound)
    (reserved : blobReserveBytes mem blob n = (pos, blob')) (success : pos ≠ noOffset p) :
  blob'.Extends blob ∧ blob'.size = blob.size + n ∧ pos = blob.size
  := by
  rw [blobReserveBytes] at reserved
  rcases grown : growToFit mem blob n with ⟨_ | _, blob₁⟩
  · simp only [grown, Bool.false_eq_true, if_false, Prod.mk.injEq] at reserved
    exact absurd reserved.1.symm success
  obtain ⟨extends₁, hsize, room⟩ := growToFit_spec good hn grown
  have hlength := blob₁.length_bytes_lt
  have hallocated := extends₁.good.allocated_eq
  have wide := p.sizes_eq
  have noWrap : (blob.size + n) % p.sizes = blob.size + n := by
    apply Nat.mod_eq_of_lt
    omega
  simp only [grown, if_true, hsize, noWrap, Prod.mk.injEq] at reserved
  obtain ⟨rfl, rfl⟩ := reserved
  refine ⟨⟨⟨hallocated, room, extends₁.good.inMemory⟩, Nat.le_add_right _ _, ?_⟩, rfl, rfl⟩
  exact extends₁.keeps

/-- A write to a blob that is out of memory fails. -/
theorem blobWriteBytes_inMemory {mem : Realloc p} {blob blob' : Blob p} {o : Object p}
    (wrote : blobWriteBytes mem blob o = some (true, blob')) :
  blob.outOfMemory = false
  := by
  by_contra out
  rw [Bool.not_eq_false] at out
  simp [blobWriteBytes, growToFit_of_outOfMemory out] at wrote

/-- A reservation in a blob that is out of memory fails. -/
theorem blobReserveBytes_inMemory {mem : Realloc p} {blob blob' : Blob p} {n pos : ℕ}
    (reserved : blobReserveBytes mem blob n = (pos, blob')) (success : pos ≠ noOffset p) :
  blob.outOfMemory = false
  := by
  by_contra out
  rw [Bool.not_eq_false] at out
  simp only [blobReserveBytes, growToFit_of_outOfMemory out, Bool.false_eq_true, if_false,
    Prod.mk.injEq] at reserved
  exact success reserved.1.symm

/-- Where it succeeds, the write of a word appends its bytes to the padded blob. -/
theorem blobWriteWord_spec {mem : Realloc p} {blob blob' : Blob p} {k : ℕ} {hk : k ≤ 8}
    {v : BitVec (8 * k)} (good : blob.Good) (hk' : 0 < k)
    (wrote : blobWriteWord mem k hk blob v = some (true, blob')) :
  blob'.Extends blob ∧ blob'.size = alignUp blob.size k + k
    ∧ slice blob'.bytes (alignUp blob.size k) k = (wordObject p k hk v).bytes
  := by
  rw [blobWriteWord, Option.bind_eq_some_iff] at wrote
  obtain ⟨⟨r, blob₁⟩, aligned, wrote⟩ := wrote
  obtain ⟨extends₁, hsize⟩ := alignBlob_spec good hk' hk aligned (blobWriteBytes_inMemory wrote)
  obtain ⟨extends₂, hsize₂, stored⟩ := blobWriteBytes_spec extends₁.good wrote
  have length : (wordObject p k hk v).length = k := length_wordBytes _ _ _
  rw [hsize, length] at hsize₂ stored
  exact ⟨extends₂.trans extends₁, hsize₂, stored⟩

/-- Where it succeeds, the reservation of a word makes room at the end of the padded blob. -/
theorem blobReserveWord_spec {mem : Realloc p} {blob blob' : Blob p} {k pos : ℕ} (good : blob.Good)
    (hk : 0 < k) (hk' : k ≤ 8) (reserved : blobReserveWord mem k blob = some (pos, blob'))
    (success : pos ≠ noOffset p) :
  blob'.Extends blob ∧ blob'.size = alignUp blob.size k + k ∧ pos = alignUp blob.size k
  := by
  rw [blobReserveWord, Option.map_eq_some_iff] at reserved
  obtain ⟨⟨r, blob₁⟩, aligned, reserved⟩ := reserved
  have small : k < p.objectBound := by
    have := p.objectBound_ge
    omega
  obtain ⟨extends₁, hsize⟩ :=
    alignBlob_spec good hk hk' aligned (blobReserveBytes_inMemory reserved success)
  obtain ⟨extends₂, hsize₂, rfl⟩ := blobReserveBytes_spec extends₁.good small reserved success
  rw [hsize] at hsize₂
  exact ⟨extends₂.trans extends₁, hsize₂, hsize⟩

/-- Where it succeeds, `blob_overwrite_bytes` puts the bytes where it is told to. -/
theorem blobOverwriteBytes_spec {blob blob' : Blob p} {pos : ℕ} {o : Object p} (good : blob.Good)
    (fits : pos + o.length ≤ blob.size)
    (overwrote : blobOverwriteBytes blob pos o = some (true, blob')) :
  blob'.Good ∧ blob'.size = blob.size ∧ blob'.bytes = patch blob.bytes pos o.bytes
  := by
  have inside : pos + o.bytes.length ≤ blob.bytes.length := by
    rw [← good.allocated_eq]
    exact Nat.le_trans fits good.size_le
  obtain ⟨blob₁, copied, hbytes, hallocated, hsize, hmem⟩ := Blob.copyIn_spec inside
  rw [blobOverwriteBytes] at overwrote
  split at overwrote
  · simp at overwrote
  · simp only [copied, Option.map_some, Option.some.injEq, Prod.mk.injEq, true_and] at overwrote
    subst overwrote
    refine ⟨⟨?_, ?_, ?_⟩, hsize, hbytes⟩
    · rw [hallocated, hbytes, length_patch inside, good.allocated_eq]
    · rw [hallocated, hsize]
      exact good.size_le
    · rw [hmem, good.inMemory]

/-! ### What a session keeps -/

/-- The bytes of a blob hold what the slots hold. -/
def Stored (bytes : List UInt8) (doc : List (Slot p)) : Prop :=
  ∀ k slot d, doc[k]? = some slot → slot.contents = some d →
    slice bytes (offset doc k slot) slot.length = d.object.bytes

/-- The state of a session stands for the slots. -/
structure Session.Holds (s : Session p) (doc : List (Slot p)) : Prop where
  good : s.blob.Good
  size_eq : s.blob.size = finish doc
  stored : Stored s.blob.bytes doc
  length_eq : s.offsets.length = doc.length
  offsets : ∀ k slot, doc[k]? = some slot → slot.reserved = true →
    s.offsets[k]? = some (offset doc k slot)

theorem offset_append_of_lt {doc : List (Slot p)} {k : ℕ} (slot slot' : Slot p)
    (h : k < doc.length) :
  offset (doc ++ [slot']) k slot = offset doc k slot
  := by
  rw [offset, List.take_append_of_le_length (Nat.le_of_lt h), ← offset]

theorem offset_append_last (doc : List (Slot p)) (slot slot' : Slot p) :
  offset (doc ++ [slot']) doc.length slot = slot.start (finish doc)
  := by
  rw [offset, List.take_left]

/-- Another slot at the end. -/
theorem Session.Holds.append {s : Session p} {doc : List (Slot p)} (h : s.Holds doc)
    {blob' : Blob p} {slot : Slot p} {pos : ℕ} (extends' : blob'.Extends s.blob)
    (hsize : blob'.size = slot.start s.blob.size + slot.length)
    (hpos : slot.reserved = true → pos = slot.start s.blob.size)
    (stored : ∀ d, slot.contents = some d →
      slice blob'.bytes (slot.start s.blob.size) slot.length = d.object.bytes) :
  Session.Holds ⟨blob', s.offsets ++ [pos]⟩ (doc ++ [slot])
  := by
  rw [h.size_eq] at hsize hpos stored
  refine ⟨extends'.good, ?_, ?_, ?_, ?_⟩
  · rw [finish_append_singleton]
    exact hsize
  · intro k slot' d found holds
    rw [List.getElem?_append] at found
    split at found
    · rename_i old
      have inside : offset doc k slot' + slot'.length ≤ s.blob.size := by
        rw [h.size_eq]
        exact offset_add_length_le found
      rw [offset_append_of_lt _ _ old, extends'.slice_eq inside]
      exact h.stored k slot' d found holds
    · obtain ⟨last, rfl⟩ := List.getElem?_eq_some_iff.1 found
      have eq : k = doc.length := by
        rw [List.length_singleton] at last
        omega
      subst eq
      simp only [Nat.sub_self, List.getElem_singleton] at holds ⊢
      rw [offset_append_last]
      exact stored d holds
  · simp [h.length_eq]
  · intro k slot' found reserved
    rw [List.getElem?_append] at found
    split at found
    · rename_i old
      rw [List.getElem?_append_left (by rw [h.length_eq]; exact old), offset_append_of_lt _ _ old]
      exact h.offsets k slot' found reserved
    · obtain ⟨last, rfl⟩ := List.getElem?_eq_some_iff.1 found
      have eq : k = doc.length := by
        rw [List.length_singleton] at last
        omega
      subst eq
      simp only [Nat.sub_self, List.getElem_singleton] at reserved ⊢
      rw [offset_append_last, ← hpos reserved, ← h.length_eq]
      simp

theorem map_shape_set {doc : List (Slot p)} {k : ℕ} {slot : Slot p} (found : doc[k]? = some slot)
    (contents : Option (Datum p)) :
  (doc.set k { slot with contents := contents }).map (fun s => (s.call, s.length))
    = doc.map (fun s => (s.call, s.length))
  := by
  apply List.ext_getElem?
  intro i
  rw [List.getElem?_map, List.getElem?_map, List.getElem?_set]
  split
  · rename_i eq
    subst eq
    rw [found, if_pos (List.getElem?_eq_some_iff.1 found).1]
    rfl
  · rfl

/-- A slot starts where it did before another one was filled. -/
theorem offset_set {doc : List (Slot p)} {k : ℕ} {slot : Slot p} (found : doc[k]? = some slot)
    (contents : Option (Datum p)) (i : ℕ) (slot' : Slot p) :
  offset (doc.set k { slot with contents := contents }) i slot' = offset doc i slot'
  := by
  rw [offset, offset]
  congr 1
  apply finish_congr
  rw [List.map_take, map_shape_set found, ← List.map_take]

/-- A reservation that is filled. -/
theorem Session.Holds.fill {s : Session p} {doc : List (Slot p)} (h : s.Holds doc)
    {blob' : Blob p} {k : ℕ} {slot : Slot p} {d : Datum p} (found : doc[k]? = some slot)
    (hlength : d.object.length = slot.length) (good : blob'.Good)
    (hsize : blob'.size = s.blob.size)
    (hbytes : blob'.bytes = patch s.blob.bytes (offset doc k slot) d.object.bytes) :
  Session.Holds { s with blob := blob' } (doc.set k { slot with contents := some d })
  := by
  have fits : offset doc k slot + d.object.bytes.length ≤ s.blob.bytes.length := by
    have := offset_add_length_le found
    have := h.size_eq
    have := h.good.size_le
    have := h.good.allocated_eq
    rw [Object.length] at hlength
    omega
  refine ⟨good, ?_, ?_, ?_, ?_⟩
  · rw [hsize, h.size_eq]
    exact finish_congr (map_shape_set found _).symm
  · intro i slot' d' found' holds
    rw [offset_set found, hbytes]
    rw [List.getElem?_set] at found'
    split at found'
    · rename_i eq
      subst eq
      rw [if_pos (List.getElem?_eq_some_iff.1 found).1] at found'
      obtain rfl := Option.some.inj found'
      obtain rfl := Option.some.inj holds
      change slice _ (offset doc k slot) slot.length = _
      rw [← hlength]
      exact slice_patch_self fits
    · rename_i other
      rw [slice_patch_apart fits]
      · exact h.stored i slot' d' found' holds
      · change _ ∨ _ + d.object.length ≤ _
        rw [hlength]
        rcases Nat.lt_or_gt_of_ne other with before | after
        · right
          exact offset_add_length_le_offset found before
        · left
          exact offset_add_length_le_offset found' after
  · rw [List.length_set]
    exact h.length_eq
  · intro i slot' found' reserved
    rw [offset_set found]
    rw [List.getElem?_set] at found'
    split at found'
    · rename_i eq
      subst eq
      rw [if_pos (List.getElem?_eq_some_iff.1 found).1] at found'
      obtain rfl := Option.some.inj found'
      exact h.offsets k slot found reserved
    · exact h.offsets i slot' found' reserved

/-! ### Every call keeps it -/

/-- Where it succeeds, the write of a datum appends its slot. -/
theorem writeDatum_spec {mem : Realloc p} {blob blob' : Blob p} {d : Datum p} (good : blob.Good)
    (wrote : writeDatum mem blob d = some (true, blob')) :
  blob'.Extends blob ∧ blob'.size = d.slot.start blob.size + d.slot.length
    ∧ slice blob'.bytes (d.slot.start blob.size) d.slot.length = d.object.bytes
  := by
  have ptr : 0 < p.ptrBytes := ReadCall.alignment_pos (p := p) .intptr
  cases d with
  | bytes o copy =>
    have start : (Datum.bytes o copy).slot.start blob.size = blob.size := by
      cases copy <;> apply alignUp_one
    rw [start]
    exact blobWriteBytes_spec good wrote
  | uint32 v =>
    have length : (Datum.uint32 v : Datum p).slot.length = 4 := length_wordBytes _ _ _
    rw [length]
    exact blobWriteWord_spec good (Nat.succ_pos 3) wrote
  | uint64 v =>
    have length : (Datum.uint64 v : Datum p).slot.length = 8 := length_wordBytes _ _ _
    rw [length]
    exact blobWriteWord_spec good (Nat.succ_pos 7) wrote
  | intptr v =>
    have length : (Datum.intptr v : Datum p).slot.length = p.ptrBytes := length_wordBytes _ _ _
    rw [length]
    exact blobWriteWord_spec good ptr wrote
  | string str =>
    have start : (Datum.string str).slot.start blob.size = blob.size := alignUp_one _
    rw [start]
    exact blobWriteBytes_spec good wrote

/-- Where it succeeds, an overwrite puts the bytes where it is told to. -/
theorem overwriteDatum_spec {blob blob' : Blob p} {pos : ℕ} {d : Datum p} (good : blob.Good)
    (fits : pos + d.object.length ≤ blob.size)
    (overwrote : overwriteDatum blob pos d = some (true, blob')) :
  blob'.Good ∧ blob'.size = blob.size ∧ blob'.bytes = patch blob.bytes pos d.object.bytes
  := by
  cases d with
  | bytes o copy => exact blobOverwriteBytes_spec good fits overwrote
  | uint32 v =>
    simp only [overwriteDatum, blobOverwriteUint32, blobOverwriteWord] at overwrote
    split at overwrote
    · exact blobOverwriteBytes_spec good fits overwrote
    · contradiction
  | intptr v =>
    simp only [overwriteDatum, blobOverwriteIntptr, blobOverwriteWord] at overwrote
    split at overwrote
    · exact blobOverwriteBytes_spec good fits overwrote
    · contradiction
  | uint64 v => contradiction
  | string str => contradiction

/-- A write that succeeds. -/
theorem Session.wrote_eq_some {s s' : Session p} {r : Bool × Blob p} (h : s.wrote r = some s') :
  r = (true, s'.blob) ∧ s' = ⟨s'.blob, s.offsets ++ [noOffset p]⟩
  := by
  rcases r with ⟨_ | _, blob⟩
  · contradiction
  · obtain rfl := Option.some.inj h
    exact ⟨rfl, rfl⟩

/-- A reservation that succeeds. -/
theorem Session.reserved_eq_some {s s' : Session p} {r : ℕ × Blob p}
    (h : s.reserved r = some s') :
  r.1 ≠ noOffset p ∧ s' = ⟨r.2, s.offsets ++ [r.1]⟩
  := by
  rw [reserved] at h
  split at h
  · contradiction
  · exact ⟨by assumption, (Option.some.inj h).symm⟩

/-- A session that reserves the bytes of a word. -/
theorem Session.Holds.reserve {s s' : Session p} {doc : List (Slot p)} (h : s.Holds doc)
    {c : ReadCall} {n pos : ℕ} {blob' : Blob p} (extends' : blob'.Extends s.blob)
    (hsize : blob'.size = alignUp s.blob.size (c.alignment p) + n)
    (hpos : pos = alignUp s.blob.size (c.alignment p))
    (hs : s' = ⟨blob', s.offsets ++ [pos]⟩) :
  s'.Holds (doc ++ [reservation c n])
  := by
  subst hs
  have start : (reservation c n : Slot p).start s.blob.size = pos := hpos.symm
  apply h.append extends' (start ▸ hpos ▸ hsize) (fun _ => start.symm)
  rintro _ ⟨⟩

/-- A call that succeeds does what it means. -/
theorem Session.Holds.step {mem : Realloc p} {s s' : Session p} {doc doc' : List (Slot p)}
    {c : WriteCall p} (h : s.Holds doc) (proper : ∀ slot ∈ doc, slot.Proper)
    (small : ∀ n copy, c = .reserveBytes n copy → n < p.objectBound)
    (meaning : c.slots doc = some doc') (stepped : s.step mem c = some s') :
  s'.Holds doc'
  := by
  have ptr : 0 < p.ptrBytes := ReadCall.alignment_pos (p := p) .intptr
  cases c with
  | write d =>
    obtain ⟨r, wrote, kept⟩ := Option.bind_eq_some_iff.1 stepped
    obtain ⟨rfl, hs⟩ := wrote_eq_some kept
    obtain ⟨extends', hsize, stored⟩ := writeDatum_spec h.good wrote
    rw [← Option.some.inj meaning, hs]
    apply h.append extends' hsize
    · rintro ⟨⟩
    · rintro _ ⟨⟩
      exact stored
  | reserveBytes n copy =>
    rcases reserved : blobReserveBytes mem s.blob n with ⟨pos, blob'⟩
    rw [Session.step, reserved] at stepped
    obtain ⟨success, hs⟩ := reserved_eq_some stepped
    obtain ⟨extends', hsize, hpos⟩ := blobReserveBytes_spec h.good (small n copy rfl) reserved success
    have one : (bytesCall n copy).alignment p = 1 := by
      cases copy <;> rfl
    rw [← Option.some.inj meaning]
    apply h.reserve extends' _ _ hs
    · rw [one, alignUp_one, hsize]
    · rw [one, alignUp_one, hpos]
  | reserveUint32 =>
    obtain ⟨⟨pos, blob'⟩, reserved, kept⟩ := Option.bind_eq_some_iff.1 stepped
    obtain ⟨success, hs⟩ := reserved_eq_some kept
    obtain ⟨extends', hsize, hpos⟩ :=
      blobReserveWord_spec h.good (by decide) (by decide) reserved success
    rw [← Option.some.inj meaning]
    exact h.reserve extends' hsize hpos hs
  | reserveIntptr =>
    obtain ⟨⟨pos, blob'⟩, reserved, kept⟩ := Option.bind_eq_some_iff.1 stepped
    obtain ⟨success, hs⟩ := reserved_eq_some kept
    obtain ⟨extends', hsize, hpos⟩ := blobReserveWord_spec h.good ptr p.ptrBytes_le reserved success
    rw [← Option.some.inj meaning]
    exact h.reserve extends' hsize hpos hs
  | overwrite k d =>
    obtain ⟨slot, found, reserved, call_eq, rfl⟩ := slots_overwrite meaning
    have hlength := (proper slot (List.mem_of_getElem? found)).reserved_length reserved d call_eq.symm
    have fits : offset doc k slot + d.object.length ≤ s.blob.size := by
      rw [hlength, h.size_eq]
      exact offset_add_length_le found
    simp only [Session.step, h.offsets k slot found reserved, Option.bind_eq_bind,
      Option.bind_some, Option.bind_eq_some_iff] at stepped
    obtain ⟨⟨_ | _, blob'⟩, overwrote, kept⟩ := stepped
    · contradiction
    · obtain rfl := Option.some.inj kept
      obtain ⟨good, hsize, hbytes⟩ := overwriteDatum_spec h.good fits overwrote
      exact h.fill found hlength good hsize hbytes

/-- A script that succeeds does what it means. -/
theorem Session.Holds.run {s s' : Session p} {script : List (Realloc p × WriteCall p)}
    {doc doc' : List (Slot p)} (h : s.Holds doc) (proper : ∀ slot ∈ doc, slot.Proper)
    (small : ∀ c ∈ script, ∀ n copy, c.2 = .reserveBytes n copy → n < p.objectBound)
    (meaning : slotsOf doc (script.map Prod.snd) = some doc') (ran : s.run script = some s') :
  s'.Holds doc'
  := by
  induction script generalizing s doc with
  | nil =>
    obtain rfl := Option.some.inj meaning
    obtain rfl := Option.some.inj ran
    exact h
  | cons c script ih =>
    obtain ⟨doc₁, meaning₁, meaning⟩ := Option.bind_eq_some_iff.1 meaning
    obtain ⟨s₁, stepped, ran⟩ := Option.bind_eq_some_iff.1 ran
    have h₁ := h.step proper (small c List.mem_cons_self) meaning₁ stepped
    apply ih h₁ (WriteCall.slots_proper meaning₁ proper) _ meaning ran
    intro c' mem
    exact small c' (List.mem_cons_of_mem _ mem)

theorem slotsOf_proper {script : List (WriteCall p)} {doc doc' : List (Slot p)}
    (meaning : slotsOf doc script = some doc') (proper : ∀ slot ∈ doc, slot.Proper) :
  ∀ slot ∈ doc', slot.Proper
  := by
  induction script generalizing doc with
  | nil =>
    obtain rfl := Option.some.inj meaning
    exact proper
  | cons c script ih =>
    obtain ⟨doc₁, meaning₁, meaning⟩ := Option.bind_eq_some_iff.1 meaning
    exact ih meaning (WriteCall.slots_proper meaning₁ proper)

/-- A call leaves the lengths of the slots that there are. -/
theorem WriteCall.slots_lengths {doc doc' : List (Slot p)} {c : WriteCall p}
    (meaning : c.slots doc = some doc') :
  doc.map Slot.length <+: doc'.map Slot.length
  := by
  cases c with
  | overwrite k d =>
    obtain ⟨slot, found, -, -, rfl⟩ := slots_overwrite meaning
    have same := congrArg (List.map Prod.snd) (map_shape_set found (some d))
    simp only [List.map_map, Function.comp_def] at same
    exact same ▸ List.prefix_refl _
  | _ =>
    rw [← Option.some.inj meaning, List.map_append]
    apply List.prefix_append

theorem slotsOf_lengths {script : List (WriteCall p)} {doc doc' : List (Slot p)}
    (meaning : slotsOf doc script = some doc') :
  doc.map Slot.length <+: doc'.map Slot.length
  := by
  induction script generalizing doc with
  | nil =>
    obtain rfl := Option.some.inj meaning
    exact List.prefix_refl _
  | cons c script ih =>
    obtain ⟨doc₁, meaning₁, meaning⟩ := Option.bind_eq_some_iff.1 meaning
    exact (WriteCall.slots_lengths meaning₁).trans (ih meaning)

/-- There is a slot for each reservation. -/
theorem slotsOf_reserved {script : List (WriteCall p)} {doc doc' : List (Slot p)} {n : ℕ}
    {copy : Bool} (meaning : slotsOf doc script = some doc')
    (mem : WriteCall.reserveBytes n copy ∈ script) :
  ∃ slot ∈ doc', slot.length = n
  := by
  induction script generalizing doc with
  | nil => cases mem
  | cons c script ih =>
    obtain ⟨doc₁, meaning₁, meaning₂⟩ := Option.bind_eq_some_iff.1 meaning
    rcases List.mem_cons.1 mem with rfl | mem
    · have first : n ∈ doc₁.map Slot.length := by
        rw [← Option.some.inj meaning₁]
        simp [reservation]
      have last := (slotsOf_lengths meaning₂).subset first
      simpa using last
    · exact ih meaning₂ mem

/-! ### Reading the slots -/

/-- A string is not too long where its length with the zero is an `int`. -/
def Datum.Short : Datum p → Prop
  | string s => s.chars.length + 1 < 2 ^ 31
  | _ => True

theorem ofWordBytes_wordObject {k : ℕ} {hk : k ≤ 8} (v : BitVec (8 * k)) :
  BitVec.ofNat (8 * k) (ofWordBytes p.bigEndian (wordObject p k hk v).bytes) = v
  := by
  have eq : ofWordBytes p.bigEndian (wordObject p k hk v).bytes = v.toNat := by
    rw [wordObject, ofWordBytes_wordBytes, show 256 = 2 ^ 8 from rfl, ← pow_mul]
    exact Nat.mod_eq_of_lt v.isLt
  rw [eq, BitVec.ofNat_toNat, BitVec.setWidth_eq]

/-- The zero that ends a string is the first one. -/
theorem nul_of_string {blob : BlobReader p} {str : CString p}
    (h : slice blob.data.bytes blob.current str.object.length = str.object.bytes) :
  blob.nul = some str.chars.length
  := by
  have split : blob.data.bytes.drop blob.current
      = str.chars ++ 0 :: (blob.data.bytes.drop blob.current).drop str.object.length := by
    conv_lhs => rw [← List.take_append_drop str.object.length (blob.data.bytes.drop blob.current)]
    rw [slice] at h
    rw [h, CString.object, List.append_assoc, List.singleton_append]
  have clean : str.chars.findIdx? (fun b => decide (b = 0)) = none := by
    rw [List.findIdx?_eq_none_iff]
    intro b mem
    rw [decide_eq_false_iff_not]
    rintro rfl
    exact str.noNul mem
  rw [BlobReader.nul, split, List.findIdx?_append, clean, List.findIdx?_cons]
  simp

theorem ReadCall.start_bytesCall (pos n : ℕ) (copy : Bool) :
  alignUp pos ((bytesCall n copy).alignment p) = pos
  := by
  cases copy <;> apply alignUp_one

/-- The reading of an aligned word that is stored. -/
theorem blobReadWord_stored {blob : BlobReader p} {k : ℕ} (hk : k ≤ 8) {v : BitVec (8 * k)}
    (clean : blob.overrun = false) (hk' : 0 < k) (inside : alignUp blob.current k < blob.data.length)
    (fits : alignUp blob.current k + k ≤ blob.data.length)
    (stored : slice blob.data.bytes (alignUp blob.current k) k = (wordObject p k hk v).bytes) :
  blobReadWord k blob = some (v, { blob with current := alignUp blob.current k + k })
  := by
  have up := le_alignUp blob.current hk'
  have bound : blob.data.length < p.objectBound := blob.data.bound
  have aligned : align p blob.current k = alignUp blob.current k := by
    apply align_eq _ hk
    omega
  rw [blobReadWord_of_fits clean aligned inside fits, stored, ofWordBytes_wordObject]

/-- A datum that is stored is read back. -/
theorem BlobReader.call_stored {blob : BlobReader p} {d : Datum p} {pos : ℕ}
    (clean : blob.overrun = false) (hpos : alignUp blob.current (d.call.alignment p) = pos)
    (inside : pos < blob.data.length) (fits : pos + d.object.length ≤ blob.data.length)
    (stored : slice blob.data.bytes pos d.object.length = d.object.bytes) (short : d.Short) :
  blob.call d.call = some (d.value, { blob with current := pos + d.object.length })
  := by
  subst hpos
  have ptr : 0 < p.ptrBytes := ReadCall.alignment_pos (p := p) .intptr
  cases d with
  | bytes o copy =>
    simp only [Datum.call, ReadCall.start_bytesCall, Datum.object] at inside fits stored ⊢
    have read := blobReadBytes_of_fits clean inside fits
    rw [stored] at read
    cases copy
    · simp [BlobReader.call, bytesCall, read, Datum.value]
    · simp [BlobReader.call, bytesCall, blobCopyBytes, read, Datum.value]
  | uint32 v =>
    have length : (Datum.uint32 v : Datum p).object.length = 4 := length_wordBytes _ _ _
    rw [length] at fits stored ⊢
    have read := blobReadWord_stored (k := 4) (by decide) clean (by decide) inside fits stored
    simp only [BlobReader.call, Datum.call, blobReadUint32, Datum.value]
    rw [show blobReadWord 4 blob = _ from read]
    rfl
  | uint64 v =>
    have length : (Datum.uint64 v : Datum p).object.length = 8 := length_wordBytes _ _ _
    rw [length] at fits stored ⊢
    have read := blobReadWord_stored (k := 8) (by decide) clean (by decide) inside fits stored
    simp only [BlobReader.call, Datum.call, blobReadUint64, Datum.value]
    rw [show blobReadWord 8 blob = _ from read]
    rfl
  | intptr v =>
    have length : (Datum.intptr v : Datum p).object.length = p.ptrBytes := length_wordBytes _ _ _
    rw [length] at fits stored ⊢
    have read := blobReadWord_stored p.ptrBytes_le clean ptr inside fits stored
    simp only [BlobReader.call, Datum.call, blobReadIntptr, Datum.value]
    rw [show blobReadWord p.ptrBytes blob = _ from read]
    rfl
  | string str =>
    have start : alignUp blob.current ((Datum.string str).call.alignment p) = blob.current :=
      alignUp_one _
    rw [start] at inside fits stored ⊢
    have length : str.object.length = str.chars.length + 1 := by
      simp [CString.object, Object.length]
    have below : str.chars.length + 1 < 2 ^ 31 := short
    have noWrap : (str.chars.length + 1) % 2 ^ 32 = str.chars.length + 1 := by
      apply Nat.mod_eq_of_lt
      omega
    have chars : slice blob.data.bytes blob.current str.chars.length = str.chars := by
      have cut := congrArg (List.take str.chars.length) stored
      simp only [Datum.object, slice, List.take_take, length] at cut
      rw [Nat.min_eq_left (Nat.le_succ _)] at cut
      rw [slice, cut, CString.object, List.take_left]
    have read := blobReadString_of_nul (nul_of_string stored) clean (by rw [noWrap]; exact below)
    rw [noWrap, chars, ← length] at read
    simp [BlobReader.call, Datum.call, read, Datum.value, Datum.object]

/-! ### Reading a document -/

/-- What the slots hold, as the reader has to return it. -/
def values (doc : List (Slot p)) : List (Value p) :=
  doc.filterMap fun slot => slot.contents.map Datum.value

/-- There are no slots, or the last one is not empty. -/
def EndsFull (doc : List (Slot p)) : Prop := ∀ slot, doc.getLast? = some slot → 0 < slot.length

/-- All slots hold something, and no string is too long. -/
structure Filled (doc : List (Slot p)) : Prop where
  proper : ∀ slot ∈ doc, slot.Proper
  filled : ∀ slot ∈ doc, slot.contents.isSome = true
  short : ∀ slot ∈ doc, ∀ d, slot.contents = some d → d.Short

theorem Filled.datum {doc : List (Slot p)} (h : Filled doc) {slot : Slot p} (mem : slot ∈ doc) :
  ∃ d, slot.contents = some d ∧ slot.call = d.call ∧ slot.length = d.object.length ∧ d.Short
  := by
  obtain ⟨d, holds⟩ := Option.isSome_iff_exists.1 (h.filled slot mem)
  have proper := h.proper slot mem
  exact ⟨d, holds, (proper.call_eq d holds).symm, (proper.length_eq d holds).symm,
    h.short slot mem d holds⟩

theorem Filled.of_append {doc doc' : List (Slot p)} (h : Filled (doc ++ doc')) :
  Filled doc
  where
  proper := fun slot mem => h.proper slot (List.mem_append_left _ mem)
  filled := fun slot mem => h.filled slot (List.mem_append_left _ mem)
  short := fun slot mem => h.short slot (List.mem_append_left _ mem)

/-- Where the last slot is not empty, every slot starts before the end. -/
theorem EndsFull.offset_lt {doc : List (Slot p)} (h : EndsFull doc) {k : ℕ} {slot : Slot p}
    (found : doc[k]? = some slot) :
  offset doc k slot < finish doc
  := by
  obtain ⟨hk, -⟩ := List.getElem?_eq_some_iff.1 found
  have last : doc[doc.length - 1]? = some doc[doc.length - 1] := List.getElem?_eq_getElem _
  have full := h doc[doc.length - 1] (by rw [List.getLast?_eq_getElem?, last])
  have inside := offset_add_length_le last
  rcases Nat.lt_or_ge k (doc.length - 1) with before | atEnd
  · have apart : offset doc k slot + slot.length
        ≤ offset doc (doc.length - 1) doc[doc.length - 1] :=
      offset_add_length_le_offset found before
    omega
  · have eq : k = doc.length - 1 := by omega
    subst eq
    obtain rfl := Option.some.inj (last.symm.trans found)
    omega

theorem Stored.of_append {bytes : List UInt8} {doc doc' : List (Slot p)}
    (h : Stored bytes (doc ++ doc')) :
  Stored bytes doc
  := by
  intro k slot d found holds
  have hk := (List.getElem?_eq_some_iff.1 found).1
  have whole : (doc ++ doc')[k]? = some slot := by
    rw [List.getElem?_append_left hk, found]
  have same : offset (doc ++ doc') k slot = offset doc k slot := by
    rw [offset, List.take_append_of_le_length (Nat.le_of_lt hk), ← offset]
  rw [← same]
  exact h k slot d whole holds

/-- The slots from the given one on are read back. -/
theorem run_slots {data : Object p} {doc : List (Slot p)} (filled : Filled doc)
    (full : EndsFull doc) (stored : Stored data.bytes doc) (hlength : data.length = finish doc)
    (before after : List (Slot p)) (split : doc = before ++ after) :
  BlobReader.run ⟨data, finish before, false⟩ (after.map Slot.call)
    = some (values after, ⟨data, finish doc, false⟩)
  := by
  induction after generalizing before with
  | nil => rw [split, List.append_nil]; rfl
  | cons slot after ih =>
    have found : doc[before.length]? = some slot := by
      rw [split, List.getElem?_append_right (Nat.le_refl _), Nat.sub_self]
      rfl
    have start : offset doc before.length slot = slot.start (finish before) := by
      rw [offset, split, List.take_left]
    obtain ⟨d, holds, call_eq, length_eq, short⟩ := filled.datum (List.mem_of_getElem? found)
    have inside := full.offset_lt found
    have fits := offset_add_length_le found
    have here := stored before.length slot d found holds
    rw [← hlength, start] at inside fits
    rw [start, length_eq] at here
    rw [length_eq] at fits
    have called : BlobReader.call ⟨data, finish before, false⟩ slot.call
        = some (d.value, ⟨data, slot.start (finish before) + d.object.length, false⟩) := by
      rw [call_eq]
      exact BlobReader.call_stored rfl (by rw [Slot.start, call_eq]) inside fits here short
    have next := ih (before ++ [slot]) (by rw [split, List.append_assoc]; rfl)
    rw [finish_append_singleton, length_eq] at next
    rw [List.map_cons, BlobReader.run_cons_of_call called, next]
    simp [values, holds]

/-- Only bytes can be empty. -/
theorem Filled.call_of_empty {doc : List (Slot p)} (h : Filled doc) {slot : Slot p}
    (mem : slot ∈ doc) (empty : slot.length = 0) :
  ∃ copy, slot.call = bytesCall 0 copy
  := by
  obtain ⟨d, -, call_eq, length_eq, -⟩ := h.datum mem
  rw [empty] at length_eq
  rw [call_eq]
  have ptr : 0 < p.ptrBytes := ReadCall.alignment_pos (p := p) .intptr
  cases d with
  | bytes o copy =>
    use copy
    simp only [Datum.call]
    rw [show o.length = 0 from length_eq.symm]
  | string str => simp [Datum.object, CString.object, Object.length] at length_eq
  | _ =>
    simp only [Datum.object, wordObject, Object.length, length_wordBytes] at length_eq
    omega

/-- Slots that end with an empty one: from some slot on they are all empty. -/
theorem Filled.exists_empty {doc : List (Slot p)} (h : Filled doc) (notFull : ¬ EndsFull doc) :
  ∃ full slot empty, doc = full ++ slot :: empty ∧ EndsFull full ∧ slot.length = 0
    ∧ finish doc = finish full
  := by
  induction doc using List.reverseRec with
  | nil =>
    exfalso
    apply notFull
    rintro _ ⟨⟩
  | append_singleton doc slot ih =>
    have zero : slot.length = 0 := by
      simp only [EndsFull, not_forall] at notFull
      obtain ⟨slot', last, empty⟩ := notFull
      rw [List.getLast?_concat] at last
      obtain rfl := Option.some.inj last
      omega
    obtain ⟨copy, call_eq⟩ := h.call_of_empty (List.mem_append_right _ List.mem_cons_self) zero
    have same : finish (doc ++ [slot]) = finish doc := by
      rw [finish_append_singleton, zero, Slot.start, call_eq, ReadCall.start_bytesCall,
        Nat.add_zero]
    rcases Classical.em (EndsFull doc) with full | notFull'
    · exact ⟨doc, slot, [], rfl, full, zero, same⟩
    · obtain ⟨full, slot', empty, rfl, isFull, zero', same'⟩ := ih h.of_append notFull'
      refine ⟨full, slot', empty ++ [slot], by simp, isFull, zero', same.trans same'⟩

/-- The reading of nothing at the end of the data is an overrun. -/
theorem BlobReader.call_empty_at_end (data : Object p) (copy : Bool) :
  ∃ v, BlobReader.call ⟨data, data.length, false⟩ (bytesCall 0 copy)
    = some (v, ⟨data, data.length, true⟩)
  := by
  have can : ensureCanRead ⟨data, data.length, false⟩ 0 = (false, ⟨data, data.length, true⟩) := by
    rw [ensureCanRead, if_neg (by simp), if_neg (by simp)]
  have read : blobReadBytes ⟨data, data.length, false⟩ 0
      = some (none, ⟨data, data.length, true⟩) := blobReadBytes_of_overrun can
  cases copy
  · exact ⟨.bytes none, by simp [BlobReader.call, bytesCall, read]⟩
  · exact ⟨.copied none, by simp [BlobReader.call, bytesCall, blobCopyBytes, read]⟩

/-- The slots are read back from the start, without an overrun. -/
def ReadsBack (data : Object p) (doc : List (Slot p)) : Prop :=
  ∃ blob, (blobReaderInit data).run (doc.map Slot.call) = some (values doc, blob)
    ∧ blob.overrun = false

/-- The slots are read back exactly when the last one is not empty. -/
theorem readsBack_iff {data : Object p} {doc : List (Slot p)} (filled : Filled doc)
    (stored : Stored data.bytes doc) (hlength : data.length = finish doc) :
  ReadsBack data doc ↔ EndsFull doc
  := by
  constructor
  · rintro ⟨blob, ran, clean⟩
    by_contra notFull
    obtain ⟨full, slot, empty, rfl, isFull, zero, same⟩ := filled.exists_empty notFull
    rw [same] at hlength
    have first : (blobReaderInit data).run (full.map Slot.call)
        = some (values full, ⟨data, data.length, false⟩) := by
      rw [hlength]
      exact run_slots filled.of_append isFull stored.of_append hlength [] full rfl
    obtain ⟨copy, call_eq⟩ := filled.call_of_empty (by simp) zero
    obtain ⟨v, called⟩ := BlobReader.call_empty_at_end data copy
    rw [List.map_append, List.map_cons, BlobReader.run_append, first, Option.bind_some, call_eq,
      BlobReader.run_cons_of_call called, Option.map_map, Option.map_eq_some_iff] at ran
    obtain ⟨⟨vs, blob'⟩, rest, eq⟩ := ran
    obtain rfl : blob' = blob := (Prod.mk.inj eq).2
    rw [(BlobReader.run_of_overrun rfl rest).2] at clean
    contradiction
  · intro full
    exact ⟨_, run_slots filled full stored hlength [] doc rfl, rfl⟩

/-! ### Round trips and untrusted data -/

/-- A blob before anything is written to it. -/
def Fresh (blob : Blob p) : Prop := blob = blobInit p ∨ ∃ data, blob = blobInitFixed data

theorem Fresh.holds {blob : Blob p} (h : Fresh blob) :
  Session.Holds ⟨blob, []⟩ []
  := by
  have good : blob.Good ∧ blob.size = 0 := by
    rcases h with rfl | ⟨data, rfl⟩
    · exact ⟨⟨rfl, Nat.le_refl 0, rfl⟩, rfl⟩
    · exact ⟨⟨rfl, Nat.zero_le _, rfl⟩, rfl⟩
  refine ⟨good.1, good.2, ?_, rfl, ?_⟩
  · intro k slot d found
    simp at found
  · intro k slot found
    simp at found

/-- The data of a session stands for the slots. -/
theorem Session.Holds.contents {s : Session p} {doc : List (Slot p)} (h : s.Holds doc) :
  Stored s.blob.contents.bytes doc ∧ s.blob.contents.length = finish doc
  := by
  have hle := h.good.size_le
  have hallocated := h.good.allocated_eq
  constructor
  · intro k slot d found holds
    have inside := offset_add_length_le found
    rw [← h.size_eq] at inside
    rw [Blob.contents, slice_take inside]
    exact h.stored k slot d found holds
  · rw [← h.size_eq]
    simp only [Blob.contents, Object.length, List.length_take]
    omega

/-- What a script writes stands for its slots, when all of them are filled. -/
theorem Session.holds_of_run {blob : Blob p} {s : Session p}
    {script : List (Realloc p × WriteCall p)} {doc : List (Slot p)} (fresh : Fresh blob)
    (meaning : slotsOf [] (script.map Prod.snd) = some doc) (filled : Filled doc)
    (ran : Session.run ⟨blob, []⟩ script = some s) :
  s.Holds doc
  := by
  apply fresh.holds.run (by simp) _ meaning ran
  intro c mem n copy eq
  have mem' : WriteCall.reserveBytes n copy ∈ script.map Prod.snd := by
    rw [← eq]
    exact List.mem_map_of_mem mem
  obtain ⟨slot, mem'', rfl⟩ := slotsOf_reserved meaning mem'
  obtain ⟨d, -, -, length_eq, -⟩ := filled.datum mem''
  rw [length_eq]
  exact d.object.bound

/-- What is written by calls that all succeed is read back without an overrun exactly when the last
part that was written is not empty, as long as the strings are not too long; and whatever the data
is, calls of the reader are safe exactly when no string is read after an overrun while there is a
zero left, nor where the length of the string is negative as an `int`. -/
theorem blob_reads_back_and_reads_safely (p : Platform) :
  (∀ (blob : Blob p) (script : List (Realloc p × WriteCall p)) (s : Session p)
      (doc : List (Slot p)), Fresh blob → Session.run ⟨blob, []⟩ script = some s →
      slotsOf [] (script.map Prod.snd) = some doc →
      (∀ slot ∈ doc, slot.contents.isSome = true) →
      (∀ slot ∈ doc, ∀ d, slot.contents = some d → d.Short) →
      (ReadsBack s.blob.contents doc ↔ EndsFull doc))
    ∧ ∀ (data : Object p) (calls : List ReadCall),
      (blobReaderInit data).ReadsSafely calls ↔ (blobReaderInit data).AllSound calls
  := by
  constructor
  · intro blob script s doc fresh ran meaning filled short
    have full : Filled doc := ⟨slotsOf_proper meaning (by simp), filled, short⟩
    obtain ⟨stored, hlength⟩ := (Session.holds_of_run fresh meaning full ran).contents
    exact readsBack_iff full stored hlength
  · intro data calls
    exact BlobReader.readsSafely_iff _ _

/-- A platform with pointers of eight bytes, the lowest byte of a word first. -/
def x8664 : Platform := ⟨8, .inr rfl, false⟩

/-- An object of the given bytes. -/
def smallObject (bytes : List UInt8) (h : bytes.length < 256) : Object x8664 :=
  ⟨bytes, Nat.lt_of_lt_of_le h (by decide)⟩

/-- A buffer of eight bytes. -/
def smallBlob : Blob x8664 := blobInitFixed (smallObject (List.replicate 8 255) (by decide))

/-- No memory is left. -/
def exhausted : Realloc x8664 where
  realloc := fun _ _ => none
  length_eq := by
    rintro _ _ _ ⟨⟩
  keeps := by
    rintro _ _ _ _ ⟨⟩

/-- The bytes `A` and zero. -/
def letterA : Object x8664 := smallObject [65, 0] (by decide)

/-- A byte, and a word that is reserved and then overwritten. -/
def smallScript : List (Realloc x8664 × WriteCall x8664) :=
  [(exhausted, .write (.bytes (smallObject [7] (by decide)) false)), (exhausted, .reserveUint32),
    (exhausted, .overwrite 1 (.uint32 258))]

/-- The slots of the script. -/
def smallSlots : List (Slot x8664) :=
  [(Datum.bytes (smallObject [7] (by decide)) false).slot,
    ⟨.uint32, 4, some (.uint32 258), true⟩]

theorem blob_reads_back_small :
  (∃ s, Session.run ⟨smallBlob, []⟩ smallScript = some s
      ∧ s.blob.contents.bytes = [7, 0, 0, 0, 2, 1, 0, 0] ∧ ReadsBack s.blob.contents smallSlots)
    ∧ (blobReaderInit letterA).ReadsSafely [.bytes 3, .uint32]
  := by
  constructor
  · refine ⟨⟨⟨some ⟨[7, 0, 0, 0, 2, 1, 0, 0], by decide⟩, 8, 8, true, false⟩,
      [noOffset x8664, 4]⟩, rfl, rfl, ?_⟩
    apply ((blob_reads_back_and_reads_safely x8664).1 smallBlob smallScript _ smallSlots
      (.inr ⟨_, rfl⟩) rfl rfl ?_ ?_).2
    · rintro slot ⟨⟩
      decide
    · simp [smallSlots, Datum.slot]
    · simp [smallSlots, Datum.slot, Datum.Short]
  · apply ((blob_reads_back_and_reads_safely x8664).2 letterA _).2
    intro before c after vs blob split ran eq
    subst eq
    have mem : ReadCall.string ∈ [ReadCall.bytes 3, ReadCall.uint32] := by
      rw [split]
      simp
    contradiction

/-- A string that is read after an overrun is taken from the data: the assertion of
`blob_read_string` fails.  An empty datum at the end is not read back. -/
theorem blob_reads_after_overrun :
  (¬ (blobReaderInit letterA).ReadsSafely [.bytes 3, .string])
    ∧ ∃ s, Session.run ⟨smallBlob, []⟩
        [(exhausted, .write (.bytes (smallObject [] (by decide)) false))] = some s
      ∧ ¬ ReadsBack s.blob.contents [(Datum.bytes (smallObject [] (by decide)) false).slot]
  := by
  constructor
  · rintro ⟨returns, -⟩
    have fails : (blobReaderInit letterA).run [.bytes 3, .string] = none := by decide
    rw [fails] at returns
    contradiction
  · refine ⟨⟨smallBlob, [noOffset x8664]⟩, rfl, ?_⟩
    rintro ⟨blob, ran, clean⟩
    have past : ((blobReaderInit smallBlob.contents).run [.bytes 0]).map (fun r => r.2.overrun)
        = some true := by decide
    rw [show [ReadCall.bytes 0]
      = [(Datum.bytes (smallObject [] (by decide)) false).slot].map Slot.call from rfl, ran,
      Option.map_some, clean] at past
    contradiction

end Compiler
