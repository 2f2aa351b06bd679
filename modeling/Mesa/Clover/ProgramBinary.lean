import Mesa.Clover.Module

/-!
# Programs from binaries

`clCreateProgramWithBinary`, in the build with the compiler bridge and in the one without it.  The
handles of the context and of the devices are valid, and the arrays have an entry for each device.
-/

namespace Clover

/-- The error codes that are used. -/
inductive Status where
  | success | invalidValue | invalidDevice | invalidBinary
deriving DecidableEq

/-- A device, as far as it matters here: whether it is one of the context, and whether it uses the
bridge to AMD binaries. -/
structure Device where
  inContext : Bool
  bridged : Bool

/-- The library that reads AMD binaries: whether some bytes are one, whether it can be opened, and
whether a module can be made from it.  Where it cannot, an exception is thrown. -/
structure Bridge where
  isAmdCL2Binary : List UInt8 → Bool
  opens : List UInt8 → Bool
  builds : List UInt8 → Bool

/-- What a program has for a device. -/
inductive Loaded where
  | module (m : Module)
  | amd (code : List UInt8)

/-- A device with its binary, and with what its deserialization finds in memory. -/
structure Input where
  env : Env
  device : Device
  binary : Option (List UInt8)

/-- The deserialization of a binary, with the handler around it. -/
def deserializeBinary (env : Env) (bytes : List UInt8) : Except Thrown (Status × Loaded) :=
  match Module.deserialize env (.ofBytes bytes) with
  | .ok (m, _) => .ok (.success, .module m)
  | .error .failure => .ok (.invalidBinary, .module .default)
  | .error e => .error e

/-- What is done for each device; there is no bridge in the build without it. -/
def loadBinary (bridge : Option Bridge) (input : Input) : Except Thrown (Status × Loaded) :=
  match input.binary with
  | none | some [] => .ok (.invalidValue, .module .default)
  | some bytes =>
    match bridge with
    | none => deserializeBinary input.env bytes
    | some b =>
      if input.device.bridged && b.isAmdCL2Binary bytes then
        if b.opens bytes then .ok (.success, .amd bytes) else .error .bridge
      else deserializeBinary input.env bytes

/-- What the call returns: the codes for the devices, the error code, and the program. -/
structure Reply where
  statuses : Option (List Status)
  errcode : Status
  program : Option (List Loaded)

/-- The constructor of a program throws where the bridge cannot make a module. -/
def makeProgram (bridge : Option Bridge) (binaries : List Loaded) : Except Thrown (List Loaded) :=
  binaries.mapM fun x =>
    match x, bridge with
    | .amd code, some b => if b.builds code then .ok x else .error .bridge
    | _, _ => .ok x

/-- The part of `clCreateProgramWithBinary` that comes after the deserialization. -/
def replyTo (bridge : Option Bridge) (result : List (Status × Loaded)) : Except Thrown Reply :=
  let statuses := result.map Prod.fst
  if statuses.any (· = .invalidValue) then .ok ⟨some statuses, .invalidValue, none⟩
  else if statuses.any (· = .invalidBinary) then .ok ⟨some statuses, .invalidBinary, none⟩
  else do
    let program ← makeProgram bridge (result.map Prod.snd)
    pure ⟨some statuses, .success, some program⟩

/-- `clCreateProgramWithBinary`; there may be no arrays `lengths` or `binaries`. -/
def clCreateProgramWithBinary (bridge : Option Bridge) (arrays : Bool) (inputs : List Input) :
    Except Thrown Reply :=
  if arrays = false then .ok ⟨none, .invalidValue, none⟩
  else if inputs.any fun input => !input.device.inContext then .ok ⟨none, .invalidDevice, none⟩
  else do
    let result ← inputs.mapM (loadBinary bridge)
    replyTo bridge result

/-! ### What is rejected -/

/-- Some bytes begin with all that is written for a module. -/
def BeginsWithModule (env : Env) (bytes : List UInt8) : Prop :=
  ∃ m rest, Module.Bounded m ∧ bytes = m.serialize env ++ rest

/-- The call says that the binary of a device is invalid, and makes no program. -/
def Rejects (bridge : Option Bridge) (arrays : Bool) (inputs : List Input) (i : ℕ) : Prop :=
  ∃ reply statuses, clCreateProgramWithBinary bridge arrays inputs = .ok reply
    ∧ reply.program = none ∧ reply.statuses = some statuses ∧ statuses[i]? = some .invalidBinary

/-- Deserialization throws nothing but for lack of memory. -/
theorem deserialize_silent (env : Env) (bytes : List UInt8) :
  Silent env (Module.deserialize env (.ofBytes bytes))
  := moduleSerializer_lawful.silent env .default _ rfl

/-- The handler is never reached. -/
theorem deserializeBinary_cases (env : Env) (bytes : List UInt8) :
  (∃ m, deserializeBinary env bytes = .ok (.success, .module m))
    ∨ (deserializeBinary env bytes = .error .badAlloc ∧ ¬ env.Ample)
  := by
  have silent := deserialize_silent env bytes
  rcases h : Module.deserialize env (.ofBytes bytes) with e | ⟨m, s⟩
  · rw [h] at silent
    obtain ⟨rfl, short⟩ := silent
    right
    exact ⟨by rw [deserializeBinary, h], short⟩
  · left
    exact ⟨m, by rw [deserializeBinary, h]⟩

theorem loadBinary_ne_invalidBinary {bridge : Option Bridge} {input : Input}
    {r : Status × Loaded} (h : loadBinary bridge input = .ok r) :
  r.1 ≠ .invalidBinary
  := by
  have deserialized : ∀ env bytes, deserializeBinary env bytes = .ok r → r.1 ≠ .invalidBinary := by
    intro env bytes h
    rcases deserializeBinary_cases env bytes with ⟨m, eq⟩ | ⟨eq, -⟩
    · rw [eq] at h
      obtain rfl := Except.ok.inj h
      exact Status.noConfusion
    · rw [eq] at h
      contradiction
  rw [loadBinary] at h
  split at h
  · obtain rfl := Except.ok.inj h
    decide
  · obtain rfl := Except.ok.inj h
    decide
  split at h
  · exact deserialized _ _ h
  split at h
  · split at h
    · obtain rfl := Except.ok.inj h
      exact Status.noConfusion
    · contradiction
  · exact deserialized _ _ h

/-- All results come from a function, where it throws nothing. -/
theorem forall_of_mapM {α β : Type} {f : α → Except Thrown β} {P : β → Prop}
    (h : ∀ a b, f a = .ok b → P b) {l : List α} {l' : List β} (mapped : l.mapM f = .ok l') :
  ∀ b ∈ l', P b
  := by
  induction l generalizing l' with
  | nil =>
    obtain rfl := Except.ok.inj mapped
    simp
  | cons a l ih =>
    rw [List.mapM_cons] at mapped
    rcases first : f a with e | b
    · rw [first] at mapped
      contradiction
    rcases others : l.mapM f with e | bs
    · rw [first, others] at mapped
      contradiction
    · rw [first, others] at mapped
      obtain rfl := Except.ok.inj mapped
      intro b' mem
      rcases List.mem_cons.1 mem with rfl | mem
      · exact h a _ first
      · exact ih others b' mem

/-- The codes of the devices are those of their binaries. -/
theorem statuses_of_replyTo {bridge : Option Bridge} {result : List (Status × Loaded)}
    {reply : Reply} (h : replyTo bridge result = .ok reply) :
  reply.statuses = some (result.map Prod.fst)
  := by
  rw [replyTo] at h
  split at h
  · obtain rfl := Except.ok.inj h
    rfl
  split at h
  · obtain rfl := Except.ok.inj h
    rfl
  rcases made : makeProgram bridge (result.map Prod.snd) with e | program
  · rw [made] at h
    contradiction
  · rw [made] at h
    obtain rfl := Except.ok.inj h
    rfl

/-- No binary is ever rejected as invalid. -/
theorem not_rejects (bridge : Option Bridge) (arrays : Bool) (inputs : List Input) (i : ℕ) :
  ¬ Rejects bridge arrays inputs i
  := by
  rintro ⟨reply, statuses, called, -, given, found⟩
  rw [clCreateProgramWithBinary] at called
  split at called
  · obtain rfl := Except.ok.inj called
    contradiction
  split at called
  · obtain rfl := Except.ok.inj called
    contradiction
  rcases loaded : inputs.mapM (loadBinary bridge) with e | result
  · rw [loaded] at called
    contradiction
  have valid := forall_of_mapM (fun _ _ => loadBinary_ne_invalidBinary) loaded
  rw [loaded] at called
  have same := (statuses_of_replyTo called).symm.trans given
  rw [← Option.some.inj same, List.getElem?_map, Option.map_eq_some_iff] at found
  obtain ⟨r, mem, eq⟩ := found
  exact valid r (List.mem_of_getElem? mem) eq

/-- What the deserialization of the only binary gives is made a program. -/
theorem create_of_deserialized {env : Env} {dev : Device} (inContext : dev.inContext = true)
    {bytes : List UInt8} (nonempty : bytes ≠ []) {m : Module}
    (h : deserializeBinary env bytes = .ok (.success, .module m)) :
  clCreateProgramWithBinary none true [⟨env, dev, some bytes⟩]
    = .ok ⟨some [.success], .success, some [.module m]⟩
  := by
  have loaded : loadBinary none ⟨env, dev, some bytes⟩ = .ok (.success, .module m) := by
    rw [loadBinary]
    split
    · contradiction
    · simp_all
    · simp_all
  rw [clCreateProgramWithBinary, if_neg (by decide), if_neg (by simp [inContext]),
    List.mapM_cons, loaded, List.mapM_nil]
  rfl

/-- The call rejects what does not begin with a module only where there is nothing to reject: it
never says that a binary is invalid.  As long as there is memory, every binary that is not empty is
made a program. -/
theorem rejects_iff_beginsWithModule (bridge : Option Bridge) (arrays : Bool) (inputs : List Input)
    (i : ℕ) (input : Input) (bytes : List UInt8) (here : inputs[i]? = some input)
    (given : input.binary = some bytes) :
  ((¬ BeginsWithModule input.env bytes → Rejects bridge arrays inputs i)
      ↔ BeginsWithModule input.env bytes)
    ∧ (input.env.Ample → input.device.inContext = true → bytes ≠ [] →
      ∃ m, clCreateProgramWithBinary none true [input]
        = .ok ⟨some [.success], .success, some [.module m]⟩)
  := by
  constructor
  · constructor
    · intro rejected
      by_contra other
      exact not_rejects bridge arrays inputs i (rejected other)
    · intro begins other
      exact absurd begins other
  · intro ample inContext nonempty
    obtain ⟨env, dev, binary⟩ := input
    obtain rfl : binary = some bytes := given
    rcases deserializeBinary_cases env bytes with ⟨m, eq⟩ | ⟨-, short⟩
    · exact ⟨m, create_of_deserialized inContext nonempty eq⟩
    · exact absurd ample short

theorem rejects_iff_beginsWithModule_small :
  (¬ BeginsWithModule zeroEnv (smallModule.serialize zeroEnv) →
      Rejects none true [⟨zeroEnv, ⟨true, false⟩, some (smallModule.serialize zeroEnv)⟩] 0)
    ∧ ∃ m, clCreateProgramWithBinary none true [⟨zeroEnv, ⟨true, false⟩, some [3, 0]⟩]
        = .ok ⟨some [.success], .success, some [.module m]⟩
  := by
  constructor
  · exact (rejects_iff_beginsWithModule none true
      [⟨zeroEnv, ⟨true, false⟩, some (smallModule.serialize zeroEnv)⟩] 0
      ⟨zeroEnv, ⟨true, false⟩, some (smallModule.serialize zeroEnv)⟩ _ rfl rfl).1.2
      ⟨smallModule, [], smallModule_bounded, (List.append_nil _).symm⟩
  · exact (rejects_iff_beginsWithModule none true [⟨zeroEnv, ⟨true, false⟩, some [3, 0]⟩] 0
      ⟨zeroEnv, ⟨true, false⟩, some [3, 0]⟩ [3, 0] rfl rfl).2 (fun _ _ => rfl) rfl (by decide)

/-- An environment with enough memory and the given number in the first variable that is not
initialized. -/
def garbageEnv (n : BitVec 32) : Env := ⟨true, fun k => if k = 0 then n else 0, fun _ _ => true⟩

/-- At least the two lengths are written. -/
theorem length_serialize_ge (env : Env) (m : Module) :
  8 ≤ (m.serialize env).length
  := by
  have four : ∀ n, (writeLength env n).length = 4 := fun n => Scalar.length_bytes env _
  simp only [Module.serialize, moduleSerializer, Serializer.andThen, Serializer.field,
    Serializer.vector, List.length_append, four]
  omega

/-- A binary of one byte is made a program, with as many symbols as happen to be in memory. -/
theorem create_of_one_byte :
  ¬ BeginsWithModule (garbageEnv 0) [0]
    ∧ clCreateProgramWithBinary none true [⟨garbageEnv 0, ⟨true, false⟩, some [0]⟩]
      = .ok ⟨some [.success], .success, some [.module ⟨[], [], []⟩]⟩
    ∧ clCreateProgramWithBinary none true [⟨garbageEnv 1, ⟨true, false⟩, some [0]⟩]
      = .ok ⟨some [.success], .success, some [.module ⟨[Symbol.default], [], []⟩]⟩
  := by
  refine ⟨?_, rfl, rfl⟩
  rintro ⟨m, rest, -, eq⟩
  have long := length_serialize_ge (garbageEnv 0) m
  have total := congrArg List.length eq
  rw [List.length_append, List.length_singleton] at total
  omega

end Clover
