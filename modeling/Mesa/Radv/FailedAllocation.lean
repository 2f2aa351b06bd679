import Mesa.Radv.DescriptorSet

/-!
# Failed allocations

What a call of `radv_AllocateDescriptorSets` that fails leaves behind.  The sets created before the
failure are destroyed again in a pool with the flag for that, which takes them off `vram_list` but
does not move the current offset back; in a pool without the flag nothing is undone.
-/

namespace Radv

/-! ### The conditions -/

/-- The sets of a call are created one after the other. -/
def State.Succeeds (s : State) (layouts : List (Layout × Bool)) : Prop :=
  (s.allocateLoop [] layouts).1 = true

instance (s : State) (layouts : List (Layout × Bool)) : Decidable (s.Succeeds layouts) :=
  inferInstanceAs (Decidable (_ = _))

/-- A call creates the sets of the first layouts, and fails to create the one that follows. -/
structure FailsAt (s : State) (done : List (Layout × Bool)) (layout : Layout) (memory : Bool) :
    Prop where
  created : s.Succeeds done
  failed : ((s.allocateLoop [] done).2.2.create layout memory).1.isOk = false

/-- The pool is as before, and what could be allocated still can be. -/
structure Restored (s s' : State) : Prop where
  pool : s'.pool = s.pool
  succeeds : ∀ layouts, s.Succeeds layouts → s'.Succeeds layouts

/-- A set of this layout takes nothing that its destruction does not give back: it is put into a
gap, or needs no memory at all. -/
def Returnable (pool : Pool) (layout : Layout) : Prop :=
  match pool.host with
  | none =>
    layout.size = 0 ∨ alignU32 layout.size 32 = 0
      ∨ pool.size < pool.currentOffset + alignU32 layout.size 32
  | some _ => layout.memSize = 0 ∧ layout.size = 0

/-- The creation of a set of this layout, when it fails, does so before memory of the pool has been
taken for the set itself. -/
def FailsFirst (pool : Pool) (layout : Layout) : Prop :=
  ∀ host ∈ pool.host, host.size - host.ptr < layout.memSize ∨ layout.memSize = 0

/-! ### Calls that fail -/

theorem allocateLoop_append (s : State) (sets : List DescriptorSet)
    (done rest : List (Layout × Bool)) :
  s.allocateLoop sets (done ++ rest)
    = match s.allocateLoop sets done with
      | (true, sets, s) => s.allocateLoop sets rest
      | (false, sets, s) => (false, sets, s)
  := by
  induction done generalizing s sets with
  | nil => rfl
  | cons first done ih =>
    rw [List.cons_append, State.allocateLoop, State.allocateLoop]
    split
    · exact ih _ _
    · rfl

/-- The sets created so far only matter for the result. -/
theorem allocateLoop_sets (s : State) (sets : List DescriptorSet) (layouts : List (Layout × Bool)) :
  s.allocateLoop sets layouts
    = ((s.allocateLoop [] layouts).1, sets ++ (s.allocateLoop [] layouts).2.1,
        (s.allocateLoop [] layouts).2.2)
  := by
  induction layouts generalizing s sets with
  | nil => simp [State.allocateLoop]
  | cons first rest ih =>
    unfold State.allocateLoop
    split
    · rw [ih, ih _ ([] ++ _)]
      simp
    · simp

theorem allocateLoop_cons {s s' : State} {layout : Layout} {memory : Bool} {set : DescriptorSet}
    (created : s.create layout memory = (.ok set, s')) (rest : List (Layout × Bool)) :
  s.allocateLoop [] ((layout, memory) :: rest)
    = ((s'.allocateLoop [] rest).1, set :: (s'.allocateLoop [] rest).2.1,
        (s'.allocateLoop [] rest).2.2)
  := by
  rw [State.allocateLoop, created]
  dsimp only
  rw [allocateLoop_sets]
  rfl

theorem FailsAt.allocateLoop {s : State} {done : List (Layout × Bool)} {layout : Layout}
    {memory : Bool} (failsAt : FailsAt s done layout memory) (rest : List (Layout × Bool)) :
  s.allocateLoop [] (done ++ (layout, memory) :: rest)
    = (false, (s.allocateLoop [] done).2.1,
        ((s.allocateLoop [] done).2.2.create layout memory).2)
  := by
  have created : (s.allocateLoop [] done).1 = true := failsAt.created
  have failed := failsAt.failed
  rw [allocateLoop_append]
  rcases loop : s.allocateLoop [] done with ⟨all, sets, s'⟩
  rw [loop] at created failed
  obtain rfl : all = true := created
  dsimp only at failed ⊢
  rcases create : s'.create layout memory with ⟨e | set, s''⟩
  · rw [State.allocateLoop, create]
  · rw [create] at failed
    cases failed

/-- A call fails at one of its layouts. -/
theorem not_succeeds_iff {s : State} {layouts : List (Layout × Bool)} :
  ¬ s.Succeeds layouts
    ↔ ∃ done layout memory rest,
      layouts = done ++ (layout, memory) :: rest ∧ FailsAt s done layout memory
  := by
  constructor
  · intro fails
    induction layouts generalizing s with
    | nil => exact absurd rfl fails
    | cons first rest ih =>
      obtain ⟨layout, memory⟩ := first
      rcases create : s.create layout memory with ⟨_ | set, s'⟩
      · use [], layout, memory, rest, rfl
        refine ⟨rfl, ?_⟩
        rw [State.allocateLoop, create]
        rfl
      · have later : ¬ s'.Succeeds rest := by
          unfold State.Succeeds at fails ⊢
          rwa [allocateLoop_cons create] at fails
        obtain ⟨done, layout', memory', rest', rfl, failsAt⟩ := ih later
        use (layout, memory) :: done, layout', memory', rest', rfl
        constructor
        · unfold State.Succeeds
          rw [allocateLoop_cons create]
          exact failsAt.created
        · rw [allocateLoop_cons create]
          exact failsAt.failed
  · rintro ⟨done, layout, memory, rest, rfl, failsAt⟩ succeeds
    unfold State.Succeeds at succeeds
    rw [failsAt.allocateLoop] at succeeds
    cases succeeds

/-! ### What is taken from a pool -/

/-- What `radv_descriptor_set_destroy` does to the list. -/
def listDel (sets : List DescriptorSet) (set : DescriptorSet) : List DescriptorSet :=
  if set.size = 0 then sets else sets.erase set

theorem destroy_pool (s : State) (set : DescriptorSet) :
  (s.destroy set).pool = { s.pool with vramList := listDel s.pool.vramList set }
  := by
  unfold State.destroy listDel
  dsimp only
  split
  · rfl
  · rfl

theorem foldl_destroy_pool (s : State) (sets : List DescriptorSet) :
  (sets.foldl State.destroy s).pool
    = { s.pool with vramList := sets.foldl listDel s.pool.vramList }
  := by
  induction sets generalizing s with
  | nil => rfl
  | cons set sets ih =>
    rw [List.foldl_cons, ih, destroy_pool]
    rfl

/-- It does not matter in which order sets are destroyed. -/
theorem foldl_listDel_comm (sets : List DescriptorSet) (l : List DescriptorSet)
    (set : DescriptorSet) :
  sets.foldl listDel (listDel l set) = listDel (sets.foldl listDel l) set
  := by
  induction sets generalizing l with
  | nil => rfl
  | cons first sets ih =>
    rw [List.foldl_cons, List.foldl_cons, ← ih]
    congr 1
    unfold listDel
    split
    · split
      · rfl
      · rfl
    · split
      · rfl
      · exact List.erase_comm set first

/-- A number that grows when memory of the pool is taken and not given back: the offsets, and the
length of the list where sets are not taken off it again. -/
def taken (pool : Pool) : ℕ :=
  pool.currentOffset + pool.host.elim 0 fun host => host.ptr + pool.vramList.length

/-- The pools only differ in sets that can be destroyed. -/
structure Pool.Close (pool pool' : Pool) : Prop where
  size : pool'.size = pool.size
  currentOffset : pool'.currentOffset = pool.currentOffset
  host : pool'.host = pool.host
  vramList : pool.host.isSome → pool'.vramList = pool.vramList

theorem Pool.Close.refl (pool : Pool) :
  pool.Close pool
  := ⟨rfl, rfl, rfl, fun _ => rfl⟩

theorem Pool.Close.trans {pool pool' pool'' : Pool} (first : pool.Close pool')
    (second : pool'.Close pool'') :
  pool.Close pool''
  := by
  constructor
  case size => rw [second.size, first.size]
  case currentOffset => rw [second.currentOffset, first.currentOffset]
  case host => rw [second.host, first.host]
  case vramList =>
    intro own
    rw [second.vramList (first.host ▸ own), first.vramList own]

theorem Pool.Close.taken {pool pool' : Pool} (close : pool.Close pool') :
  taken pool' = taken pool
  := by
  unfold Radv.taken
  rw [close.currentOffset, close.host]
  cases host : pool.host with
  | none => rfl
  | some h =>
    rw [Option.elim_some, Option.elim_some, close.vramList (by rw [host]; rfl)]

theorem Pool.Close.returnable_iff {pool pool' : Pool} (close : pool.Close pool') (layout : Layout) :
  Returnable pool' layout ↔ Returnable pool layout
  := by
  unfold Returnable
  rw [close.host, close.size, close.currentOffset]

theorem Pool.Close.failsFirst_iff {pool pool' : Pool} (close : pool.Close pool') (layout : Layout) :
  FailsFirst pool' layout ↔ FailsFirst pool layout
  := by
  unfold FailsFirst
  rw [close.host]

theorem Pool.Close.eq {pool pool' : Pool} (close : pool.Close pool') :
  pool' = { pool with vramList := pool'.vramList }
  := by
  rw [← close.size, ← close.currentOffset, ← close.host]

/-! ### Creations -/

/-- The sets of the list are among those that have been created. -/
def Fresh (s : State) : Prop := ∀ set ∈ s.pool.vramList, set.id < s.created

theorem findGap_append {n offset : ℕ} {l before after : List DescriptorSet} {gap : ℕ}
    (found : findGap n offset l = (before, gap, after)) :
  l = before ++ after
  := by
  induction l generalizing offset before after gap with
  | nil =>
    obtain ⟨rfl, -, rfl⟩ : before = [] ∧ offset = gap ∧ after = [] := by
      simpa [findGap, eq_comm] using found
    rfl
  | cons cur rest ih =>
    rw [findGap] at found
    split at found
    · obtain ⟨rfl, -, rfl⟩ : before = [] ∧ offset = gap ∧ after = cur :: rest := by
        simpa [eq_comm] using found
      rfl
    · rcases inner : findGap n (cur.start + cur.size) rest with ⟨before', gap', after'⟩
      rw [inner] at found
      obtain ⟨rfl, -, rfl⟩ : before = cur :: before' ∧ gap' = gap ∧ after' = after := by
        simpa [eq_comm] using found
      rw [ih inner]
      rfl

/-- There is room for the set at the current offset. -/
def Pool.Fits (pool : Pool) (layout : Layout) : Prop :=
  pool.currentOffset + alignU32 layout.size 32 ≤ pool.size

/-- All that can happen when a set is given its memory: it needs none, it is put at the current
offset or into a gap, or there is no room. -/
inductive Placed (s : State) (layout : Layout) : Except Error DescriptorSet × State → Prop where
  | empty (zero : layout.size = 0) :
    Placed s layout (s.addSet ⟨s.created, 0, 0⟩ s.pool)
  | linear (positive : layout.size ≠ 0) (fits : s.pool.Fits layout) :
    Placed s layout (s.addSet ⟨s.created, s.pool.currentOffset, layout.size⟩
      { s.pool with
        currentOffset := s.pool.currentOffset + alignU32 layout.size 32
        vramList := s.pool.vramList ++ [⟨s.created, s.pool.currentOffset, layout.size⟩] })
  | gap (positive : layout.size ≠ 0) (full : ¬ s.pool.Fits layout) (host : s.pool.host = none)
      (before : List DescriptorSet) (offset : ℕ) (after : List DescriptorSet)
      (list : s.pool.vramList = before ++ after) :
    Placed s layout (s.addSet ⟨s.created, offset, layout.size⟩
      { s.pool with vramList := before ++ ⟨s.created, offset, layout.size⟩ :: after })
  | fails (positive : layout.size ≠ 0) (full : ¬ s.pool.Fits layout) :
    Placed s layout (.error .outOfPoolMemory, s)

theorem placed (s : State) (layout : Layout) :
  Placed s layout (s.place layout)
  := by
  unfold State.place
  split
  case isTrue zero => exact .empty zero
  case isFalse positive =>
    dsimp only
    split
    case isTrue fits => exact .linear positive fits
    case isFalse full =>
      cases host : s.pool.host with
      | some h => exact .fails positive full
      | none =>
        rcases found : findGap (alignU32 layout.size 32) 0 s.pool.vramList
          with ⟨before, offset, after⟩
        dsimp only
        split
        · exact .fails positive full
        · have added := Placed.gap positive full host before offset after (findGap_append found)
          simp only [host] at added
          exact added

/-- What the creation of a set means for the pool. -/
structure Creation (s : State) (layout : Layout) (set : DescriptorSet) (s' : State) : Prop where
  fresh : Fresh s'
  listDel : s.pool.host = none → listDel s'.pool.vramList set = s.pool.vramList
  le : taken s.pool ≤ taken s'.pool
  close : Returnable s.pool layout → s.pool.Close s'.pool
  returnable : taken s'.pool = taken s.pool → Returnable s.pool layout
  host : s'.pool.host.isSome = s.pool.host.isSome

theorem Fresh.listDel_insert {s : State} (fresh : Fresh s) {before after : List DescriptorSet}
    (list : s.pool.vramList = before ++ after) {start size : ℕ} (positive : size ≠ 0) :
  listDel (before ++ ⟨s.created, start, size⟩ :: after) ⟨s.created, start, size⟩ = s.pool.vramList
  := by
  have absent : (⟨s.created, start, size⟩ : DescriptorSet) ∉ before := by
    intro mem
    have old := fresh _ (list ▸ List.mem_append_left _ mem)
    exact Nat.lt_irrefl _ old
  rw [listDel, if_neg positive, List.erase_append_right _ absent, List.erase_cons_head, list]

theorem Fresh.insert {s : State} (fresh : Fresh s) {before after : List DescriptorSet}
    (list : s.pool.vramList = before ++ after) {start size : ℕ} {set : DescriptorSet}
    (mem : set ∈ before ++ ⟨s.created, start, size⟩ :: after) :
  set.id < s.created + 1
  := by
  have old : set ∈ before ++ after → set.id < s.created + 1 := by
    intro mem
    exact Nat.lt_succ_of_lt (fresh set (list ▸ mem))
  rcases List.mem_append.1 mem with mem | mem
  · exact old (List.mem_append_left _ mem)
  · rcases List.mem_cons.1 mem with rfl | mem
    · exact Nat.lt_succ_self _
    · exact old (List.mem_append_right _ mem)

theorem creation_of_host_none {s s' : State} (fresh : Fresh s) (host : s.pool.host = none)
    {layout : Layout} {set : DescriptorSet} (placed : Placed s layout (.ok set, s')) :
  Creation s layout set s'
  := by
  have same : Returnable s.pool layout ↔ layout.size = 0 ∨ alignU32 layout.size 32 = 0
      ∨ s.pool.size < s.pool.currentOffset + alignU32 layout.size 32 := by
    rw [Returnable, host]
  cases placed with
  | empty zero =>
    constructor
    case fresh => exact fun set mem => Nat.lt_succ_of_lt (fresh set mem)
    case listDel => exact fun _ => rfl
    case le => exact le_rfl
    case close => exact fun _ => .refl _
    case returnable => exact fun _ => same.2 (Or.inl zero)
    case host => rfl
  | linear positive fits =>
    constructor
    case fresh => exact fun set mem => fresh.insert (List.append_nil _).symm mem
    case listDel => exact fun _ => fresh.listDel_insert (List.append_nil _).symm positive
    case le => simp [taken, host]
    case close =>
      intro returnable
      unfold Pool.Fits at fits
      refine ⟨rfl, ?_, rfl, by simp [host]⟩
      dsimp only
      rcases same.1 returnable with zero | zero | full
      · exact absurd zero positive
      · rw [zero, Nat.add_zero]
      · omega
    case returnable =>
      intro still
      have zero : alignU32 layout.size 32 = 0 := by simpa [taken, host] using still
      exact same.2 (Or.inr (Or.inl zero))
    case host => rfl
  | gap positive full _ before offset after list =>
    constructor
    case fresh => exact fun set mem => fresh.insert list mem
    case listDel => exact fun _ => fresh.listDel_insert list positive
    case le => simp [taken, host]
    case close => exact fun _ => ⟨rfl, rfl, rfl, by simp [host]⟩
    case returnable => exact fun _ => same.2 (Or.inr (Or.inr (Nat.lt_of_not_le full)))
    case host => rfl

/-- The pool when memory for a set has been taken from its own. -/
def Pool.takeHost (pool : Pool) (host : HostMemory) (memSize : ℕ) : Pool :=
  { pool with host := some { host with ptr := host.ptr + memSize } }

theorem takeHost_zero {pool : Pool} {host : HostMemory} (own : pool.host = some host) :
  pool.takeHost host 0 = pool
  := by
  obtain ⟨_, _, _, _⟩ := pool
  obtain rfl := own
  rfl

theorem creation_of_host_some {s s' : State} (fresh : Fresh s) {host : HostMemory}
    (own : s.pool.host = some host) {layout : Layout} {set : DescriptorSet}
    (placed : Placed { s with pool := s.pool.takeHost host layout.memSize } layout (.ok set, s')) :
  Creation s layout set s'
  := by
  have same : Returnable s.pool layout ↔ layout.memSize = 0 ∧ layout.size = 0 := by
    rw [Returnable, own]
  have absurdNone {P : Prop} (none : s.pool.host = none) : P := by
    rw [own] at none
    cases none
  have before : taken s.pool = s.pool.currentOffset + (host.ptr + s.pool.vramList.length) := by
    simp [taken, own]
  generalize start : ({ s with pool := s.pool.takeHost host layout.memSize } : State) = s₁ at placed
  have fresh₁ : Fresh s₁ := start ▸ fresh
  cases placed with
  | empty zero =>
    subst start
    have after : taken (s.pool.takeHost host layout.memSize)
        = s.pool.currentOffset + (host.ptr + layout.memSize + s.pool.vramList.length) := rfl
    constructor
    case fresh => exact fun set mem => Nat.lt_succ_of_lt (fresh set mem)
    case listDel => exact absurdNone
    case le =>
      rw [before]
      apply le_of_le_of_eq _ after.symm
      omega
    case close =>
      intro returnable
      refine ⟨rfl, rfl, ?_, fun _ => rfl⟩
      change some _ = _
      rw [own, (same.1 returnable).1]
      rfl
    case returnable =>
      intro still
      have still := (still.symm.trans after).symm
      rw [before] at still
      exact same.2 ⟨by omega, zero⟩
    case host => rw [own]; rfl
  | linear positive fits =>
    have fresh' : ∀ set ∈ s₁.pool.vramList ++ [⟨s₁.created, s₁.pool.currentOffset, layout.size⟩],
        set.id < s₁.created + 1 := fun set mem => fresh₁.insert (List.append_nil _).symm mem
    subst start
    have after : taken
        { s.pool.takeHost host layout.memSize with
          currentOffset := s.pool.currentOffset + alignU32 layout.size 32
          vramList := s.pool.vramList ++ [⟨s.created, s.pool.currentOffset, layout.size⟩] }
        = s.pool.currentOffset + alignU32 layout.size 32
          + (host.ptr + layout.memSize + (s.pool.vramList.length + 1)) := by
      simp [taken, Pool.takeHost]
    constructor
    case fresh => exact fresh'
    case listDel => exact absurdNone
    case le =>
      rw [before]
      apply le_of_le_of_eq _ after.symm
      omega
    case close => exact fun returnable => absurd (same.1 returnable).2 positive
    case returnable =>
      intro still
      have still := (still.symm.trans after).symm
      rw [before] at still
      omega
    case host => rw [own]; rfl
  | gap positive full none before offset after list =>
    rw [← start] at none
    cases none

/-- What a successful creation means. -/
theorem Fresh.creation {s s' : State} (fresh : Fresh s) {layout : Layout} {memory : Bool}
    {set : DescriptorSet} (created : s.create layout memory = (.ok set, s')) :
  Creation s layout set s'
  := by
  unfold State.create at created
  cases host : s.pool.host with
  | none =>
    cases memory with
    | true =>
      simp only [host, if_true] at created
      apply creation_of_host_none fresh host
      rw [← created]
      exact placed s layout
    | false => simp [host] at created
  | some own =>
    simp only [host] at created
    split at created
    · cases created
    · apply creation_of_host_some fresh host
      rw [← created]
      exact placed _ layout

/-- What a failed creation means for the pool. -/
structure Failure (s : State) (layout : Layout) (s' : State) : Prop where
  fresh : Fresh s'
  le : taken s.pool ≤ taken s'.pool
  keeps : FailsFirst s.pool layout → s'.pool = s.pool
  failsFirst : taken s'.pool = taken s.pool → FailsFirst s.pool layout
  unchanged : s.pool.host = none → s' = s
  host : s'.pool.host.isSome = s.pool.host.isSome

theorem Fresh.failure {s s' : State} (fresh : Fresh s) {layout : Layout} {memory : Bool} {e : Error}
    (failed : s.create layout memory = (.error e, s')) :
  Failure s layout s'
  := by
  unfold State.create at failed
  cases host : s.pool.host with
  | none =>
    obtain rfl : s' = s := by
      cases memory with
      | true =>
        simp only [host, if_true] at failed
        have result := placed s layout
        rw [failed] at result
        cases result
        rfl
      | false =>
        simp only [host, Bool.false_eq_true, if_false, Prod.mk.injEq] at failed
        exact failed.2.symm
    exact ⟨fresh, le_rfl, fun _ => rfl, fun _ => by simp [FailsFirst, host], fun _ => rfl, rfl⟩
  | some own =>
    simp only [host] at failed
    split at failed
    case isTrue few =>
      obtain rfl : s = s' := congrArg Prod.snd failed
      have first : FailsFirst s.pool layout := by simp [FailsFirst, host, few]
      exact ⟨fresh, le_rfl, fun _ => rfl, fun _ => first, fun _ => rfl, rfl⟩
    case isFalse enough =>
      have result := placed { s with pool := s.pool.takeHost own layout.memSize } layout
      rw [Pool.takeHost, failed] at result
      cases result
      constructor
      case fresh => exact fresh
      case le => simp [taken, host]
      case keeps =>
        intro first
        obtain few | zero := first own host
        · exact absurd few enough
        · rw [zero]
          exact takeHost_zero host
      case failsFirst =>
        intro still other mem
        rw [host, Option.mem_some_iff] at mem
        subst mem
        right
        simpa [taken, host, Nat.add_assoc] using still
      case unchanged =>
        intro noHost
        rw [host] at noHost
        cases noHost
      case host => rw [host]; rfl

/-! ### Calls -/

theorem host_eq_none {pool pool' : Pool} (same : pool'.host.isSome = pool.host.isSome)
    (noHost : pool.host = none) :
  pool'.host = none
  := by
  rw [noHost] at same
  simpa using same

/-- What the creation of all sets of a call means for the pool, as for a single one. -/
structure CreatesAll (s : State) (done : List (Layout × Bool)) (sets : List DescriptorSet)
    (s' : State) : Prop where
  fresh : Fresh s'
  listDel : s.pool.host = none → sets.foldl listDel s'.pool.vramList = s.pool.vramList
  le : taken s.pool ≤ taken s'.pool
  close : (∀ l ∈ done, Returnable s.pool l.1) → s.pool.Close s'.pool
  returnable : taken s'.pool = taken s.pool → ∀ l ∈ done, Returnable s.pool l.1
  host : s'.pool.host.isSome = s.pool.host.isSome

theorem Fresh.createsAll {s : State} (fresh : Fresh s) {done : List (Layout × Bool)}
    (succeeds : s.Succeeds done) :
  CreatesAll s done (s.allocateLoop [] done).2.1 (s.allocateLoop [] done).2.2
  := by
  induction done generalizing s with
  | nil =>
    exact ⟨fresh, fun _ => rfl, le_rfl, fun _ => .refl _,
      fun _ _ mem => absurd mem List.not_mem_nil, rfl⟩
  | cons first done ih =>
    obtain ⟨layout, memory⟩ := first
    unfold State.Succeeds at succeeds
    rcases create : s.create layout memory with ⟨e | set, s₁⟩
    · rw [State.allocateLoop, create] at succeeds
      cases succeeds
    · rw [allocateLoop_cons create] at succeeds ⊢
      have here := fresh.creation create
      have later := ih here.fresh succeeds
      constructor
      case fresh => exact later.fresh
      case listDel =>
        intro noHost
        have noHost₁ : s₁.pool.host = none := host_eq_none here.host noHost
        rw [List.foldl_cons, foldl_listDel_comm, later.listDel noHost₁, here.listDel noHost]
      case le => exact here.le.trans later.le
      case close =>
        intro all
        have close := here.close (all (layout, memory) List.mem_cons_self)
        apply close.trans
        apply later.close
        intro l mem
        exact (close.returnable_iff l.1).2 (all l (List.mem_cons_of_mem _ mem))
      case returnable =>
        intro still l mem
        have le₁ := here.le
        have le₂ := later.le
        dsimp only at still
        have first := here.returnable (by omega)
        rcases List.mem_cons.1 mem with rfl | mem
        · exact first
        · exact ((here.close first).returnable_iff l.1).1 (later.returnable (by omega) l mem)
      case host => exact later.host.trans here.host

/-- A failed call leaves the pool as it was, exactly when none of the sets it has created has taken
anything that is not given back, and the last one fails at once. -/
theorem pool_allocateDescriptorSets_iff {s : State} (fresh : Fresh s) {done : List (Layout × Bool)}
    {layout : Layout} {memory : Bool} (failsAt : FailsAt s done layout memory)
    (rest : List (Layout × Bool)) :
  (s.allocateDescriptorSets (done ++ (layout, memory) :: rest)).pool = s.pool
    ↔ (∀ l ∈ done, Returnable s.pool l.1) ∧ FailsFirst s.pool layout
  := by
  have all := fresh.createsAll failsAt.created
  have failed := failsAt.failed
  rw [State.allocateDescriptorSets, failsAt.allocateLoop]
  dsimp only
  generalize (s.allocateLoop [] done).2.1 = sets at all ⊢
  generalize (s.allocateLoop [] done).2.2 = s₁ at all failed ⊢
  rcases create : s₁.create layout memory with ⟨e | set, s₂⟩
  case ok => rw [create] at failed; cases failed
  case error =>
    have failure := all.fresh.failure create
    dsimp only
    cases host : s.pool.host with
    | none =>
      have noHost := host_eq_none all.host host
      obtain rfl := failure.unchanged noHost
      have freed : (s₂.freeDescriptorSets sets).pool
          = { s₂.pool with vramList := s.pool.vramList } := by
        unfold State.freeDescriptorSets
        simp only [noHost]
        rw [foldl_destroy_pool, all.listDel host]
        dsimp only
        rw [noHost]
      rw [freed]
      constructor
      · intro unchanged
        have offset := congrArg Pool.currentOffset unchanged
        refine ⟨all.returnable (by simpa [taken, noHost, host] using offset), ?_⟩
        simp [FailsFirst, host]
      · rintro ⟨returnable, -⟩
        have close := all.close returnable
        rw [close.eq]
    | some own =>
      have freed : (s₂.freeDescriptorSets sets).pool = s₂.pool := by
        unfold State.freeDescriptorSets
        split
        case h_1 noHost =>
          have kind := failure.host
          simp [noHost, all.host, host] at kind
        case h_2 => rfl
      rw [freed]
      constructor
      · intro unchanged
        have returnable := all.returnable (by
          have le := all.le
          have le₁ := failure.le
          rw [unchanged] at le₁
          omega)
        have close := all.close returnable
        refine ⟨returnable, ?_⟩
        rw [← close.failsFirst_iff]
        apply failure.failsFirst
        rw [unchanged, close.taken]
      · rintro ⟨returnable, failsFirst⟩
        have close := all.close returnable
        rw [failure.keeps ((close.failsFirst_iff layout).2 failsFirst), close.eq,
          close.vramList (by rw [host]; rfl)]

/-! ### Later requests -/

/-- The same sets, apart from their numbers. -/
def Alike (a b : DescriptorSet) : Prop := a.start = b.start ∧ a.size = b.size

structure Pool.Alike (pool pool' : Pool) : Prop where
  size : pool.size = pool'.size
  currentOffset : pool.currentOffset = pool'.currentOffset
  host : pool.host = pool'.host
  vramList : List.Forall₂ Radv.Alike pool.vramList pool'.vramList

theorem Pool.Alike.refl (pool : Pool) :
  pool.Alike pool
  := ⟨rfl, rfl, rfl, List.forall₂_same.2 fun _ _ => ⟨rfl, rfl⟩⟩

/-- The loop over the list only looks at places and sizes. -/
theorem findGap_alike {n offset : ℕ} {l l' : List DescriptorSet} (alike : List.Forall₂ Alike l l') :
  List.Forall₂ Alike (findGap n offset l).1 (findGap n offset l').1
    ∧ (findGap n offset l).2.1 = (findGap n offset l').2.1
    ∧ List.Forall₂ Alike (findGap n offset l).2.2 (findGap n offset l').2.2
  := by
  induction alike generalizing offset with
  | nil => exact ⟨.nil, rfl, .nil⟩
  | cons first rest ih =>
    rw [findGap, findGap, first.1, first.2]
    split
    · exact ⟨.nil, rfl, .cons first rest⟩
    · obtain ⟨before, same, after⟩ := ih
      exact ⟨.cons first before, same, after⟩

/-- The results of an operation on alike pools. -/
def SameOutcome (result result' : Except Error DescriptorSet × State) : Prop :=
  result.1.isOk = result'.1.isOk ∧ result.2.pool.Alike result'.2.pool

theorem place_alike {s s' : State} (alike : s.pool.Alike s'.pool) (layout : Layout) :
  SameOutcome (s.place layout) (s'.place layout)
  := by
  obtain ⟨size, offset, host, list⟩ := alike
  unfold State.place
  dsimp only
  rw [size, offset, host]
  split
  case isTrue => exact ⟨rfl, size, offset, host, list⟩
  case isFalse =>
    split
    case isTrue =>
      refine ⟨rfl, rfl, rfl, rfl, ?_⟩
      exact List.rel_append list (.cons ⟨rfl, rfl⟩ .nil)
    case isFalse =>
      cases own : s'.pool.host with
      | some h => exact ⟨rfl, size, offset, host, list⟩
      | none =>
        obtain ⟨before, same, after⟩ :=
          @findGap_alike (alignU32 layout.size 32) 0 _ _ list
        dsimp only
        rw [same]
        split
        · exact ⟨rfl, size, offset, host, list⟩
        · refine ⟨rfl, rfl, rfl, rfl, ?_⟩
          exact List.rel_append before (.cons ⟨rfl, rfl⟩ after)

theorem create_alike {s s' : State} (alike : s.pool.Alike s'.pool) (layout : Layout)
    (memory : Bool) :
  SameOutcome (s.create layout memory) (s'.create layout memory)
  := by
  unfold State.create
  rw [alike.host]
  cases own : s'.pool.host with
  | some host =>
    dsimp only
    split
    · exact ⟨rfl, alike⟩
    · apply place_alike
      exact ⟨alike.size, alike.currentOffset, rfl, alike.vramList⟩
  | none =>
    cases memory with
    | true => exact place_alike alike layout
    | false => exact ⟨rfl, alike⟩

/-- Whether a request succeeds depends on the pool alone, and not on the numbers of its sets. -/
theorem succeeds_alike {s s' : State} (alike : s.pool.Alike s'.pool)
    {layouts : List (Layout × Bool)} (succeeds : s.Succeeds layouts) :
  s'.Succeeds layouts
  := by
  induction layouts generalizing s s' with
  | nil => rfl
  | cons first rest ih =>
    obtain ⟨layout, memory⟩ := first
    obtain ⟨ok, later⟩ := create_alike alike layout memory
    unfold State.Succeeds at succeeds ⊢
    rcases create : s.create layout memory with ⟨e | set, s₁⟩
    · rw [State.allocateLoop, create] at succeeds
      cases succeeds
    · rcases create' : s'.create layout memory with ⟨e' | set', s₁'⟩
      · rw [create, create'] at ok
        cases ok
      · rw [allocateLoop_cons create] at succeeds
        rw [allocateLoop_cons create']
        rw [create, create'] at later
        exact ih later succeeds

/-! ### Histories -/

theorem fresh_allocateLoop {s : State} (fresh : Fresh s) (layouts : List (Layout × Bool)) :
  Fresh (s.allocateLoop [] layouts).2.2
  := by
  induction layouts generalizing s with
  | nil => exact fresh
  | cons first rest ih =>
    obtain ⟨layout, memory⟩ := first
    rcases create : s.create layout memory with ⟨e | set, s₁⟩
    · rw [State.allocateLoop, create]
      exact (fresh.failure create).fresh
    · rw [allocateLoop_cons create]
      exact ih (fresh.creation create).fresh

theorem fresh_freeDescriptorSets {s : State} (fresh : Fresh s) (sets : List DescriptorSet) :
  Fresh (s.freeDescriptorSets sets)
  := by
  unfold State.freeDescriptorSets
  split
  case h_2 => exact fresh
  case h_1 host =>
    clear host
    induction sets generalizing s with
    | nil => exact fresh
    | cons set sets ih =>
      apply ih
      intro other mem
      rw [destroy_pool] at mem
      apply fresh other
      unfold listDel at mem
      dsimp only at mem
      split at mem
      · exact mem
      · exact List.mem_of_mem_erase mem

theorem fresh_of_history {size : ℕ} {hostSize : Option ℕ} {as : List Action} {s : State}
    (ran : Flow.runActions step (createDescriptorPool size hostSize) as = some s) :
  Fresh s
  := by
  apply Flow.invariant_of_run (I := Fresh) _ _ (Flow.meets_true as) ran
  · intro s a s' fresh _ stepped
    cases a with
    | allocate layouts =>
      obtain rfl := Option.some.inj stepped
      have looped := fresh_allocateLoop fresh layouts
      unfold State.allocateDescriptorSets
      split
      case h_1 eq =>
        rw [eq] at looped
        exact looped
      case h_2 eq =>
        rw [eq] at looped
        exact fresh_freeDescriptorSets looped _
    | free sets =>
      rw [Radv.step] at stepped
      split at stepped
      · obtain rfl := Option.some.inj stepped
        exact fresh_freeDescriptorSets fresh sets
      · cases stepped
    | reset =>
      obtain rfl := Option.some.inj stepped
      exact fun set mem => absurd mem List.not_mem_nil
  · exact fun set mem => absurd mem List.not_mem_nil

/-- After any history, a call that fails leaves the pool as it was, exactly when in a pool with the
flag none of the sets that it has created was put at the current offset, and in a pool without the
flag already the first set gets no memory. -/
theorem restored_iff {size : ℕ} {hostSize : Option ℕ} {as : List Action} {s : State}
    (ran : Flow.runActions step (createDescriptorPool size hostSize) as = some s)
    {done : List (Layout × Bool)} {layout : Layout} {memory : Bool}
    (failsAt : FailsAt s done layout memory) (rest : List (Layout × Bool)) :
  Restored s (s.allocateDescriptorSets (done ++ (layout, memory) :: rest))
    ↔ (∀ l ∈ done, Returnable s.pool l.1) ∧ FailsFirst s.pool layout
  := by
  rw [← pool_allocateDescriptorSets_iff (fresh_of_history ran) failsAt rest]
  constructor
  · exact Restored.pool
  · intro unchanged
    refine ⟨unchanged, ?_⟩
    intro layouts
    apply succeeds_alike
    rw [unchanged]
    exact Pool.Alike.refl _

/-- Two sets are allocated and freed, so that the next ones are put into gaps. -/
def freeing : List Action :=
  [.allocate [(⟨32, 0, 0⟩, true), (⟨32, 0, 0⟩, true)], .free [⟨0, 0, 32⟩, ⟨1, 32, 32⟩]]

theorem restored_iff_freeing :
  ∃ s, Flow.runActions step (createDescriptorPool 64 none) freeing = some s
    ∧ s.pool.currentOffset = 64 ∧ ¬ s.Succeeds [(⟨32, 0, 0⟩, true), (⟨64, 0, 0⟩, true)]
    ∧ Restored s (s.allocateDescriptorSets [(⟨32, 0, 0⟩, true), (⟨64, 0, 0⟩, true)])
  := by
  let s := ((createDescriptorPool 64 none).allocateDescriptorSets
    [(⟨32, 0, 0⟩, true), (⟨32, 0, 0⟩, true)]).freeDescriptorSets [⟨0, 0, 32⟩, ⟨1, 32, 32⟩]
  have ran : Flow.runActions step (createDescriptorPool 64 none) freeing = some s := rfl
  have failsAt : FailsAt s [(⟨32, 0, 0⟩, true)] ⟨64, 0, 0⟩ true := ⟨by decide, by decide⟩
  refine ⟨s, ran, rfl, by decide, ?_⟩
  apply (restored_iff ran failsAt []).2
  constructor
  · intro l mem
    obtain rfl := List.mem_singleton.1 mem
    exact Or.inr (Or.inr (by decide))
  · intro host mem
    cases mem

/-- Failed calls that change the pool.  In a pool with the flag the current offset is not moved
back; in one without it, the memory of the set that failed is lost, and a set that had room before
has none any more. -/
theorem failed_calls_change :
  (let s := createDescriptorPool 64 none
    let s' := s.allocateDescriptorSets [(⟨32, 0, 0⟩, true), (⟨64, 0, 0⟩, true)]
    ¬ s.Succeeds [(⟨32, 0, 0⟩, true), (⟨64, 0, 0⟩, true)]
      ∧ s.pool.currentOffset = 0 ∧ s'.pool.currentOffset = 32 ∧ ¬ Restored s s')
    ∧ (let s := createDescriptorPool 32 (some 64)
      let s' := s.allocateDescriptorSets [(⟨64, 0, 0⟩, true)]
      ¬ s.Succeeds [(⟨64, 0, 0⟩, true)]
        ∧ s.Succeeds [(⟨32, 0, 0⟩, true)] ∧ ¬ s'.Succeeds [(⟨32, 0, 0⟩, true)] ∧ ¬ Restored s s')
  := by
  constructor
  · refine ⟨by decide, rfl, rfl, ?_⟩
    intro restored
    have offset := congrArg Pool.currentOffset restored.pool
    exact absurd offset (by decide)
  · have before : (createDescriptorPool 32 (some 64)).Succeeds [(⟨32, 0, 0⟩, true)] := by
      decide
    refine ⟨by decide, before, by decide, ?_⟩
    intro restored
    exact absurd (restored.succeeds _ before) (by decide)

end Radv
