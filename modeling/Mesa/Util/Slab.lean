import Mesa.Data.Slots
import Mesa.Flow.Transition

/-!
# Slab allocators

The child pools of `slab.c`, which share the mutex of their parent pool.  The code is cut at the
mutex and at the reads of the owner of an element: what happens with the mutex held is one step, and
so is what a pool does on its own after it.  An operation on a child pool begins when no other one is
under way on the same pool, which is what the code asks of its callers.

Pages and pools are numbered in the order in which they are created; an element is known by its page
and its index in it.  Besides the fields of the source, a state records what was done so far.
-/

namespace Util

namespace Slab

/-! ### States -/

/-- `slab_get_element`. -/
structure Element where
  page : ℕ
  index : ℕ
deriving DecidableEq

/-- The `owner` of an element: a child pool, or the orphaned page of the element. -/
inductive Owner where
  | pool (p : ℕ)
  | orphaned (page : ℕ)
deriving DecidableEq

/-- The operation that is under way on a child pool. -/
inductive Phase where
  | idle
  /-- `slab_alloc`, before the migrated elements are collected -/
  | collecting
  /-- `slab_alloc`, after the migrated elements were collected -/
  | refilled
  /-- `slab_free`, before the mutex is taken -/
  | freeing (e : Element)
  /-- `slab_free`, after the mutex was taken for an element of an orphaned page -/
  | returning (e : Element)
  /-- `slab_destroy_child`, after the mutex was taken -/
  | draining
  /-- `slab_destroy_child` has returned -/
  | destroyed
deriving DecidableEq

/-- `struct slab_child_pool`. -/
structure Pool where
  pages : List ℕ := []
  free : List Element := []
  migrated : List Element := []
  phase : Phase := .idle

structure State where
  /-- `num_elements` of the parent pool -/
  numElements : ℕ
  numPages : ℕ := 0
  owner : Element → Owner := fun _ => .pool 0
  numRemaining : ℕ → ℕ := fun _ => 0
  numPools : ℕ := 0
  pools : ℕ → Pool := fun _ => {}
  /-- the pool for which a page was allocated -/
  home : ℕ → ℕ := fun _ => 0
  /-- the elements that callers have, and have not passed to `slab_free` -/
  held : List Element := []
  /-- the elements that were returned by `slab_alloc` -/
  given : List Element := []
  /-- the elements that were passed to `slab_free` -/
  freed : List Element := []
  /-- the elements that were returned to their orphaned page -/
  returned : List Element := []
  /-- the pages whose memory was released -/
  released : List ℕ := []

/-- `slab_create_parent`. -/
def init (numElements : ℕ) : State where
  numElements := numElements

namespace State

def setPool (s : State) (p : ℕ) (pool : Pool) : State :=
  { s with pools := Function.update s.pools p pool }

/-- The elements of a page, the last one first. -/
def elements (s : State) (page : ℕ) : List Element :=
  ((List.range s.numElements).map (Element.mk page)).reverse

/-! ### Steps -/

/-- `p_atomic_dec_return` of an `unsigned`. -/
def decremented (n : ℕ) : ℕ := if n = 0 then 2 ^ 32 - 1 else n - 1

/-- `slab_free_orphaned`. -/
def freeOrphaned (s : State) (e : Element) : State :=
  match s.owner e with
  | .orphaned page =>
    { s with
      numRemaining := Function.update s.numRemaining page (decremented (s.numRemaining page))
      returned := e :: s.returned
      released :=
        if decremented (s.numRemaining page) = 0 then page :: s.released else s.released }
  | .pool _ => s

/-- The first loop body of `slab_destroy_child`. -/
def orphan (s : State) (page : ℕ) : State :=
  { s with
    numRemaining := Function.update s.numRemaining page s.numElements
    owner := fun e =>
      if e.page = page ∧ e.index < s.numElements then .orphaned page else s.owner e }

/-- `slab_destroy_child`, until the mutex is released. -/
def destroyChild (s : State) (p : ℕ) : State :=
  let pool := s.pools p
  let s := pool.pages.foldl orphan s
  let s := s.setPool p { pool with pages := [], migrated := [], phase := .draining }
  pool.migrated.foldl freeOrphaned s

/-- `slab_destroy_child`, one round of its last loop or its end. -/
def drain (s : State) (p : ℕ) : State :=
  match (s.pools p).free with
  | e :: free => (s.setPool p { s.pools p with free := free }).freeOrphaned e
  | [] => s.setPool p { s.pools p with phase := .destroyed }

/-- `slab_add_new_page`, when there is memory. -/
def addNewPage (s : State) (p : ℕ) : State :=
  let page := s.numPages
  { s with
    numPages := page + 1
    owner := fun e => if e.page = page ∧ e.index < s.numElements then .pool p else s.owner e
    home := Function.update s.home page p }.setPool p
      { s.pools p with
        free := s.elements page ++ (s.pools p).free
        pages := page :: (s.pools p).pages }

/-- The end of `slab_alloc`: the first element of the free list is returned. -/
def giveFirst (s : State) (p : ℕ) : State :=
  match (s.pools p).free with
  | e :: free =>
    { s with
      held := e :: s.held
      given := e :: s.given }.setPool p { s.pools p with free := free, phase := .idle }
  | [] => s.setPool p { s.pools p with phase := .idle }

/-- `slab_alloc`, until it needs the mutex. -/
def alloc (s : State) (p : ℕ) : State :=
  if (s.pools p).free = [] then s.setPool p { s.pools p with phase := .collecting }
  else s.giveFirst p

/-- `slab_alloc`, with the mutex held. -/
def collect (s : State) (p : ℕ) : State :=
  s.setPool p
    { s.pools p with free := (s.pools p).migrated, migrated := [], phase := .refilled }

/-- `slab_alloc`, after the mutex was released, with the result of `malloc`. -/
def refill (s : State) (p : ℕ) (memory : Bool) : State :=
  if (s.pools p).free = [] then
    if memory then (s.addNewPage p).giveFirst p else s.giveFirst p
  else s.giveFirst p

/-- `slab_free`, until it needs the mutex. -/
def free (s : State) (p : ℕ) (e : Element) : State :=
  let s := { s with held := s.held.erase e, freed := e :: s.freed }
  if s.owner e = .pool p then s.setPool p { s.pools p with free := e :: (s.pools p).free }
  else s.setPool p { s.pools p with phase := .freeing e }

/-- `slab_free`, with the mutex held. -/
def migrate (s : State) (p : ℕ) (e : Element) : State :=
  match s.owner e with
  | .pool q =>
    let s := s.setPool p { s.pools p with phase := .idle }
    s.setPool q { s.pools q with migrated := e :: (s.pools q).migrated }
  | .orphaned _ => s.setPool p { s.pools p with phase := .returning e }

/-- `slab_free`, after the mutex was released. -/
def giveBack (s : State) (p : ℕ) (e : Element) : State :=
  (s.setPool p { s.pools p with phase := .idle }).freeOrphaned e

end State

/-- What the threads of the program do. -/
inductive Action where
  /-- `slab_create_child` -/
  | createChild
  /-- `slab_alloc` is called -/
  | alloc (p : ℕ)
  /-- `slab_free` is called -/
  | free (p : ℕ) (e : Element)
  /-- `slab_destroy_child` is called and takes the mutex -/
  | destroyChild (p : ℕ)
  /-- the operation that is under way on a pool goes on; `malloc` may succeed -/
  | continue (p : ℕ) (memory : Bool)

/-- One step. -/
def step (s : State) : Action → Option State
  | .createChild => some { s with numPools := s.numPools + 1 }
  | .alloc p =>
    if p < s.numPools ∧ (s.pools p).phase = .idle then some (s.alloc p) else none
  | .free p e =>
    if p < s.numPools ∧ (s.pools p).phase = .idle ∧ e ∈ s.held then some (s.free p e) else none
  | .destroyChild p =>
    if p < s.numPools then
      if (s.pools p).phase = .idle then some (s.destroyChild p)
      else if (s.pools p).phase = .destroyed then some s
      else none
    else none
  | .continue p memory =>
    if p < s.numPools then
      match (s.pools p).phase with
      | .collecting => some (s.collect p)
      | .refilled => some (s.refill p memory)
      | .freeing e => some (s.migrate p e)
      | .returning e => some (s.giveBack p e)
      | .draining => some (s.drain p)
      | .idle | .destroyed => none
    else none

end Slab

end Util
