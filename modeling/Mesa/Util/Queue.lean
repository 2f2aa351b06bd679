import Mesa.Data.Ring
import Mesa.Data.Slots
import Mesa.Flow.Transition

/-!
# The job queue

The queue of `u_queue.c`: jobs are added to a ring of slots and taken from it by worker threads.  The
code is cut at its locks: what a thread does while it holds the lock of the queue is one step, and
what it does with the lock released is a step for each effect that others can see.  Waiting on a
condition is a step that is not enabled.

A job stands for the members of `struct util_queue_job` that are set together, with the number
under which it was added.  A slot whose job is `NULL` is `none`.  Besides the fields of the source, a
state records what was done so far.
-/

namespace Util

namespace Queue

/-! ### States -/

/-- `struct util_queue_job`, of one call to `util_queue_add_job`. -/
structure Job where
  id : ℕ
  fence : ℕ
deriving DecidableEq

/-- Where a worker is in `util_queue_thread_func`. -/
inductive Worker where
  /-- before the lock is taken, or waiting for a job -/
  | idle
  /-- with a job that has not been executed -/
  | running (j : Job)
  /-- with a job whose fence has not been signalled -/
  | ran (j : Job)
  /-- past the loop, before the remaining jobs are signalled -/
  | leaving
  | done
deriving DecidableEq

/-- `struct util_queue` with the fences, the threads, and the callers that are inside of
`util_queue_add_job` and `util_queue_drop_job`. -/
structure State where
  jobs : ℕ → Option Job
  maxJobs : ℕ
  readIdx : ℕ := 0
  writeIdx : ℕ := 0
  numQueued : ℕ := 0
  killThreads : Bool := false
  /-- `UTIL_QUEUE_INIT_RESIZE_IF_FULL` -/
  resizeIfFull : Bool
  numThreads : ℕ
  workers : ℕ → Worker
  signalled : ℕ → Bool
  /-- the jobs whose callers wait until there is a free slot -/
  waiting : List Job := []
  /-- the jobs that were dropped and whose fences have not been signalled -/
  dropping : List Job := []
  /-- the number of jobs for which `util_queue_add_job` was entered -/
  next : ℕ := 0
  /-- the jobs that were put into the ring, in this order -/
  added : List Job := []
  /-- the jobs that workers took from the ring, in this order -/
  taken : List Job := []
  executed : List Job := []
  dropped : List Job := []
  /-- the jobs that were in the ring when they were to be dropped -/
  requested : List Job := []
  /-- the jobs that were signalled when a worker terminated -/
  discarded : List Job := []

/-- `util_queue_init`. -/
def init (maxJobs numThreads : ℕ) (resizeIfFull : Bool) : State where
  jobs _ := none
  maxJobs := maxJobs
  resizeIfFull := resizeIfFull
  numThreads := numThreads
  workers _ := .idle
  signalled _ := true

namespace State

/-- The slots that the loops of `util_queue_drop_job` and of the end of `util_queue_thread_func`
come to. -/
def slots (s : State) : List ℕ := Ring.scan s.maxJobs s.writeIdx s.maxJobs s.readIdx

/-- The jobs in the ring between `read_idx` and `write_idx`, of which there are `num_queued`. -/
def ring (s : State) : List (Option Job) := Ring.window s.maxJobs s.jobs s.readIdx s.numQueued

/-- The jobs in the ring without the empty entries that dropped jobs leave. -/
def queued (s : State) : List Job := s.ring.reduceOption

/-- `util_queue_fence_signal`. -/
def signal (s : State) (f : ℕ) : State := { s with signalled := Function.update s.signalled f true }

def setWorker (s : State) (w : ℕ) (t : Worker) : State :=
  { s with workers := Function.update s.workers w t }

/-! ### Steps -/

/-- The part of `util_queue_add_job` that makes a full queue larger. -/
def resize (s : State) : State :=
  let copied := Ring.scanOnce s.maxJobs s.writeIdx s.maxJobs s.readIdx
  { s with
    jobs := fun i => copied[i]?.bind s.jobs
    readIdx := 0
    writeIdx := copied.length
    maxJobs := s.maxJobs + 8 }

/-- The last part of `util_queue_add_job`. -/
def put (s : State) (j : Job) : State :=
  { s with
    jobs := Function.update s.jobs s.writeIdx (some j)
    writeIdx := (s.writeIdx + 1) % s.maxJobs
    numQueued := s.numQueued + 1
    added := s.added ++ [j] }

/-- The part of `util_queue_add_job` before the ring is looked at. -/
def enter (s : State) (f : ℕ) : State :=
  { s with
    signalled := Function.update s.signalled f false
    next := s.next + 1 }

/-- `util_queue_add_job`, until it returns or waits. -/
def addJob (s : State) (f : ℕ) : State :=
  if s.killThreads then s
  else
    let j : Job := ⟨s.next, f⟩
    let s := s.enter f
    if s.numQueued = s.maxJobs then
      if s.resizeIfFull then s.resize.put j
      else { s with waiting := j :: s.waiting }
    else s.put j

/-- One round of the loop of `util_queue_thread_func` as far as the lock is held. -/
def takeJob (s : State) (w : ℕ) : State :=
  let s' := { s with
    jobs := Function.update s.jobs s.readIdx none
    readIdx := (s.readIdx + 1) % s.maxJobs
    numQueued := s.numQueued - 1 }
  match s.jobs s.readIdx with
  | some j => { s' with taken := s.taken ++ [j] }.setWorker w (.running j)
  | none => s'

/-- The loop body of the end of `util_queue_thread_func`. -/
def discard (s : State) (i : ℕ) : State :=
  match s.jobs i with
  | some j =>
    { s.signal j.fence with
      jobs := Function.update s.jobs i none
      discarded := s.discarded ++ [j] }
  | none => s

/-- The end of `util_queue_thread_func`. -/
def cleanup (s : State) (w : ℕ) : State :=
  let s := s.slots.foldl discard s
  { s with
    readIdx := s.writeIdx
    numQueued := 0 }.setWorker w .done

/-- The part of `util_queue_drop_job` in which the lock is held. -/
def dropJob (s : State) (f : ℕ) : State :=
  let s := { s with requested := s.requested ++ s.queued.filter (Job.fence · = f) }
  match s.slots.find? fun i => (s.jobs i).any (Job.fence · = f) with
  | some i =>
    { s with
      jobs := Function.update s.jobs i none
      dropping := (s.jobs i).toList ++ s.dropping
      dropped := s.dropped ++ (s.jobs i).toList }
  | none => s

end State

/-- What the threads of the program do. -/
inductive Action where
  /-- `util_queue_add_job` is called with a fence -/
  | add (f : ℕ)
  /-- a caller that waits in `util_queue_add_job` finds a free slot -/
  | resume (j : Job)
  /-- a worker takes a job -/
  | take (w : ℕ)
  | execute (w : ℕ)
  | signal (w : ℕ)
  /-- a worker finds that the threads are to be killed -/
  | leave (w : ℕ)
  /-- a worker signals the remaining jobs and terminates -/
  | cleanup (w : ℕ)
  /-- `util_queue_killall_and_wait` is entered -/
  | kill
  /-- `util_queue_drop_job` looks for the job of a fence -/
  | drop (f : ℕ)
  /-- `util_queue_drop_job` signals the fence of the job that it removed -/
  | dropSignal (j : Job)
deriving DecidableEq

/-- One step of one thread. -/
def step (s : State) : Action → Option State
  | .add f => if s.signalled f then some (s.addJob f) else none
  | .resume j =>
    if j ∈ s.waiting ∧ s.numQueued ≠ s.maxJobs then
      some ({ s with waiting := s.waiting.erase j }.put j)
    else none
  | .take w =>
    if w < s.numThreads ∧ s.workers w = .idle ∧ ¬ s.killThreads ∧ s.numQueued ≠ 0 then
      some (s.takeJob w)
    else none
  | .execute w =>
    if w < s.numThreads then
      match s.workers w with
      | .running j => some ({ s with executed := s.executed ++ [j] }.setWorker w (.ran j))
      | _ => none
    else none
  | .signal w =>
    if w < s.numThreads then
      match s.workers w with
      | .ran j => some ((s.signal j.fence).setWorker w .idle)
      | _ => none
    else none
  | .leave w =>
    if w < s.numThreads ∧ s.workers w = .idle ∧ s.killThreads then
      some (s.setWorker w .leaving)
    else none
  | .cleanup w =>
    if w < s.numThreads ∧ s.workers w = .leaving then some (s.cleanup w) else none
  | .kill => some { s with killThreads := true }
  | .drop f => some (s.dropJob f)
  | .dropSignal j =>
    if j ∈ s.dropping then
      some ({ s with dropping := s.dropping.erase j }.signal j.fence)
    else none

end Queue

end Util
