import Mesa.Util.Queue
import Mathlib.Tactic.Abel

/-!
# What every step of the job queue keeps

The queue keeps account of its jobs and of its fences, as long as no job is dropped from a full ring,
no worker terminates at a full ring that still holds jobs, and the threads are not killed while a
caller waits for a free slot.
-/

namespace Util

namespace Queue

/-! ### Accounts -/

/-- The job that a worker has taken and not executed. -/
def Worker.toExecute : Worker → Multiset Job
  | running j => {j}
  | _ => 0

/-- The job of a worker whose fence it has not signalled. -/
def Worker.inHand : Worker → Multiset Job
  | running j => {j}
  | ran j => {j}
  | _ => 0

namespace State

def toExecute (s : State) : Multiset Job := Slots.sum Worker.toExecute s.numThreads s.workers

def inHand (s : State) : Multiset Job := Slots.sum Worker.inHand s.numThreads s.workers

/-- The jobs that are neither signalled by a worker nor by a caller. -/
def pending (s : State) : Multiset Job :=
  (s.waiting : Multiset Job) + s.queued + s.inHand + s.dropping

/-- The ring is full. -/
def Full (s : State) : Prop := s.numQueued = s.maxJobs

end State

/-- The steps in which the loops over the ring do not come to a full ring that holds jobs. -/
def Careful (s : State) : Action → Prop
  | .drop f => s.Full → ∀ j ∈ s.queued, j.fence ≠ f
  | .cleanup _ => s.Full → s.queued = []
  | .kill => s.waiting = []
  | _ => True

instance (s : State) (a : Action) : Decidable (Careful s a) :=
  match a with
  | .drop f => inferInstanceAs (Decidable (s.numQueued = s.maxJobs → ∀ j ∈ s.queued, j.fence ≠ f))
  | .cleanup _ => inferInstanceAs (Decidable (s.numQueued = s.maxJobs → s.queued = []))
  | .kill => inferInstanceAs (Decidable (s.waiting = []))
  | .add _ | .resume _ | .take _ | .execute _ | .signal _ | .leave _ | .dropSignal _ => .isTrue trivial

/-- The indices of the ring agree with the number of its entries. -/
structure Layout (s : State) : Prop where
  read_lt : s.readIdx < s.maxJobs
  fits : s.numQueued ≤ s.maxJobs
  write_eq : s.writeIdx = Ring.index s.maxJobs s.readIdx s.numQueued

/-- Each job that was added is at one place. -/
structure Accounts (s : State) : Prop where
  nodup : (s.waiting ++ s.added).Nodup
  id_lt : ∀ j ∈ s.waiting ++ s.added, j.id < s.next
  parts : (s.added : Multiset Job)
    = s.queued + s.toExecute + s.executed + s.dropped + s.discarded
  took : (s.taken : Multiset Job) = s.toExecute + s.executed
  fifo : (s.taken ++ s.queued).Sublist s.added
  requested : ∀ j ∈ s.requested, j ∈ s.dropped

/-- The fences of the pending jobs are those that are not signalled. -/
structure Fences (pending : Multiset Job) (signalled : ℕ → Bool) : Prop where
  nodup : (pending.map Job.fence).Nodup
  iff : ∀ f, signalled f = false ↔ f ∈ pending.map Job.fence

/-- The workers terminate because the threads are killed, and leave an empty ring. -/
structure Shutdown (s : State) : Prop where
  leaving : ∀ w < s.numThreads, s.workers w = .leaving ∨ s.workers w = .done → s.killThreads
  killed : s.killThreads → s.waiting = []
  gone : ∀ w < s.numThreads, s.workers w = .done → s.numQueued = 0

/-- What every step keeps. -/
structure Inv (s : State) : Prop where
  layout : Layout s
  accounts : Accounts s
  fences : Fences s.pending s.signalled
  shutdown : Shutdown s

/-! ### Fences -/

theorem Fences.enter {p : Multiset Job} {signalled : ℕ → Bool} (h : Fences p signalled) {j : Job}
    (free : signalled j.fence = true) :
  Fences (j ::ₘ p) (Function.update signalled j.fence false)
  := by
  have fresh : j.fence ∉ p.map Job.fence := by
    intro mem
    rw [(h.iff _).2 mem] at free
    cases free
  constructor
  · rw [Multiset.map_cons]
    exact Multiset.nodup_cons.2 ⟨fresh, h.nodup⟩
  · intro f
    rw [Multiset.map_cons, Multiset.mem_cons]
    rcases eq_or_ne f j.fence with rfl | other
    · simp
    · rw [Function.update_of_ne other, h.iff]
      simp [other]

theorem Fences.signal {p : Multiset Job} {signalled : ℕ → Bool} {j : Job}
    (h : Fences (j ::ₘ p) signalled) :
  Fences p (Function.update signalled j.fence true)
  := by
  obtain ⟨nodup, iff⟩ := h
  rw [Multiset.map_cons] at nodup iff
  obtain ⟨fresh, rest⟩ := Multiset.nodup_cons.1 nodup
  constructor
  · exact rest
  · intro f
    rcases eq_or_ne f j.fence with rfl | other
    · simp [fresh]
    · rw [Function.update_of_ne other, iff, Multiset.mem_cons, or_iff_right other]

/-- A job is found by its fence. -/
theorem Fences.eq_of_fence {p : Multiset Job} {signalled : ℕ → Bool} (h : Fences p signalled)
    {j j' : Job} (hj : j ∈ p) (hj' : j' ∈ p) (same : j.fence = j'.fence) :
  j = j'
  := Multiset.inj_on_of_nodup_map h.nodup j hj j' hj' same

/-! ### Workers -/

theorem toExecute_setWorker (s : State) {w : ℕ} (hw : w < s.numThreads) (t : Worker) :
  (s.setWorker w t).toExecute + (s.workers w).toExecute = s.toExecute + t.toExecute
  := Slots.sum_update Worker.toExecute s.workers hw t

theorem inHand_setWorker (s : State) {w : ℕ} (hw : w < s.numThreads) (t : Worker) :
  (s.setWorker w t).inHand + (s.workers w).inHand = s.inHand + t.inHand
  := Slots.sum_update Worker.inHand s.workers hw t

/-! ### Adding jobs -/

section Put

variable {s : State} {j : Job}

theorem ring_put (h : Layout s) (room : s.numQueued < s.maxJobs) :
  (s.put j).ring = s.ring ++ [some j]
  := by
  unfold State.ring State.put
  rw [h.write_eq]
  exact Ring.window_push room (some j)

theorem queued_put (h : Layout s) (room : s.numQueued < s.maxJobs) :
  (s.put j).queued = s.queued ++ [j]
  := by
  rw [State.queued, ring_put h room, List.reduceOption_append]
  rfl

theorem Layout.put (h : Layout s) (room : s.numQueued < s.maxJobs) :
  Layout (s.put j)
  := by
  constructor
  · exact h.read_lt
  · exact room
  · change (s.writeIdx + 1) % s.maxJobs = Ring.index s.maxJobs s.readIdx (s.numQueued + 1)
    rw [h.write_eq, Ring.index_succ]

theorem pending_put (h : Layout s) (room : s.numQueued < s.maxJobs) :
  (s.put j).pending = j ::ₘ s.pending
  := by
  unfold State.pending
  rw [queued_put h room, ← Multiset.coe_add, ← Multiset.singleton_add]
  change (s.waiting : Multiset Job) + (s.queued + {j}) + s.inHand + s.dropping = _
  abel

theorem Accounts.put (acc : Accounts s) (h : Layout s) (room : s.numQueued < s.maxJobs)
    (fresh : j ∉ s.waiting ++ s.added) (lt : j.id < s.next) :
  Accounts (s.put j)
  := by
  have queued := queued_put (j := j) h room
  constructor
  · change (s.waiting ++ (s.added ++ [j])).Nodup
    rw [← List.append_assoc]
    apply List.nodup_append.2
    refine ⟨acc.nodup, List.nodup_singleton j, ?_⟩
    intro a ha b hb same
    rw [List.mem_singleton.1 hb] at same
    exact fresh (same ▸ ha)
  · intro k mem
    change k ∈ s.waiting ++ (s.added ++ [j]) at mem
    rw [← List.append_assoc, List.mem_append, List.mem_singleton] at mem
    rcases mem with old | rfl
    · exact acc.id_lt k old
    · exact lt
  · change ((s.added ++ [j] : List Job) : Multiset Job)
      = (s.put j).queued + s.toExecute + s.executed + s.dropped + s.discarded
    rw [queued, ← Multiset.coe_add, ← Multiset.coe_add, acc.parts]
    abel
  · exact acc.took
  · change (s.taken ++ (s.put j).queued).Sublist (s.added ++ [j])
    rw [queued, ← List.append_assoc]
    exact List.Sublist.append_right acc.fifo [j]
  · exact acc.requested

end Put

/-! ### Making a full ring larger -/

/-- The accounts do not depend on where in memory the jobs are. -/
theorem Accounts.of_queued_eq {s : State} (acc : Accounts s) {jobs : ℕ → Option Job}
    {max read write num : ℕ}
    (same : { s with
      jobs := jobs, maxJobs := max, readIdx := read, writeIdx := write,
      numQueued := num : State }.queued = s.queued) :
  Accounts { s with
    jobs := jobs, maxJobs := max, readIdx := read, writeIdx := write, numQueued := num }
  := by
  constructor
  · exact acc.nodup
  · exact acc.id_lt
  · rw [same]
    exact acc.parts
  · exact acc.took
  · rw [same]
    exact acc.fifo
  · exact acc.requested

theorem ring_resize {s : State} (h : Layout s) (full : s.Full) :
  s.resize.ring = s.ring
  := by
  have copied : Ring.scanOnce s.maxJobs s.writeIdx s.maxJobs s.readIdx
      = (List.range s.maxJobs).map (Ring.index s.maxJobs s.readIdx) := by
    rw [h.write_eq, full]
    exact Ring.scanOnce_eq_map_index h.read_lt
  change Ring.window (s.maxJobs + 8) (fun i =>
      (Ring.scanOnce s.maxJobs s.writeIdx s.maxJobs s.readIdx)[i]?.bind s.jobs) 0 s.numQueued
    = s.ring
  rw [copied]
  apply List.map_congr_left
  intro i mem
  have hi : i < s.maxJobs := full ▸ List.mem_range.1 mem
  have at_i : Ring.index (s.maxJobs + 8) 0 i = i := by
    rw [Ring.index, Nat.zero_add, Nat.mod_eq_of_lt (by omega)]
  rw [at_i]
  dsimp only
  rw [List.getElem?_map, List.getElem?_range hi]
  rfl

theorem Layout.resize {s : State} (h : Layout s) (full : s.Full) :
  Layout s.resize
  := by
  constructor
  · exact Nat.succ_pos _
  · change s.numQueued ≤ s.maxJobs + 8
    rw [full]
    exact Nat.le_add_right _ _
  · change (Ring.scanOnce s.maxJobs s.writeIdx s.maxJobs s.readIdx).length
      = Ring.index (s.maxJobs + 8) 0 s.numQueued
    rw [h.write_eq, full, Ring.scanOnce_eq_map_index h.read_lt, List.length_map,
      List.length_range, Ring.index, Nat.zero_add, Nat.mod_eq_of_lt (by omega)]

theorem queued_resize {s : State} (h : Layout s) (full : s.Full) :
  s.resize.queued = s.queued
  := by
  rw [State.queued, ring_resize h full, State.queued]

theorem pending_resize {s : State} (h : Layout s) (full : s.Full) :
  s.resize.pending = s.pending
  := by
  unfold State.pending
  rw [queued_resize h full]
  rfl

/-! ### Steps of callers that add jobs -/

section Add

variable {s : State}

theorem Accounts.enter (acc : Accounts s) (f : ℕ) :
  Accounts (s.enter f)
  := by
  constructor
  · exact acc.nodup
  · intro j mem
    exact Nat.lt_succ_of_lt (acc.id_lt j mem)
  · exact acc.parts
  · exact acc.took
  · exact acc.fifo
  · exact acc.requested

theorem Accounts.fresh (acc : Accounts s) (f : ℕ) :
  (⟨s.next, f⟩ : Job) ∉ s.waiting ++ s.added
  := by
  intro mem
  exact Nat.lt_irrefl _ (acc.id_lt _ mem)

theorem Shutdown.put (h : Shutdown s) (alive : ¬ s.killThreads) (j : Job) :
  Shutdown (s.put j)
  := by
  constructor
  · exact h.leaving
  · exact h.killed
  · intro w hw done
    exact absurd (h.leaving w hw (.inr done)) alive

/-- A job that waits for a free slot is in the accounts of nobody else. -/
theorem Accounts.wait (acc : Accounts s) {j : Job} (fresh : j ∉ s.waiting ++ s.added)
    (lt : j.id < s.next) :
  Accounts { s with waiting := j :: s.waiting }
  := by
  constructor
  · exact List.nodup_cons.2 ⟨fresh, acc.nodup⟩
  · intro k mem
    rcases List.mem_cons.1 mem with rfl | old
    · exact lt
    · exact acc.id_lt k old
  · exact acc.parts
  · exact acc.took
  · exact acc.fifo
  · exact acc.requested

theorem Inv.addJob (inv : Inv s) {f : ℕ} (free : s.signalled f = true) :
  Inv (s.addJob f)
  := by
  obtain ⟨layout, acc, fences, shutdown⟩ := inv
  unfold State.addJob
  split
  · exact ⟨layout, acc, fences, shutdown⟩
  rename_i alive
  have fences' : Fences ((⟨s.next, f⟩ : Job) ::ₘ s.pending) (s.enter f).signalled :=
    fences.enter free
  have acc' := acc.enter f
  have layout' : Layout (s.enter f) := ⟨layout.read_lt, layout.fits, layout.write_eq⟩
  have shutdown' : Shutdown (s.enter f) := ⟨shutdown.leaving, shutdown.killed, shutdown.gone⟩
  have fresh := acc.fresh f
  dsimp only
  split
  · rename_i full
    split
    · -- the ring is made larger
      have room : (s.enter f).resize.numQueued < (s.enter f).resize.maxJobs := by
        change s.numQueued < s.maxJobs + 8
        have : s.numQueued ≤ s.maxJobs := layout.fits
        omega
      have larger := layout'.resize full
      constructor
      · exact larger.put room
      · have moved : Accounts (s.enter f).resize :=
          acc'.of_queued_eq (queued_resize layout' full)
        exact moved.put larger room fresh (Nat.lt_succ_self _)
      · rw [pending_put larger room, pending_resize layout' full]
        exact fences'
      · have moved : Shutdown (s.enter f).resize :=
          ⟨shutdown.leaving, shutdown.killed, shutdown.gone⟩
        exact moved.put alive _
    · -- the caller waits
      constructor
      · exact ⟨layout.read_lt, layout.fits, layout.write_eq⟩
      · exact acc'.wait fresh (Nat.lt_succ_self _)
      · have more : { s.enter f with waiting := ⟨s.next, f⟩ :: s.waiting : State }.pending
            = ⟨s.next, f⟩ ::ₘ s.pending := by
          simp only [State.pending, ← Multiset.cons_coe, Multiset.cons_add]
          rfl
        exact more ▸ fences'
      · constructor
        · exact shutdown.leaving
        · intro kill
          exact absurd kill alive
        · exact shutdown.gone
  · rename_i notFull
    have room : (s.enter f).numQueued < (s.enter f).maxJobs :=
      Nat.lt_of_le_of_ne layout.fits notFull
    constructor
    · exact layout'.put room
    · exact acc'.put layout' room fresh (Nat.lt_succ_self _)
    · rw [pending_put layout' room]
      exact fences'
    · exact shutdown'.put alive _

theorem Inv.resume (inv : Inv s) {j : Job} (mem : j ∈ s.waiting)
    (notFull : s.numQueued ≠ s.maxJobs) :
  Inv ({ s with waiting := s.waiting.erase j }.put j)
  := by
  obtain ⟨layout, acc, fences, shutdown⟩ := inv
  have layout' : Layout { s with waiting := s.waiting.erase j } :=
    ⟨layout.read_lt, layout.fits, layout.write_eq⟩
  have room : s.numQueued < s.maxJobs := Nat.lt_of_le_of_ne layout.fits notFull
  have fewer : (s.waiting.erase j ++ s.added).Sublist (s.waiting ++ s.added) :=
    List.erase_sublist.append_right s.added
  have waits : (s.waiting : Multiset Job) = j ::ₘ (s.waiting.erase j : List Job) :=
    Multiset.coe_eq_coe.2 (List.perm_cons_erase mem)
  have alive : ¬ s.killThreads := by
    intro kill
    rw [shutdown.killed kill] at mem
    cases mem
  constructor
  · exact layout'.put room
  · have acc' : Accounts { s with waiting := s.waiting.erase j } := by
      constructor
      · exact acc.nodup.sublist fewer
      · intro k hk
        exact acc.id_lt k (fewer.subset hk)
      · exact acc.parts
      · exact acc.took
      · exact acc.fifo
      · exact acc.requested
    have once := List.nodup_append.1 acc.nodup
    apply acc'.put layout' room
    · intro again
      rcases List.mem_append.1 again with twice | added
      · exact once.1.not_mem_erase twice
      · exact once.2.2 j mem j added rfl
    · exact acc.id_lt j (List.mem_append_left _ mem)
  · rw [pending_put layout' room]
    have same : j ::ₘ { s with waiting := s.waiting.erase j : State }.pending = s.pending := by
      simp only [State.pending, waits, Multiset.cons_add]
      rfl
    rw [same]
    exact fences
  · have fewer : Shutdown { s with waiting := s.waiting.erase j } := by
      constructor
      · exact shutdown.leaving
      · intro kill
        exact absurd kill alive
      · exact shutdown.gone
    exact fewer.put alive j

end Add

/-! ### Steps of workers -/

section Work

variable {s : State} {w : ℕ}

theorem toExecute_eq (hw : w < s.numThreads) {t : Worker} (ht : s.workers w = t) (t' : Worker) :
  (s.setWorker w t').toExecute + t.toExecute = s.toExecute + t'.toExecute
  := ht ▸ toExecute_setWorker s hw t'

theorem inHand_eq (hw : w < s.numThreads) {t : Worker} (ht : s.workers w = t) (t' : Worker) :
  (s.setWorker w t').inHand + t.inHand = s.inHand + t'.inHand
  := ht ▸ inHand_setWorker s hw t'

/-- A worker that goes on with its loop. -/
theorem Shutdown.setWorker (h : Shutdown s) {t : Worker} (leaving : t ≠ .leaving)
    (done : t ≠ .done) :
  Shutdown (s.setWorker w t)
  := by
  constructor
  · intro v hv at_v
    change Function.update s.workers w t v = _ ∨ Function.update s.workers w t v = _ at at_v
    rcases eq_or_ne v w with rfl | other
    · rw [Function.update_self] at at_v
      rcases at_v with h | h
      · exact absurd h leaving
      · exact absurd h done
    · rw [Function.update_of_ne other] at at_v
      exact h.leaving v hv at_v
  · exact h.killed
  · intro v hv at_v
    change Function.update s.workers w t v = _ at at_v
    rcases eq_or_ne v w with rfl | other
    · rw [Function.update_self] at at_v
      exact absurd at_v done
    · rw [Function.update_of_ne other] at at_v
      exact h.gone v hv at_v

/-- The state after the first entry was taken from the ring. -/
def State.popped (s : State) : State :=
  { s with
    jobs := Function.update s.jobs s.readIdx none
    readIdx := (s.readIdx + 1) % s.maxJobs
    numQueued := s.numQueued - 1 }

theorem ring_popped (h : Layout s) (some : s.numQueued ≠ 0) :
  s.ring = s.jobs s.readIdx :: s.popped.ring
  := by
  obtain ⟨n, hn⟩ := Nat.exists_eq_succ_of_ne_zero some
  have fits := h.fits
  change Ring.window s.maxJobs s.jobs s.readIdx s.numQueued = s.jobs s.readIdx
    :: Ring.window s.maxJobs (Function.update s.jobs s.readIdx none)
      ((s.readIdx + 1) % s.maxJobs) (s.numQueued - 1)
  rw [hn] at fits ⊢
  exact Ring.window_pop h.read_lt fits none

theorem Layout.popped (h : Layout s) (some : s.numQueued ≠ 0) :
  Layout s.popped
  := by
  have := h.fits
  constructor
  · exact Nat.mod_lt _ (Nat.zero_lt_of_lt h.read_lt)
  · change s.numQueued - 1 ≤ s.maxJobs
    omega
  · change s.writeIdx
      = Ring.index s.maxJobs ((s.readIdx + 1) % s.maxJobs) (s.numQueued - 1)
    rw [h.write_eq, Ring.index_next, show s.numQueued - 1 + 1 = s.numQueued by omega]

theorem Inv.takeJob (inv : Inv s) (hw : w < s.numThreads) (idle : s.workers w = .idle)
    (alive : ¬ s.killThreads) (some : s.numQueued ≠ 0) :
  Inv (s.takeJob w)
  := by
  obtain ⟨layout, acc, fences, shutdown⟩ := inv
  have first := ring_popped layout some
  have layout' := layout.popped some
  have shutdown' : Shutdown s.popped := by
    constructor
    · exact shutdown.leaving
    · exact shutdown.killed
    · intro v hv done
      exact absurd (shutdown.leaving v hv (.inr done)) alive
  unfold State.takeJob
  dsimp only
  split
  · rename_i j entry
    rw [entry] at first
    have queued : s.queued = j :: s.popped.queued := by
      rw [State.queued, first, List.reduceOption_cons_of_some]
      rfl
    have exec := toExecute_eq hw idle (.running j)
    have hand := inHand_eq hw idle (.running j)
    simp only [Worker.toExecute, Worker.inHand, add_zero] at exec hand
    constructor
    · exact ⟨layout'.read_lt, layout'.fits, layout'.write_eq⟩
    · constructor
      · exact acc.nodup
      · exact acc.id_lt
      · change (s.added : Multiset Job) = s.popped.queued + (s.setWorker w (.running j)).toExecute
          + s.executed + s.dropped + s.discarded
        rw [acc.parts, queued, exec, ← Multiset.cons_coe, ← Multiset.singleton_add]
        abel
      · change ((s.taken ++ [j] : List Job) : Multiset Job)
          = (s.setWorker w (.running j)).toExecute + s.executed
        rw [exec, ← Multiset.coe_add, acc.took]
        change s.toExecute + s.executed + {j} = _
        abel
      · change (s.taken ++ [j] ++ s.popped.queued).Sublist s.added
        have fifo := acc.fifo
        rw [queued] at fifo
        rw [List.append_assoc]
        exact fifo
      · exact acc.requested
    · have same : s.pending = s.waiting + s.popped.queued + (s.setWorker w (.running j)).inHand
          + s.dropping := by
        rw [State.pending, queued, hand, ← Multiset.cons_coe, ← Multiset.singleton_add]
        abel
      rw [same] at fences
      exact fences
    · have going := shutdown'.setWorker (w := w) (t := .running j) (by simp) (by simp)
      exact ⟨going.leaving, going.killed, going.gone⟩
  · rename_i entry
    rw [entry] at first
    have queued : s.popped.queued = s.queued := by
      rw [State.queued, State.queued, first, List.reduceOption_cons_of_none]
    constructor
    · exact layout'
    · exact acc.of_queued_eq queued
    · have same : s.popped.pending = s.pending := by
        unfold State.pending
        rw [queued]
        rfl
      exact same ▸ fences
    · exact shutdown'

theorem Inv.execute (inv : Inv s) (hw : w < s.numThreads) {j : Job}
    (running : s.workers w = .running j) :
  Inv ({ s with executed := s.executed ++ [j] }.setWorker w (.ran j))
  := by
  obtain ⟨layout, acc, fences, shutdown⟩ := inv
  have exec := toExecute_eq hw running (.ran j)
  have hand := inHand_eq hw running (.ran j)
  simp only [Worker.toExecute, Worker.inHand, add_zero] at exec hand
  have hand' := add_right_cancel hand
  constructor
  · exact ⟨layout.read_lt, layout.fits, layout.write_eq⟩
  · constructor
    · exact acc.nodup
    · exact acc.id_lt
    · change (s.added : Multiset Job) = s.queued + (s.setWorker w (.ran j)).toExecute
        + ((s.executed ++ [j] : List Job) : Multiset Job) + s.dropped + s.discarded
      rw [acc.parts, ← exec, ← Multiset.coe_add]
      change _ = _ + _ + (_ + {j}) + _ + _
      abel
    · change (s.taken : Multiset Job) = (s.setWorker w (.ran j)).toExecute
        + ((s.executed ++ [j] : List Job) : Multiset Job)
      rw [acc.took, ← exec, ← Multiset.coe_add]
      change _ = _ + (_ + {j})
      abel
    · exact acc.fifo
    · exact acc.requested
  · have same : s.pending = s.waiting + s.queued + (s.setWorker w (.ran j)).inHand + s.dropping := by
      rw [State.pending, hand']
    rw [same] at fences
    exact fences
  · have going := shutdown.setWorker (w := w) (t := .ran j) (by simp) (by simp)
    exact ⟨going.leaving, going.killed, going.gone⟩

theorem Inv.signal (inv : Inv s) (hw : w < s.numThreads) {j : Job} (ran : s.workers w = .ran j) :
  Inv ((s.signal j.fence).setWorker w .idle)
  := by
  obtain ⟨layout, acc, fences, shutdown⟩ := inv
  have exec := toExecute_eq hw ran .idle
  have hand := inHand_eq hw ran .idle
  simp only [Worker.toExecute, Worker.inHand, add_zero] at exec hand
  constructor
  · exact ⟨layout.read_lt, layout.fits, layout.write_eq⟩
  · constructor
    · exact acc.nodup
    · exact acc.id_lt
    · change (s.added : Multiset Job) = s.queued + (s.setWorker w .idle).toExecute + s.executed
        + s.dropped + s.discarded
      rw [exec, acc.parts]
    · change (s.taken : Multiset Job) = (s.setWorker w .idle).toExecute + s.executed
      rw [exec, acc.took]
    · exact acc.fifo
    · exact acc.requested
  · have fewer : s.pending
        = j ::ₘ (s.waiting + s.queued + (s.setWorker w .idle).inHand + s.dropping) := by
      rw [State.pending, ← hand, ← Multiset.singleton_add]
      abel
    rw [fewer] at fences
    exact fences.signal
  · have going := shutdown.setWorker (w := w) (t := .idle) (by simp) (by simp)
    exact ⟨going.leaving, going.killed, going.gone⟩

end Work

/-! ### The end of the workers -/

/-- What the loop at the end of a worker leaves alone. -/
theorem foldl_discard_frame (s : State) (l : List ℕ) :
  ∃ jobs signalled discarded, l.foldl State.discard s
    = { s with jobs := jobs, signalled := signalled, discarded := discarded }
  := by
  induction l generalizing s with
  | nil => exact ⟨s.jobs, s.signalled, s.discarded, rfl⟩
  | cons i l ih =>
    obtain ⟨jobs, signalled, discarded, eq⟩ := ih (s.discard i)
    refine ⟨jobs, signalled, discarded, ?_⟩
    rw [List.foldl_cons, eq]
    unfold State.discard
    split
    · rfl
    · rfl

/-- The loop at the end of a worker signals the jobs of the slots that it comes to. -/
theorem foldl_discard {s : State} {l : List ℕ} (nodup : l.Nodup) {rest : Multiset Job}
    (h : Fences ((l.map s.jobs).reduceOption + rest) s.signalled) :
  (l.foldl State.discard s).discarded = s.discarded ++ (l.map s.jobs).reduceOption ∧
    Fences rest (l.foldl State.discard s).signalled
  := by
  induction l generalizing s with
  | nil =>
    refine ⟨(List.append_nil _).symm, ?_⟩
    simpa using h
  | cons i l ih =>
    obtain ⟨fresh, nodup'⟩ := List.nodup_cons.1 nodup
    rw [List.foldl_cons, List.map_cons]
    rw [List.map_cons] at h
    unfold State.discard
    split
    · rename_i j entry
      have others : l.map (Function.update s.jobs i none) = l.map s.jobs := by
        apply List.map_congr_left
        intro k hk
        rw [Function.update_of_ne]
        intro same
        exact fresh (same ▸ hk)
      rw [entry, List.reduceOption_cons_of_some] at h ⊢
      rw [← Multiset.cons_coe, Multiset.cons_add] at h
      have later := @ih
        { s.signal j.fence with
          jobs := Function.update s.jobs i none
          discarded := s.discarded ++ [j] } nodup' (others ▸ h.signal)
      rw [others] at later
      refine ⟨later.1.trans ?_, later.2⟩
      exact List.append_cons _ _ _ |>.symm
    · rename_i entry
      rw [entry, List.reduceOption_cons_of_none] at h ⊢
      exact ih nodup' h

/-- The loops over the ring come to all its entries when it is not full. -/
theorem slots_eq {s : State} (h : Layout s) (notFull : ¬ s.Full) :
  s.slots = (List.range s.numQueued).map (Ring.index s.maxJobs s.readIdx)
  := by
  unfold State.slots
  rw [h.write_eq]
  exact Ring.scan_eq_map_index h.read_lt (Nat.lt_of_le_of_ne h.fits notFull)

/-- The loops over the ring come to nothing when it is full. -/
theorem slots_of_full {s : State} (h : Layout s) (full : s.Full) :
  s.slots = []
  := by
  unfold State.slots
  rw [h.write_eq, full]
  exact Ring.scan_full h.read_lt _

theorem map_jobs_slots {s : State} (h : Layout s) (notFull : ¬ s.Full) :
  s.slots.map s.jobs = s.ring
  := by
  rw [slots_eq h notFull, List.map_map]
  rfl

/-- The jobs that the loop at the end of a worker comes to. -/
theorem slots_queued {s : State} (h : Layout s) (careful : s.Full → s.queued = []) :
  (s.slots.map s.jobs).reduceOption = s.queued ∧ s.slots.Nodup
  := by
  by_cases full : s.Full
  · rw [slots_of_full h full, careful full]
    exact ⟨rfl, List.nodup_nil⟩
  · rw [map_jobs_slots h full, slots_eq h full]
    exact ⟨rfl, Ring.nodup_map_index _ h.fits⟩

section Leave

variable {s : State} {w : ℕ}

theorem Inv.leave (inv : Inv s) (hw : w < s.numThreads) (idle : s.workers w = .idle)
    (kill : s.killThreads) :
  Inv (s.setWorker w .leaving)
  := by
  obtain ⟨layout, acc, fences, shutdown⟩ := inv
  have exec := toExecute_eq hw idle .leaving
  have hand := inHand_eq hw idle .leaving
  simp only [Worker.toExecute, Worker.inHand, add_zero] at exec hand
  constructor
  · exact ⟨layout.read_lt, layout.fits, layout.write_eq⟩
  · constructor
    · exact acc.nodup
    · exact acc.id_lt
    · rw [exec]
      exact acc.parts
    · rw [exec]
      exact acc.took
    · exact acc.fifo
    · exact acc.requested
  · have same : (s.setWorker w .leaving).pending = s.pending := by
      unfold State.pending
      rw [hand]
      rfl
    exact same ▸ fences
  · constructor
    · intro v hv _
      exact kill
    · exact shutdown.killed
    · intro v hv done
      change Function.update s.workers w .leaving v = _ at done
      rcases eq_or_ne v w with rfl | other
      · rw [Function.update_self] at done
        cases done
      · rw [Function.update_of_ne other] at done
        exact shutdown.gone v hv done

theorem Inv.cleanup (inv : Inv s) (hw : w < s.numThreads) (leaving : s.workers w = .leaving)
    (careful : s.Full → s.queued = []) :
  Inv (s.cleanup w)
  := by
  obtain ⟨layout, acc, fences, shutdown⟩ := inv
  have kill := shutdown.leaving w hw (.inl leaving)
  obtain ⟨queued, nodup⟩ := slots_queued layout careful
  have remaining : s.pending
      = s.queued + (s.waiting + s.inHand + s.dropping : Multiset Job) := by
    unfold State.pending
    abel
  rw [remaining, ← queued] at fences
  obtain ⟨discarded, fences'⟩ := foldl_discard nodup fences
  obtain ⟨jobs, sig, disc, eq⟩ := foldl_discard_frame s s.slots
  have exec := toExecute_eq hw leaving .done
  have hand := inHand_eq hw leaving .done
  simp only [Worker.toExecute, Worker.inHand, add_zero] at exec hand
  unfold State.cleanup
  rw [eq] at discarded fences' ⊢
  dsimp only at discarded fences' ⊢
  subst discarded
  rw [queued]
  constructor
  · constructor
    · change s.writeIdx < s.maxJobs
      rw [layout.write_eq]
      exact Ring.index_lt (Nat.zero_lt_of_lt layout.read_lt) _ _
    · exact Nat.zero_le _
    · change s.writeIdx = Ring.index s.maxJobs s.writeIdx 0
      rw [Ring.index_zero]
      rw [layout.write_eq]
      exact Ring.index_lt (Nat.zero_lt_of_lt layout.read_lt) _ _
  · constructor
    · exact acc.nodup
    · exact acc.id_lt
    · change (s.added : Multiset Job) = 0 + (s.setWorker w .done).toExecute + s.executed + s.dropped
        + ((s.discarded ++ s.queued : List Job) : Multiset Job)
      rw [exec, acc.parts, ← Multiset.coe_add]
      abel
    · change (s.taken : Multiset Job) = (s.setWorker w .done).toExecute + s.executed
      rw [exec, acc.took]
    · change (s.taken ++ []).Sublist s.added
      rw [List.append_nil]
      exact (List.sublist_append_left _ _).trans acc.fifo
    · exact acc.requested
  · have same : (s.waiting + s.inHand + s.dropping : Multiset Job)
        = s.waiting + 0 + (s.setWorker w .done).inHand + s.dropping := by
      rw [hand, add_zero]
    rw [same] at fences'
    exact fences'
  · constructor
    · intro v hv _
      exact kill
    · exact shutdown.killed
    · intro v hv _
      rfl

theorem Inv.kill (inv : Inv s) (careful : s.waiting = []) :
  Inv { s with killThreads := true }
  := by
  obtain ⟨layout, acc, fences, shutdown⟩ := inv
  constructor
  · exact ⟨layout.read_lt, layout.fits, layout.write_eq⟩
  · exact ⟨acc.nodup, acc.id_lt, acc.parts, acc.took, acc.fifo, acc.requested⟩
  · exact fences
  · constructor
    · intro _ _ _
      rfl
    · intro _
      exact careful
    · exact shutdown.gone

end Leave

/-! ### Dropping jobs -/

section Drop

variable {s : State} {f : ℕ}

/-- `util_queue_drop_job` looks for a job with the given fence. -/
def State.hasFence (s : State) (f i : ℕ) : Bool := (s.jobs i).any (Job.fence · = f)

theorem mem_ring {j : Job} (mem : j ∈ s.queued) :
  some j ∈ s.ring
  := List.reduceOption_mem_iff.1 mem

/-- A job that is not found is not in the ring. -/
theorem not_queued_of_find (h : Layout s) (careful : s.Full → ∀ j ∈ s.queued, j.fence ≠ f)
    (missing : s.slots.find? (s.hasFence f) = none) :
  ∀ j ∈ s.queued, j.fence ≠ f
  := by
  by_cases full : s.Full
  · exact careful full
  · intro j mem same
    have entry := mem_ring mem
    rw [← map_jobs_slots h full] at entry
    obtain ⟨i, hi, at_i⟩ := List.mem_map.1 entry
    apply List.find?_eq_none.1 missing i hi
    rw [State.hasFence, at_i]
    exact decide_eq_true same

/-- A job that is found is in the ring. -/
theorem entry_of_find (h : Layout s) {i : ℕ} (found : s.slots.find? (s.hasFence f) = some i) :
  ∃ k j, k < s.numQueued ∧ i = Ring.index s.maxJobs s.readIdx k ∧ s.jobs i = some j ∧ j.fence = f
  := by
  have mem := List.mem_of_find?_eq_some found
  have notFull : ¬ s.Full := by
    intro full
    rw [slots_of_full h full] at mem
    cases mem
  rw [slots_eq h notFull] at mem
  obtain ⟨k, hk, rfl⟩ := List.mem_map.1 mem
  have here : s.hasFence f (Ring.index s.maxJobs s.readIdx k) = true := List.find?_some found
  obtain ⟨j, at_i, fence⟩ := (Option.any_eq_true _ _).1 here
  exact ⟨k, j, List.mem_range.1 hk, rfl, at_i, of_decide_eq_true fence⟩

theorem Inv.drop_missing (inv : Inv s) (absent : ∀ j ∈ s.queued, j.fence ≠ f) :
  Inv { s with requested := s.requested ++ s.queued.filter (Job.fence · = f) }
  := by
  obtain ⟨layout, acc, fences, shutdown⟩ := inv
  have none : s.queued.filter (Job.fence · = f) = [] := by
    apply List.filter_eq_nil_iff.2
    intro j mem same
    exact absent j mem (of_decide_eq_true same)
  rw [none, List.append_nil]
  exact ⟨layout, acc, fences, shutdown⟩

theorem Inv.drop_found (inv : Inv s) {k : ℕ} {j : Job} (hk : k < s.numQueued)
    (entry : s.jobs (Ring.index s.maxJobs s.readIdx k) = some j) :
  Inv { s with
    requested := s.requested ++ s.queued.filter (Job.fence · = j.fence)
    jobs := Function.update s.jobs (Ring.index s.maxJobs s.readIdx k) none
    dropping := j :: s.dropping
    dropped := s.dropped ++ [j] }
  := by
  obtain ⟨layout, acc, fences, shutdown⟩ := inv
  have at_k : s.ring[k]? = some (some j) := by
    rw [State.ring, Ring.window, List.getElem?_map, List.getElem?_range hk, Option.map_some, entry]
  obtain ⟨fewer, perm⟩ := Ring.reduceOption_set_none at_k
  have ring : Ring.window s.maxJobs
      (Function.update s.jobs (Ring.index s.maxJobs s.readIdx k) none) s.readIdx s.numQueued
      = s.ring.set k none := Ring.window_set hk layout.fits none
  rw [← ring] at fewer perm
  have mem : j ∈ s.pending := by
    have here : j ∈ (s.queued : Multiset Job) := by
      rw [State.queued, perm]
      exact Multiset.mem_cons_self _ _
    simp only [State.pending, Multiset.mem_add]
    exact .inl (.inl (.inr here))
  constructor
  · exact ⟨layout.read_lt, layout.fits, layout.write_eq⟩
  · constructor
    · exact acc.nodup
    · exact acc.id_lt
    · have parts := acc.parts
      rw [State.queued, perm, ← Multiset.singleton_add] at parts
      change (s.added : Multiset Job) = _ + s.toExecute + s.executed
        + ((s.dropped ++ [j] : List Job) : Multiset Job) + s.discarded
      rw [parts, ← Multiset.coe_add]
      change _ = _ + _ + _ + (_ + {j}) + _
      simp only [State.queued, State.ring]
      abel
    · exact acc.took
    · have shorter := (List.Sublist.refl s.taken).append fewer
      exact shorter.trans acc.fifo
    · intro j' mem'
      apply List.mem_append.2
      rcases List.mem_append.1 mem' with old | new
      · exact .inl (acc.requested j' old)
      · right
        obtain ⟨here, same⟩ := List.mem_filter.1 new
        have pending' : j' ∈ s.pending := by
          simp only [State.pending, Multiset.mem_add]
          exact .inl (.inl (.inr here))
        exact List.mem_singleton.2 (fences.eq_of_fence pending' mem (of_decide_eq_true same))
  · have same : s.pending = { s with
        requested := s.requested ++ s.queued.filter (Job.fence · = j.fence)
        jobs := Function.update s.jobs (Ring.index s.maxJobs s.readIdx k) none
        dropping := j :: s.dropping
        dropped := s.dropped ++ [j] : State }.pending := by
      unfold State.pending
      rw [State.queued, perm, ← Multiset.cons_coe, ← Multiset.singleton_add,
        ← Multiset.singleton_add]
      simp only [State.queued, State.ring]
      change _ = (s.waiting : Multiset Job) + _ + s.inHand + ({j} + s.dropping)
      abel
    rw [same] at fences
    exact fences
  · exact ⟨shutdown.leaving, shutdown.killed, shutdown.gone⟩

theorem Inv.dropJob (inv : Inv s) (careful : s.Full → ∀ j ∈ s.queued, j.fence ≠ f) :
  Inv (s.dropJob f)
  := by
  unfold State.dropJob
  dsimp only
  split
  · rename_i i found
    obtain ⟨k, j, hk, rfl, entry, rfl⟩ := entry_of_find inv.layout found
    rw [entry]
    exact inv.drop_found hk entry
  · rename_i missing
    exact inv.drop_missing (not_queued_of_find inv.layout careful missing)

theorem Inv.dropSignal (inv : Inv s) {j : Job} (mem : j ∈ s.dropping) :
  Inv ({ s with dropping := s.dropping.erase j }.signal j.fence)
  := by
  obtain ⟨layout, acc, fences, shutdown⟩ := inv
  have split : (s.dropping : Multiset Job) = j ::ₘ (s.dropping.erase j : List Job) :=
    Multiset.coe_eq_coe.2 (List.perm_cons_erase mem)
  constructor
  · exact ⟨layout.read_lt, layout.fits, layout.write_eq⟩
  · exact ⟨acc.nodup, acc.id_lt, acc.parts, acc.took, acc.fifo, acc.requested⟩
  · rw [State.pending, split, Multiset.add_cons] at fences
    exact fences.signal
  · exact ⟨shutdown.leaving, shutdown.killed, shutdown.gone⟩

end Drop

end Queue

end Util
