import Mesa.Util.QueueInvariant

/-!
# What holds in every run of the job queue

Jobs are executed once and in the order in which they were added, or they are dropped or discarded,
and all fences are signalled in the end, in every run whose steps are careful.
-/

namespace Util

namespace Queue

/-! ### Runs -/

theorem Inv.init {maxJobs : ℕ} (h : 0 < maxJobs) (numThreads : ℕ) (resizeIfFull : Bool) :
  Inv (init maxJobs numThreads resizeIfFull)
  := by
  have noneToExecute : (Queue.init maxJobs numThreads resizeIfFull).toExecute = 0 :=
    Slots.sum_eq_zero fun _ _ => rfl
  have noneInHand : (Queue.init maxJobs numThreads resizeIfFull).inHand = 0 :=
    Slots.sum_eq_zero fun _ _ => rfl
  constructor
  · exact ⟨h, Nat.zero_le _, (Nat.zero_mod _).symm⟩
  · constructor
    · exact List.nodup_nil
    · intro j mem
      cases mem
    · rw [noneToExecute]
      rfl
    · rw [noneToExecute]
      rfl
    · exact List.Sublist.refl _
    · intro j mem
      cases mem
  · have nothing : (Queue.init maxJobs numThreads resizeIfFull).pending = 0 := by
      rw [State.pending, noneInHand]
      rfl
    rw [nothing]
    constructor
    · exact Multiset.nodup_zero
    · intro f
      simp [Queue.init]
  · constructor
    · intro w _ at_w
      rcases at_w with h | h
      · cases h
      · cases h
    · intro kill
      cases kill
    · intro w _ at_w
      cases at_w

/-- Every careful step keeps the accounts. -/
theorem Inv.step {s s' : State} {a : Action} (inv : Inv s) (careful : Careful s a)
    (h : step s a = some s') :
  Inv s'
  := by
  cases a with
  | add f =>
    obtain ⟨free, ⟨⟩⟩ := Option.ite_none_right_eq_some.1 h
    exact inv.addJob free
  | resume j =>
    obtain ⟨⟨mem, notFull⟩, ⟨⟩⟩ := Option.ite_none_right_eq_some.1 h
    exact inv.resume mem notFull
  | take w =>
    obtain ⟨⟨hw, idle, alive, some⟩, ⟨⟩⟩ := Option.ite_none_right_eq_some.1 h
    exact inv.takeJob hw idle alive some
  | execute w =>
    obtain ⟨hw, h⟩ := Option.ite_none_right_eq_some.1 h
    split at h
    · rename_i j running
      obtain rfl := Option.some.inj h
      exact inv.execute hw running
    · cases h
  | signal w =>
    obtain ⟨hw, h⟩ := Option.ite_none_right_eq_some.1 h
    split at h
    · rename_i j ran
      obtain rfl := Option.some.inj h
      exact inv.signal hw ran
    · cases h
  | leave w =>
    obtain ⟨⟨hw, idle, kill⟩, ⟨⟩⟩ := Option.ite_none_right_eq_some.1 h
    exact inv.leave hw idle kill
  | cleanup w =>
    obtain ⟨⟨hw, leaving⟩, ⟨⟩⟩ := Option.ite_none_right_eq_some.1 h
    exact inv.cleanup hw leaving careful
  | kill =>
    obtain rfl := Option.some.inj h
    exact inv.kill careful
  | drop f =>
    obtain rfl := Option.some.inj h
    exact inv.dropJob careful
  | dropSignal j =>
    obtain ⟨mem, ⟨⟩⟩ := Option.ite_none_right_eq_some.1 h
    exact inv.dropSignal mem

/-! ### The end of runs -/

/-- The steps that go on without a caller that starts something. -/
def Action.IsInternal : Action → Prop
  | .add _ | .kill | .drop _ => False
  | _ => True

/-- No step is left for those that work on what was started. -/
def State.Settled (s : State) : Prop := ∀ a : Action, a.IsInternal → step s a = none

/-- How much a worker has left to do. -/
def Worker.work : Worker → ℕ
  | running _ => 4
  | ran _ => 3
  | idle => 2
  | leaving => 1
  | done => 0

/-- How much is left to do. -/
def State.work (s : State) : ℕ :=
  4 * s.waiting.length + 3 * s.numQueued + Slots.sum Worker.work s.numThreads s.workers
    + s.dropping.length

theorem work_setWorker (s : State) {w : ℕ} (hw : w < s.numThreads) {t : Worker}
    (ht : s.workers w = t) (t' : Worker) :
  (s.setWorker w t').work + t.work = s.work + t'.work
  := by
  have sum := Slots.sum_update Worker.work s.workers hw t'
  rw [ht] at sum
  change 4 * s.waiting.length + 3 * s.numQueued
    + Slots.sum Worker.work s.numThreads (Function.update s.workers w t') + s.dropping.length
    + t.work = 4 * s.waiting.length + 3 * s.numQueued
    + Slots.sum Worker.work s.numThreads s.workers + s.dropping.length + t'.work
  omega

theorem work_takeJob {s : State} {w : ℕ} (hw : w < s.numThreads) (idle : s.workers w = .idle)
    (some : s.numQueued ≠ 0) :
  (s.takeJob w).work < s.work
  := by
  have popped : s.popped.work + 3 = s.work := by
    change 4 * s.waiting.length + 3 * (s.numQueued - 1)
      + Slots.sum Worker.work s.numThreads s.workers + s.dropping.length + 3
      = 4 * s.waiting.length + 3 * s.numQueued
      + Slots.sum Worker.work s.numThreads s.workers + s.dropping.length
    omega
  unfold State.takeJob
  dsimp only
  split
  · rename_i j _
    have set := work_setWorker { s.popped with taken := s.taken ++ [j] } hw idle (.running j)
    change _ + 2 = s.popped.work + 4 at set
    change ({ s.popped with taken := s.taken ++ [j] }.setWorker w (.running j)).work < s.work
    omega
  · change s.popped.work < s.work
    omega

theorem work_cleanup {s : State} {w : ℕ} (hw : w < s.numThreads) (leaving : s.workers w = .leaving) :
  (s.cleanup w).work < s.work
  := by
  obtain ⟨jobs, sig, disc, eq⟩ := foldl_discard_frame s s.slots
  have set := work_setWorker s hw leaving .done
  unfold State.cleanup
  rw [eq]
  change 4 * s.waiting.length + 3 * 0
    + Slots.sum Worker.work s.numThreads (Function.update s.workers w .done) + s.dropping.length
    < s.work
  change 4 * s.waiting.length + 3 * s.numQueued
    + Slots.sum Worker.work s.numThreads (Function.update s.workers w .done) + s.dropping.length
    + 1 = s.work + 0 at set
  omega

/-- The steps that work on what was started do not go on forever. -/
theorem work_lt_of_step {s s' : State} {a : Action} (internal : a.IsInternal)
    (h : step s a = some s') :
  s'.work < s.work
  := by
  cases a with
  | add f => exact internal.elim
  | kill => exact internal.elim
  | drop f => exact internal.elim
  | resume j =>
    obtain ⟨⟨mem, notFull⟩, ⟨⟩⟩ := Option.ite_none_right_eq_some.1 h
    have fewer := List.length_erase_of_mem mem
    have := List.length_pos_of_mem mem
    change 4 * (s.waiting.erase j).length + 3 * (s.numQueued + 1) + _ + _
      < 4 * s.waiting.length + 3 * s.numQueued + _ + _
    rw [fewer]
    change _ + Slots.sum Worker.work s.numThreads s.workers + s.dropping.length
      < _ + Slots.sum Worker.work s.numThreads s.workers + s.dropping.length
    omega
  | take w =>
    obtain ⟨⟨hw, idle, alive, some⟩, ⟨⟩⟩ := Option.ite_none_right_eq_some.1 h
    exact work_takeJob hw idle some
  | execute w =>
    obtain ⟨hw, h⟩ := Option.ite_none_right_eq_some.1 h
    split at h
    · rename_i j running
      obtain rfl := Option.some.inj h
      have set := work_setWorker { s with executed := s.executed ++ [j] } hw running (.ran j)
      change _ + 4 = s.work + 3 at set
      omega
    · cases h
  | signal w =>
    obtain ⟨hw, h⟩ := Option.ite_none_right_eq_some.1 h
    split at h
    · rename_i j ran
      obtain rfl := Option.some.inj h
      have set := work_setWorker (s.signal j.fence) hw ran .idle
      change _ + 3 = s.work + 2 at set
      omega
    · cases h
  | leave w =>
    obtain ⟨⟨hw, idle, kill⟩, ⟨⟩⟩ := Option.ite_none_right_eq_some.1 h
    have set := work_setWorker s hw idle .leaving
    change _ + 2 = s.work + 1 at set
    omega
  | cleanup w =>
    obtain ⟨⟨hw, leaving⟩, ⟨⟩⟩ := Option.ite_none_right_eq_some.1 h
    exact work_cleanup hw leaving
  | dropSignal j =>
    obtain ⟨mem, ⟨⟩⟩ := Option.ite_none_right_eq_some.1 h
    have fewer := List.length_erase_of_mem mem
    have := List.length_pos_of_mem mem
    change 4 * s.waiting.length + 3 * s.numQueued + Slots.sum Worker.work s.numThreads s.workers
        + (s.dropping.erase j).length
      < 4 * s.waiting.length + 3 * s.numQueued + Slots.sum Worker.work s.numThreads s.workers
        + s.dropping.length
    omega

/-- Nothing is pending when no step is left. -/
theorem Inv.settled {s : State} (inv : Inv s) (threads : 0 < s.numThreads) (settled : s.Settled) :
  s.queued = [] ∧ s.toExecute = 0 ∧ s.pending = 0
  := by
  have idle : ∀ w < s.numThreads, s.workers w = .done ∨
      (s.workers w = .idle ∧ s.numQueued = 0) := by
    intro w hw
    cases at_w : s.workers w with
    | idle =>
      right
      refine ⟨rfl, ?_⟩
      by_contra some
      by_cases kill : s.killThreads
      · have enabled := settled (.leave w) trivial
        simp [Queue.step, hw, at_w, kill] at enabled
      · have enabled := settled (.take w) trivial
        simp [Queue.step, hw, at_w, kill, some] at enabled
    | running j =>
      have enabled := settled (.execute w) trivial
      simp [Queue.step, hw, at_w] at enabled
    | ran j =>
      have enabled := settled (.signal w) trivial
      simp [Queue.step, hw, at_w] at enabled
    | leaving =>
      have enabled := settled (.cleanup w) trivial
      simp [Queue.step, hw, at_w] at enabled
    | done => exact .inl rfl
  have empty : s.numQueued = 0 := by
    rcases idle 0 threads with done | ⟨-, h⟩
    · exact inv.shutdown.gone 0 threads done
    · exact h
  have queued : s.queued = [] := by
    rw [State.queued, State.ring, empty]
    rfl
  have toExecute : s.toExecute = 0 := by
    apply Slots.sum_eq_zero
    intro w hw
    rcases idle w hw with done | ⟨h, -⟩
    · rw [done]
      rfl
    · rw [h]
      rfl
  have inHand : s.inHand = 0 := by
    apply Slots.sum_eq_zero
    intro w hw
    rcases idle w hw with done | ⟨h, -⟩
    · rw [done]
      rfl
    · rw [h]
      rfl
  have waiting : s.waiting = [] := by
    apply List.eq_nil_iff_forall_not_mem.2
    intro j mem
    have enabled := settled (.resume j) trivial
    have room : s.numQueued ≠ s.maxJobs := by
      have := inv.layout.read_lt
      omega
    simp [Queue.step, mem, room] at enabled
  have dropping : s.dropping = [] := by
    apply List.eq_nil_iff_forall_not_mem.2
    intro j mem
    have enabled := settled (.dropSignal j) trivial
    simp [Queue.step, mem] at enabled
  refine ⟨queued, toExecute, ?_⟩
  rw [State.pending, queued, inHand, waiting, dropping]
  rfl

/-- What is expected of the queue in a state. -/
structure Sound (s : State) : Prop where
  /-- `num_queued` is the number of entries from `read_idx` to `write_idx` -/
  counted : s.numQueued ≤ s.maxJobs ∧ s.writeIdx = (s.readIdx + s.numQueued) % s.maxJobs
  /-- each job that was added is at one place -/
  once : s.added.Nodup ∧ (s.added : Multiset Job)
    = s.queued + s.toExecute + s.executed + s.dropped + s.discarded
  /-- the jobs are taken from the ring in the order in which they were added -/
  fifo : s.taken.Sublist s.added ∧ (s.taken : Multiset Job) = s.toExecute + s.executed
  /-- a job that was to be dropped and that no worker had taken is not executed -/
  drops : ∀ j ∈ s.requested, j ∈ s.dropped ∧ j ∉ s.taken ∧ j ∉ s.executed
  /-- the fences that are not signalled are those of the jobs that wait for a slot, are in the ring,
  are worked on, or are just being dropped -/
  fences : ∀ f, s.signalled f = false ↔
    ∃ j : Job, (j ∈ s.waiting ∨ j ∈ s.queued ∨ j ∈ s.inHand ∨ j ∈ s.dropping) ∧ j.fence = f
  /-- what was started comes to an end -/
  ends : ∀ as s', (∀ a ∈ as, a.IsInternal) → Flow.runActions step s as = some s' →
    as.length ≤ s.work
  /-- in the end each job was executed, dropped or discarded, and no fence is left unsignalled -/
  settled : s.Settled →
    (s.added : Multiset Job) = s.executed + s.dropped + s.discarded ∧ ∀ f, s.signalled f = true

theorem length_le_work {s s' : State} {as : List Action} (internal : ∀ a ∈ as, a.IsInternal)
    (ran : Flow.runActions step s as = some s') :
  as.length ≤ s.work
  := by
  induction as generalizing s with
  | nil => exact Nat.zero_le _
  | cons a as ih =>
    obtain ⟨s₁, stepped, rest⟩ := Option.bind_eq_some_iff.1 ran
    obtain ⟨first, later⟩ := List.forall_mem_cons.1 internal
    have less := work_lt_of_step first stepped
    have more := ih later rest
    rw [List.length_cons]
    omega

theorem mem_pending {s : State} {j : Job} :
  j ∈ s.pending ↔ j ∈ s.waiting ∨ j ∈ s.queued ∨ j ∈ s.inHand ∨ j ∈ s.dropping
  := by
  simp only [State.pending, Multiset.mem_add, Multiset.mem_coe, or_assoc]

theorem Inv.sound {s : State} (inv : Inv s) (threads : 0 < s.numThreads) :
  Sound s
  := by
  have added : s.added.Nodup := (List.nodup_append.1 inv.accounts.nodup).2.1
  constructor
  · exact ⟨inv.layout.fits, inv.layout.write_eq⟩
  · exact ⟨added, inv.accounts.parts⟩
  · exact ⟨(List.sublist_append_left _ _).trans inv.accounts.fifo, inv.accounts.took⟩
  · intro j mem
    have dropped := inv.accounts.requested j mem
    have parts := inv.accounts.parts
    have nodup : ((s.queued : Multiset Job) + s.toExecute + s.executed + s.dropped
        + s.discarded).Nodup := by
      rw [← parts]
      exact Multiset.coe_nodup.2 added
    have apart : j ∉ (s.toExecute + s.executed : Multiset Job) := by
      have arranged : ((s.queued : Multiset Job) + s.toExecute + s.executed + s.dropped
          + s.discarded) = (s.toExecute + s.executed : Multiset Job) + (s.dropped : Multiset Job)
          + (s.queued + s.discarded) := by abel
      rw [arranged] at nodup
      have disjoint := (Multiset.nodup_add.1 (Multiset.nodup_add.1 nodup).1).2.2
      intro mem'
      exact Multiset.disjoint_left.1 disjoint mem' (Multiset.mem_coe.2 dropped)
    refine ⟨dropped, ?_, ?_⟩
    · intro taken
      rw [← inv.accounts.took] at apart
      exact apart (Multiset.mem_coe.2 taken)
    · intro executed
      exact apart (Multiset.mem_add.2 (.inr (Multiset.mem_coe.2 executed)))
  · intro f
    rw [inv.fences.iff, Multiset.mem_map]
    simp only [mem_pending]
  · intro as s' internal ran
    exact length_le_work internal ran
  · intro settled
    obtain ⟨queued, toExecute, pending⟩ := inv.settled threads settled
    constructor
    · rw [inv.accounts.parts, queued, toExecute, Multiset.coe_nil, add_zero, zero_add]
    · intro f
      by_contra unsignalled
      have mem := (inv.fences.iff f).1 (Bool.eq_false_iff.2 unsignalled)
      rw [pending, Multiset.map_zero] at mem
      exact Multiset.notMem_zero _ mem

theorem numThreads_foldl_discard (s : State) (l : List ℕ) :
  (l.foldl State.discard s).numThreads = s.numThreads
  := by
  obtain ⟨jobs, sig, disc, eq⟩ := foldl_discard_frame s l
  rw [eq]

theorem numThreads_step {s s' : State} {a : Action} (h : step s a = some s') :
  s'.numThreads = s.numThreads
  := by
  cases a with
  | add f =>
    obtain ⟨-, ⟨⟩⟩ := Option.ite_none_right_eq_some.1 h
    unfold State.addJob
    dsimp only
    split_ifs <;> rfl
  | resume j =>
    obtain ⟨-, ⟨⟩⟩ := Option.ite_none_right_eq_some.1 h
    rfl
  | take w =>
    obtain ⟨-, ⟨⟩⟩ := Option.ite_none_right_eq_some.1 h
    unfold State.takeJob
    dsimp only
    split <;> rfl
  | execute w =>
    obtain ⟨-, h⟩ := Option.ite_none_right_eq_some.1 h
    split at h
    · obtain rfl := Option.some.inj h
      rfl
    · cases h
  | signal w =>
    obtain ⟨-, h⟩ := Option.ite_none_right_eq_some.1 h
    split at h
    · obtain rfl := Option.some.inj h
      rfl
    · cases h
  | leave w =>
    obtain ⟨-, ⟨⟩⟩ := Option.ite_none_right_eq_some.1 h
    rfl
  | cleanup w =>
    obtain ⟨-, ⟨⟩⟩ := Option.ite_none_right_eq_some.1 h
    exact numThreads_foldl_discard s s.slots
  | kill =>
    obtain rfl := Option.some.inj h
    rfl
  | drop f =>
    obtain rfl := Option.some.inj h
    unfold State.dropJob
    dsimp only
    split <;> rfl
  | dropSignal j =>
    obtain ⟨-, ⟨⟩⟩ := Option.ite_none_right_eq_some.1 h
    rfl

/-- A run until the threads are killed. -/
def shutdownRun : List Action :=
  [.add 0, .add 1, .drop 0, .dropSignal ⟨0, 0⟩, .take 1, .take 0, .execute 0, .add 0, .kill,
    .leave 1, .cleanup 1, .signal 0, .leave 0, .cleanup 0]

end Queue

end Util
