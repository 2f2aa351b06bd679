import Mesa.Anv.ScratchPool

/-!
# Scratch buffers are made once

A slot is settled, or a thread that has the mutex is making its buffer object.  What such a thread
knows is stated for each place it can be at; the others only look at the flag, which says that the
buffer object is complete.
-/

namespace Anv.ScratchPool

/-! ### The invariant -/

/-- The slot whose buffer object a thread is making. -/
def Pc.making : Pc → Option Slot
  | .init c _ | .setFlags c | .setExists c => some c.slot
  | _ => none

/-- What a thread knows at the place where it is. -/
def Pc.Facts (device : Device) (s : State) : Pc → Prop
  | .gemCreate c => s.bos c.slot = {} ∧ s.inits c.slot = 0
  | .init c handle => s.bos c.slot = {} ∧ s.inits c.slot = 1 ∧ handle ≠ 0
  | .setFlags c => ∃ handle, handle ≠ 0 ∧ s.inits c.slot = 1
    ∧ s.bos c.slot = ⟨false, { gemHandle := handle, offset := 2 ^ 64 - 1, size := c.size device }⟩
  | .setExists c =>
    (s.bos c.slot).present = false ∧ s.inits c.slot = 1 ∧ Complete device c.slot (s.bos c.slot).bo
  | .unlock c => (s.bos c.slot).present = true
  | _ => True

/-- A slot is as it was in the beginning, or its buffer object is there and complete. -/
def Settled (device : Device) (s : State) (slot : Slot) : Prop :=
  s.bos slot = {} ∧ s.inits slot = 0
    ∨ (s.bos slot).present = true ∧ s.inits slot = 1 ∧ Complete device slot (s.bos slot).bo

/-- What holds in every state. -/
structure Inv (device : Device) (s : State) : Prop where
  locked : ∀ t, (s.threads t).locked = true ↔ s.mutex = some t
  facts : ∀ t, (s.threads t).Facts device s
  slots : ∀ slot, Settled device s slot ∨ ∃ t, (s.threads t).making = some slot
  returned : ∀ r ∈ s.returned, s.bos r.slot = ⟨true, r.bo⟩

variable {device : Device} {s u : State} {t : ℕ} {q : Pc}

theorem Pc.locked_of_making {slot : Slot} (making : q.making = some slot) :
  q.locked = true
  := by
  cases q with
  | init | setFlags | setExists => rfl
  | _ => cases making

/-- Without the mutex a thread knows nothing of the slots. -/
theorem Pc.facts_of_not_locked (free : q.locked = false) :
  q.Facts device s
  := by
  cases q with
  | idle | readExists | lock => trivial
  | _ => cases free

/-- What a thread knows depends on the slots only. -/
theorem Pc.Facts.congr (facts : q.Facts device s) (bos : u.bos = s.bos) (inits : u.inits = s.inits) :
  q.Facts device u
  := by
  cases q with
  | idle | readExists | lock | recheck => trivial
  | _ =>
    unfold Pc.Facts at facts ⊢
    rw [bos]
    try rw [inits]
    exact facts

theorem Settled.congr {slot : Slot} (settled : Settled device s slot)
    (bos : u.bos slot = s.bos slot) (inits : u.inits slot = s.inits slot) :
  Settled device u slot
  := by
  unfold Settled
  rw [bos, inits]
  exact settled

theorem Inv.sound (inv : Inv device s) :
  Sound device s
  := by
  have slot_le : ∀ slot, s.inits slot ≤ 1 ∧ ((s.bos slot).present = true →
      Complete device slot (s.bos slot).bo) := by
    intro slot
    rcases inv.slots slot with (⟨empty, zero⟩ | ⟨present, one, complete⟩) | ⟨t, making⟩
    · rw [empty, zero]
      exact ⟨Nat.zero_le 1, fun h => by cases h⟩
    · rw [one]
      exact ⟨Nat.le_refl 1, fun _ => complete⟩
    · have facts := inv.facts t
      cases pc : s.threads t with
      | init c handle =>
        rw [pc] at facts making
        obtain rfl := Option.some.inj making
        obtain ⟨empty, one, -⟩ := facts
        rw [one, empty]
        exact ⟨Nat.le_refl 1, fun h => by cases h⟩
      | setFlags c =>
        rw [pc] at facts making
        obtain rfl := Option.some.inj making
        obtain ⟨handle, -, one, bo⟩ := facts
        rw [one, bo]
        exact ⟨Nat.le_refl 1, fun h => by cases h⟩
      | setExists c =>
        rw [pc] at facts making
        obtain rfl := Option.some.inj making
        obtain ⟨absent, one, complete⟩ := facts
        rw [one]
        exact ⟨Nat.le_refl 1, fun _ => complete⟩
      | _ =>
        rw [pc] at making
        cases making
  constructor
  case unlocked =>
    intro t mutex idle
    have locked := (inv.locked t).2 mutex
    rw [idle] at locked
    cases locked
  case once => exact fun slot => (slot_le slot).1
  case same =>
    intro r mem
    have here := inv.returned r mem
    have complete := (slot_le r.slot).2
    rw [here] at complete
    exact ⟨here, complete rfl⟩

/-! ### Steps -/

/-- A thread moves without the mutex, and nothing else changes. -/
theorem Inv.goto (inv : Inv device s) (before : (s.threads t).locked = false)
    (after : q.locked = false) :
  Inv device (s.goto t q)
  := by
  constructor
  case locked =>
    intro t'
    by_cases same : t' = t
    · subst same
      have free := inv.locked t'
      rw [before] at free
      simpa [State.goto, after] using free
    · simpa [State.goto, Function.update_of_ne same] using inv.locked t'
  case facts =>
    intro t'
    by_cases same : t' = t
    · subst same
      apply Pc.facts_of_not_locked
      simpa [State.goto] using after
    · have facts := (inv.facts t').congr (u := s.goto t q) rfl rfl
      simpa [State.goto, Function.update_of_ne same] using facts
  case slots =>
    intro slot
    rcases inv.slots slot with settled | ⟨t', making⟩
    · exact Or.inl (settled.congr rfl rfl)
    · right
      refine ⟨t', ?_⟩
      have ne : t' ≠ t := by
        rintro rfl
        rw [Pc.locked_of_making making] at before
        cases before
      simpa [State.goto, Function.update_of_ne ne] using making
  case returned => exact inv.returned

/-- A buffer object that is there may be returned. -/
theorem Inv.addReturned (inv : Inv device s) {slot : Slot} (present : (s.bos slot).present = true) :
  Inv device { s with returned := ⟨slot, (s.bos slot).bo⟩ :: s.returned }
  where
  locked := inv.locked
  facts t := (inv.facts t).congr rfl rfl
  slots slot := (inv.slots slot).imp (fun settled => settled.congr rfl rfl) id
  returned := by
    intro r mem
    rcases List.mem_cons.1 mem with rfl | mem
    · change s.bos slot = ⟨true, (s.bos slot).bo⟩
      rw [← present]
    · exact inv.returned r mem

/-- While the mutex is free or a thread has it, no other thread has it. -/
theorem Inv.alone (inv : Inv device s) (mutex : s.mutex = none ∨ s.mutex = some t) {t' : ℕ}
    (ne : t' ≠ t) :
  (s.threads t').locked = false
  := by
  rw [Bool.eq_false_iff]
  intro locked
  have owner := (inv.locked t').1 locked
  rcases mutex with free | taken
  · rw [free] at owner
    cases owner
  · rw [taken] at owner
    exact ne (Option.some.inj owner).symm

/-- What no other thread can be making is settled, unless the thread with the mutex is making it. -/
theorem Inv.settled (inv : Inv device s) (mutex : s.mutex = none ∨ s.mutex = some t)
    (making : (s.threads t).making = none) (slot : Slot) :
  Settled device s slot
  := by
  rcases inv.slots slot with settled | ⟨t', here⟩
  · exact settled
  · by_cases same : t' = t
    · rw [same, making] at here
      cases here
    · have free := inv.alone mutex same
      rw [Pc.locked_of_making here] at free
      cases free

/-- A step of a thread that has the mutex or gets it, in which it changes one slot. -/
theorem Inv.critical (inv : Inv device s) (mutex : s.mutex = none ∨ s.mutex = some t) {x : Slot}
    (threads : u.threads = Function.update s.threads t q)
    (mutex' : u.mutex = if q.locked then some t else none)
    (others : ∀ slot, slot ≠ x → u.bos slot = s.bos slot ∧ u.inits slot = s.inits slot)
    (facts : q.Facts device u) (here : Settled device u x ∨ q.making = some x)
    (made : ∀ y, (s.threads t).making = some y → y = x)
    (returned : ∀ r ∈ u.returned, u.bos r.slot = ⟨true, r.bo⟩) :
  Inv device u
  := by
  have self : u.threads t = q := by rw [threads, Function.update_self]
  have other : ∀ t', t' ≠ t → u.threads t' = s.threads t' := by
    intro t' ne
    rw [threads, Function.update_of_ne ne]
  constructor
  case locked =>
    intro t'
    by_cases same : t' = t
    · rw [same, self, mutex']
      cases q.locked with
      | true => simp
      | false => simp
    · rw [other t' same, inv.alone mutex same, mutex']
      cases q.locked with
      | true => simp [Ne.symm same]
      | false => simp
  case facts =>
    intro t'
    by_cases same : t' = t
    · rw [same, self]
      exact facts
    · apply Pc.facts_of_not_locked
      rw [other t' same]
      exact inv.alone mutex same
  case slots =>
    intro slot
    by_cases same : slot = x
    · rw [same]
      exact here.imp id fun making => ⟨t, self.symm ▸ making⟩
    · left
      obtain ⟨bos, inits⟩ := others slot same
      apply Settled.congr _ bos inits
      rcases inv.slots slot with settled | ⟨t', making⟩
      · exact settled
      · by_cases sameThread : t' = t
        · rw [sameThread] at making
          exact absurd (made slot making) same
        · have free := inv.alone mutex sameThread
          rw [Pc.locked_of_making making] at free
          cases free
  case returned => exact returned

/-- Nothing has been returned for a slot without its buffer object. -/
theorem Inv.returned_ne (inv : Inv device s) {x : Slot} (absent : (s.bos x).present = false)
    {r : Returned} (mem : r ∈ s.returned) :
  r.slot ≠ x
  := by
  rintro rfl
  rw [inv.returned r mem] at absent
  cases absent

/-- What was returned is still there when a slot changes for which nothing was returned. -/
theorem Inv.returned_setBo (inv : Inv device s) {x : Slot} {bo : ScratchBo}
    (absent : (s.bos x).present = false) :
  ∀ r ∈ s.returned, Function.update s.bos x bo r.slot = ⟨true, r.bo⟩
  := by
  intro r mem
  rw [Function.update_of_ne (inv.returned_ne absent mem)]
  exact inv.returned r mem

theorem Inv.run {handle : ℕ} (inv : Inv device s) (careful : Careful s (.run t handle))
    (ran : s.run device t handle = some u) :
  Inv device u
  := by
  have facts := inv.facts t
  have locked := inv.locked t
  unfold State.run at ran
  unfold Careful at careful
  cases pc : s.threads t with
  | idle => simp [pc] at ran
  | readExists c =>
    simp only [pc] at ran
    have before : (s.threads t).locked = false := by rw [pc]; rfl
    split at ran
    case isTrue present =>
      obtain rfl := Option.some.inj ran
      exact (inv.addReturned present).goto before rfl
    case isFalse =>
      obtain rfl := Option.some.inj ran
      exact inv.goto before rfl
  | lock c =>
    simp only [pc] at ran
    split at ran
    case isFalse => cases ran
    case isTrue free =>
      obtain rfl := Option.some.inj ran
      have making : (s.threads t).making = none := by rw [pc]; rfl
      apply inv.critical (x := c.slot) (q := .recheck c) (Or.inl free) rfl rfl
      · exact fun _ _ => ⟨rfl, rfl⟩
      · trivial
      · exact Or.inl ((inv.settled (Or.inl free) making c.slot).congr rfl rfl)
      · intro y h
        rw [making] at h
        cases h
      · exact inv.returned
  | recheck c =>
    simp only [pc] at ran careful
    rw [if_neg (by rw [careful]; decide)] at ran
    obtain rfl := Option.some.inj ran
    have mutex : s.mutex = some t := locked.1 (by rw [pc]; rfl)
    have making : (s.threads t).making = none := by rw [pc]; rfl
    -- what is not there and not being made is as in the beginning
    obtain ⟨empty, zero⟩ : s.bos c.slot = {} ∧ s.inits c.slot = 0 := by
      rcases inv.settled (Or.inr mutex) making c.slot with settled | ⟨present, -⟩
      · exact settled
      · rw [careful] at present
        cases present
    apply inv.critical (x := c.slot) (q := .gemCreate c) (Or.inr mutex) rfl (by exact mutex)
    · exact fun _ _ => ⟨rfl, rfl⟩
    · exact ⟨empty, zero⟩
    · exact Or.inl (Or.inl ⟨empty, zero⟩)
    · intro y h
      rw [making] at h
      cases h
    · exact inv.returned
  | gemCreate c =>
    simp only [pc] at ran careful
    rw [if_neg careful] at ran
    obtain rfl := Option.some.inj ran
    rw [pc] at facts
    obtain ⟨empty, zero⟩ := facts
    have mutex : s.mutex = some t := locked.1 (by rw [pc]; rfl)
    apply inv.critical (x := c.slot) (q := .init c handle) (Or.inr mutex) rfl (by exact mutex)
    · exact fun slot ne => ⟨rfl, Function.update_of_ne ne _ _⟩
    · refine ⟨empty, ?_, careful⟩
      change Function.update s.inits c.slot (s.inits c.slot + 1) c.slot = 1
      rw [Function.update_self, zero]
    · exact Or.inr rfl
    · intro y h
      rw [pc] at h
      cases h
    · exact inv.returned
  | init c handle =>
    simp only [pc] at ran
    obtain rfl := Option.some.inj ran
    rw [pc] at facts
    obtain ⟨empty, one, nonzero⟩ := facts
    have mutex : s.mutex = some t := locked.1 (by rw [pc]; rfl)
    apply inv.critical (x := c.slot) (q := .setFlags c) (Or.inr mutex) rfl (by exact mutex)
    · exact fun slot ne => ⟨Function.update_of_ne ne _ _, rfl⟩
    · refine ⟨handle, nonzero, one, ?_⟩
      change Function.update s.bos c.slot _ c.slot = _
      rw [Function.update_self, empty]
    · exact Or.inr rfl
    · intro y h
      rw [pc] at h
      exact (Option.some.inj h).symm
    · exact inv.returned_setBo (by rw [empty])
  | setFlags c =>
    simp only [pc] at ran
    rw [pc] at facts
    obtain ⟨handle, nonzero, one, bo⟩ := facts
    rw [bo] at ran
    simp only [Nat.zero_testBit, Bool.false_eq_true, if_false] at ran
    obtain rfl := Option.some.inj ran
    have mutex : s.mutex = some t := locked.1 (by rw [pc]; rfl)
    apply inv.critical (x := c.slot) (q := .setExists c) (Or.inr mutex) rfl (by exact mutex)
    · exact fun slot ne => ⟨Function.update_of_ne ne _ _, rfl⟩
    · unfold Pc.Facts
      simp only [State.goto, State.setBo, Function.update_self]
      refine ⟨trivial, one, c, handle, rfl, nonzero, ?_⟩
      simp
    · exact Or.inr rfl
    · intro y h
      rw [pc] at h
      exact (Option.some.inj h).symm
    · exact inv.returned_setBo (by rw [bo])
  | setExists c =>
    simp only [pc] at ran
    obtain rfl := Option.some.inj ran
    rw [pc] at facts
    obtain ⟨absent, one, complete⟩ := facts
    have mutex : s.mutex = some t := locked.1 (by rw [pc]; rfl)
    apply inv.critical (x := c.slot) (q := .unlock c) (Or.inr mutex) rfl (by exact mutex)
    · exact fun slot ne => ⟨Function.update_of_ne ne _ _, rfl⟩
    · simp [Pc.Facts, State.goto, State.setBo]
    · refine Or.inl (Or.inr ⟨?_, one, ?_⟩)
      · simp [State.goto, State.setBo]
      · simpa [State.goto, State.setBo] using complete
    · intro y h
      rw [pc] at h
      exact (Option.some.inj h).symm
    · exact inv.returned_setBo absent
  | unlock c =>
    simp only [pc] at ran
    obtain rfl := Option.some.inj ran
    rw [pc] at facts
    have present : (s.bos c.slot).present = true := facts
    have mutex : s.mutex = some t := locked.1 (by rw [pc]; rfl)
    have making : (s.threads t).making = none := by rw [pc]; rfl
    apply inv.critical (x := c.slot) (q := .idle) (Or.inr mutex) rfl rfl
    · exact fun _ _ => ⟨rfl, rfl⟩
    · trivial
    · exact Or.inl ((inv.settled (Or.inr mutex) making c.slot).congr rfl rfl)
    · intro y h
      rw [making] at h
      cases h
    · exact (inv.addReturned present).returned

/-- A thread with the mutex that finds the buffer object returns with it. -/
theorem not_sound_of_recheck {handle : ℕ} {c : Call} (inv : Inv device s)
    (pc : s.threads t = .recheck c) (present : (s.bos c.slot).present = true)
    (ran : s.run device t handle = some u) :
  ¬ Sound device u
  := by
  have mutex : s.mutex = some t := (inv.locked t).1 (by rw [pc]; rfl)
  unfold State.run at ran
  simp only [pc, present, if_true] at ran
  obtain rfl := Option.some.inj ran
  intro sound
  apply sound.unlocked t mutex
  simp [State.leave, State.goto]

theorem Inv.step {a : Action} (inv : Inv device s) (careful : Careful s a)
    (stepped : step device s a = some u) :
  Inv device u
  := by
  cases a with
  | call t c =>
    unfold ScratchPool.step at stepped
    dsimp only at stepped
    split at stepped
    case isFalse => cases stepped
    case isTrue idle =>
      split at stepped
      · obtain rfl := Option.some.inj stepped
        exact inv
      · split at stepped
        · obtain rfl := Option.some.inj stepped
          exact inv.goto (by rw [idle]; rfl) rfl
        · cases stepped
  | run t handle => exact inv.run careful stepped

/-! ### Runs -/

theorem inv_start (device : Device) :
  Inv device {}
  where
  locked t := by
    constructor
    · intro locked
      cases locked
    · intro mutex
      cases mutex
  facts t := trivial
  slots slot := Or.inl (Or.inl ⟨rfl, rfl⟩)
  returned r mem := absurd mem List.not_mem_nil

/-- In every interleaving of calls in which no thread with the mutex finds a buffer object that
another one has made, and none fails to be made, the pool is sound all the time. -/
theorem sound_of_undisturbed_run {device : Device} {as : List Action} {s : State}
    (careful : Flow.Meets (step device) Careful {} as)
    (ran : Flow.runActions (step device) {} as = some s) :
  Sound device s
  := by
  apply Inv.sound
  apply Flow.invariant_of_run _ (inv_start device) careful ran
  intro s a s' inv careful stepped
  exact inv.step careful stepped

/-- A Haswell device. -/
def haswell : Device := ⟨280, 256, 280, 256, 204, 70, 2, true, true⟩

/-- Two threads, of which the second one comes when the buffer object is there. -/
def later : List Action :=
  [.call 0 ⟨.compute, 2048⟩, .run 0 0, .run 0 0, .run 0 0, .run 0 17, .run 0 0, .run 0 0, .run 0 0,
    .call 1 ⟨.compute, 2048⟩, .run 0 0, .run 1 0]

theorem sound_of_undisturbed_run_later :
  ∃ s, Flow.runActions (step haswell) {} later = some s
    ∧ s.returned.length = 2 ∧ Sound haswell s
  := by
  refine ⟨_, rfl, rfl, ?_⟩
  exact @sound_of_undisturbed_run haswell later _ (by decide) rfl

/-- Both threads find that the buffer object is not there before one of them gets the mutex. -/
def together : List Action :=
  [.call 0 ⟨.compute, 2048⟩, .call 1 ⟨.compute, 2048⟩, .run 0 0, .run 1 0, .run 0 0, .run 0 0,
    .run 0 17, .run 0 0, .run 0 0, .run 0 0, .run 0 0, .run 1 0, .run 1 0]

/-- The kernel has no memory. -/
def withoutMemory : List Action :=
  [.call 0 ⟨.compute, 2048⟩, .run 0 0, .run 0 0, .run 0 0, .run 0 0, .run 0 0, .run 0 0, .run 0 0]

/-- The second thread returns with the mutex, and no call for another slot will get it; and a buffer
object that could not be made is returned all the same. -/
theorem unsound_runs :
  (∃ s, Flow.runActions (step haswell) {} together = some s
      ∧ s.mutex = some 1 ∧ s.threads 1 = .idle ∧ ¬ Sound haswell s)
    ∧ ∃ s, Flow.runActions (step haswell) {} withoutMemory = some s
      ∧ s.returned = [⟨⟨1, .compute⟩, { flags := 64 }⟩] ∧ ¬ Sound haswell s
  := by
  constructor
  · refine ⟨_, rfl, rfl, rfl, ?_⟩
    intro sound
    exact sound.unlocked 1 rfl rfl
  · refine ⟨_, rfl, rfl, ?_⟩
    intro sound
    obtain ⟨-, c, handle, -, nonzero, bo⟩ := sound.same ⟨⟨1, .compute⟩, { flags := 64 }⟩ (by decide)
    exact nonzero (congrArg Bo.gemHandle bo).symm

end Anv.ScratchPool
