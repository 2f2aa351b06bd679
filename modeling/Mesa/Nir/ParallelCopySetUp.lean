import Mesa.Nir.ParallelCopy
import Mathlib.Data.Finset.Card
import Mathlib.Algebra.Group.Nat.Defs

/-!
# Parallel copies before the shell game

The values get distinct indices, the predecessors are recorded for the indices of the destinations,
and the destinations that nothing is copied from are ready.
-/

namespace Nir.FromSsa

/-! ### Movs -/

theorem Machine.read_lt (machine : Machine) (src : Src) (c : ℕ) :
  machine.read src c < 2 ^ src.bitSize
  := by
  cases src with
  | ssa d => apply BitVec.isLt
  | reg r => apply BitVec.isLt

theorem Mov.read_dest (machine : Machine) (mov : Mov) {c : ℕ} (hc : c < mov.dest.numComponents) :
  (mov.exec machine).read (.reg mov.dest) c = machine.read mov.src c % 2 ^ mov.dest.bitSize
  := by
  have written : (mov.exec machine).regs mov.dest c =
      BitVec.ofNat mov.dest.bitSize (machine.read mov.src c) := by
    apply if_pos ⟨rfl, hc⟩
  rw [Machine.read, written, BitVec.toNat_ofNat]

theorem Mov.regs_other (machine : Machine) (mov : Mov) {r : Register} (other : r ≠ mov.dest) :
  (mov.exec machine).regs r = machine.regs r
  := by
  funext c
  apply if_neg
  intro h
  apply other h.1

theorem Mov.read_other (machine : Machine) (mov : Mov) {src : Src} (other : src ≠ .reg mov.dest)
    (c : ℕ) :
  (mov.exec machine).read src c = machine.read src c
  := by
  cases src with
  | ssa d => rfl
  | reg r =>
    have different : r ≠ mov.dest := fun h => other (congrArg Src.reg h)
    rw [Machine.read, mov.regs_other machine different]
    rfl

theorem execMovs_append (machine : Machine) (movs : List Mov) (mov : Mov) :
  execMovs machine (movs ++ [mov]) = mov.exec (execMovs machine movs)
  := by
  simp [execMovs]

/-! ### The indices of values -/

/-- Where a search has come to. -/
theorem findValue_range (values : List Src) (src : Src) (n : ℕ) :
  match (List.range n).foldl
    (fun found i => if values[i]? = some src then some i else found) none with
  | some i => values[i]? = some src
  | none => ∀ i < n, values[i]? ≠ some src
  := by
  induction n with
  | zero => simp
  | succ n ih =>
    rw [List.range_succ, List.foldl_append, List.foldl_cons, List.foldl_nil]
    by_cases here : values[n]? = some src
    · rw [if_pos here]
      apply here
    · rw [if_neg here]
      split
      next i found =>
        rw [found] at ih
        apply ih
      next missing =>
        rw [missing] at ih
        intro i hi
        rcases Nat.lt_succ_iff_lt_or_eq.mp hi with lt | rfl
        · apply ih i lt
        · apply here

theorem findValue_some {values : List Src} {src : Src} {i : ℕ}
    (found : findValue values src = some i) :
  values[i]? = some src
  := by
  have h := findValue_range values src values.length
  rw [← findValue, found] at h
  apply h

theorem findValue_none {values : List Src} {src : Src} (missing : findValue values src = none) :
  src ∉ values
  := by
  have h := findValue_range values src values.length
  rw [← findValue, missing] at h
  intro mem
  obtain ⟨i, hi, eq⟩ := List.getElem_of_mem mem
  apply h i hi
  rw [List.getElem?_eq_getElem hi, eq]

/-- Two indices of one value are the same. -/
theorem index_inj {values : List Src} (nodup : values.Nodup) {i j : ℕ} {src : Src}
    (hi : values[i]? = some src) (hj : values[j]? = some src) :
  i = j
  := by
  have lt : i < values.length := (List.getElem?_eq_some_iff.mp hi).1
  apply (List.getElem?_inj lt nodup).mp
  rw [hi, hj]

/-- What the search for an index, or a new index, leaves. -/
structure Indexed (s : Shuffle) (src : Src) (s' : Shuffle) (i : ℕ) : Prop where
  found : s'.values[i]? = some src
  sub : s.values <+: s'.values
  nodup : s.values.Nodup → s'.values.Nodup
  mem : ∀ v ∈ s'.values, v ∈ s.values ∨ v = src
  rest : s' = { s with values := s'.values }

theorem valueIndex_indexed {s s' : Shuffle} {src : Src} {i : ℕ}
    (result : s.valueIndex src = (s', i)) :
  Indexed s src s' i
  := by
  unfold Shuffle.valueIndex at result
  cases search : findValue s.values src with
  | some i =>
    rw [search] at result
    cases result
    refine ⟨findValue_some search, List.prefix_refl _, id, fun v hv => .inl hv, rfl⟩
  | none =>
    rw [search] at result
    cases result
    refine ⟨?_, List.prefix_append _ _, ?_, ?_, rfl⟩
    · simp
    · intro nodup
      simp only [List.nodup_append, List.nodup_singleton, List.mem_singleton, true_and, nodup]
      rintro v hv w rfl rfl
      apply findValue_none search hv
    · intro v hv
      simpa using hv

/-! ### The entries -/

/-- An index of the source of an entry, and one of its destination. -/
def Entry.At (e : Entry) (values : List Src) (i j : ℕ) : Prop :=
  values[i]? = some e.src ∧ values[j]? = some (.reg e.dest)

/-- What is recorded of the entries that have been read. -/
structure Recorded (regAlloc : ℕ) (entries : List Entry) (s : Shuffle) : Prop where
  nodup : s.values.Nodup
  recorded : ∀ e ∈ entries, ∃ i j, e.At s.values i j ∧ s.pred j = some i
  pred : ∀ j i, s.pred j = some i → ∃ e ∈ entries, e.At s.values i j
  located : ∀ j i, s.pred j = some i → s.loc i = some i
  source : ∀ i l, s.loc i = some l → ∃ j, s.pred j = some i
  toDo_nodup : s.toDo.Nodup
  toDo : ∀ j, j ∈ s.toDo ↔ ∃ i, s.pred j = some i
  toDo_length : s.toDo.length = entries.length
  mem : ∀ v ∈ s.values, ∃ e ∈ entries, v = e.src ∨ v = .reg e.dest
  ready : s.ready = []
  emitted : s.emitted = []
  regAlloc : s.regAlloc = regAlloc

theorem getElem?_mono {values values' : List Src} (h : values <+: values') {i : ℕ} {v : Src}
    (hi : values[i]? = some v) :
  values'[i]? = some v
  := by
  obtain ⟨rest, rfl⟩ := h
  rw [List.getElem?_append_left (List.getElem?_eq_some_iff.mp hi).1, hi]

theorem Entry.At.mono {e : Entry} {values values' : List Src} {i j : ℕ} (h : e.At values i j)
    (sub : values <+: values') :
  e.At values' i j
  := by
  apply And.intro (getElem?_mono sub h.1) (getElem?_mono sub h.2)

/-- The destination of an entry that has not been read has no predecessor. -/
theorem Recorded.pred_fresh {regAlloc : ℕ} {entries : List Entry} {s : Shuffle}
    (h : Recorded regAlloc entries s) {e : Entry} (fresh : e.dest ∉ entries.map Entry.dest)
    {values : List Src} (sub : s.values <+: values) {j : ℕ}
    (hj : values[j]? = some (.reg e.dest)) :
  s.pred j = none
  := by
  cases hp : s.pred j with
  | none => rfl
  | some i =>
    obtain ⟨e', he', at'⟩ := h.pred j i hp
    have same := (getElem?_mono sub at'.2).symm.trans hj
    have dest : e'.dest = e.dest := by
      simpa using same
    exfalso
    apply fresh
    rw [← dest]
    apply List.mem_map_of_mem he'

/-- An entry with a new destination is recorded. -/
theorem addEntry_recorded {regAlloc : ℕ} {entries : List Entry} {s : Shuffle}
    (h : Recorded regAlloc entries s) {e : Entry} (fresh : e.dest ∉ entries.map Entry.dest) :
  ∃ s', s.addEntry e = some s' ∧ Recorded regAlloc (entries ++ [e]) s'
  := by
  rcases search : s.valueIndex e.src with ⟨s₁, i⟩
  rcases search' : s₁.valueIndex (.reg e.dest) with ⟨s₂, j⟩
  have src := valueIndex_indexed search
  have dest := valueIndex_indexed search'
  have sub : s.values <+: s₂.values := src.sub.trans dest.sub
  have pred₁ : s₁.pred = s.pred := by
    rw [src.rest]
  have asserted : (List.range s₁.values.length).any
      (fun i => s₁.values[i]? = some (.reg e.dest) ∧ (s₁.pred i).isSome) = false := by
    simp only [List.any_eq_false, decide_eq_true_eq, not_and]
    intro k _ hk
    rw [pred₁, h.pred_fresh fresh src.sub hk]
    simp
  have added : s.addEntry e = some { s with
      values := s₂.values
      loc := Function.update s.loc i (some i)
      pred := Function.update s.pred j (some i)
      toDo := j :: s.toDo } := by
    unfold Shuffle.addEntry
    simp only [search, asserted, search']
    rw [dest.rest, src.rest]
    rfl
  have empty : s.pred j = none := h.pred_fresh fresh sub dest.found
  have indices : e.At s₂.values i j := ⟨getElem?_mono dest.sub src.found, dest.found⟩
  have other {j' i' : ℕ} (hp : s.pred j' = some i') : j' ≠ j := by
    rintro rfl
    cases empty.symm.trans hp
  refine ⟨_, added, dest.nodup (src.nodup h.nodup), ?_, ?_, ?_, ?_, ?_, ?_, ?_, ?_, h.ready,
    h.emitted, h.regAlloc⟩
  · intro e' he'
    rcases List.mem_append.mp he' with old | new
    · obtain ⟨i', j', at', hp⟩ := h.recorded e' old
      refine ⟨i', j', at'.mono sub, ?_⟩
      simp only
      rw [Function.update_of_ne (other hp), hp]
    · obtain rfl := List.mem_singleton.mp new
      refine ⟨i, j, indices, Function.update_self _ _ _⟩
  · intro j' i' hp
    by_cases same : j' = j
    · subst same
      simp only [Function.update_self, Option.some.injEq] at hp
      subst hp
      exact ⟨e, by simp, indices⟩
    · simp only [Function.update_of_ne same] at hp
      obtain ⟨e', he', at'⟩ := h.pred j' i' hp
      exact ⟨e', List.mem_append_left _ he', at'.mono sub⟩
  · intro j' i' hp
    by_cases new : i' = i
    · rw [new]
      apply Function.update_self
    · simp only [Function.update_of_ne new]
      by_cases same : j' = j
      · subst same
        simp only [Function.update_self, Option.some.injEq] at hp
        exact absurd hp.symm new
      · simp only [Function.update_of_ne same] at hp
        apply h.located j' i' hp
  · intro i' l hl
    by_cases new : i' = i
    · use j
      rw [new]
      apply Function.update_self
    · simp only [Function.update_of_ne new] at hl
      obtain ⟨j', hp⟩ := h.source i' l hl
      use j'
      simp only
      rw [Function.update_of_ne (other hp), hp]
  · apply List.nodup_cons.mpr ⟨?_, h.toDo_nodup⟩
    intro mem
    obtain ⟨i', hp⟩ := (h.toDo j).mp mem
    apply other hp rfl
  · intro j'
    by_cases same : j' = j
    · simp [same]
    · simp [same, h.toDo j']
  · simp [h.toDo_length]
  · intro v hv
    rcases dest.mem v hv with hv | rfl
    · rcases src.mem v hv with hv | rfl
      · obtain ⟨e', he', cases⟩ := h.mem v hv
        exact ⟨e', List.mem_append_left _ he', cases⟩
      · exact ⟨e, by simp, .inl rfl⟩
    · exact ⟨e, by simp, .inr rfl⟩

/-- All entries are recorded when their destinations are distinct. -/
theorem addEntries_recorded {regAlloc : ℕ} (entries rest : List Entry) {s : Shuffle}
    (h : Recorded regAlloc entries s) (nodup : ((entries ++ rest).map Entry.dest).Nodup) :
  ∃ s', rest.foldlM Shuffle.addEntry s = some s' ∧ Recorded regAlloc (entries ++ rest) s'
  := by
  induction rest generalizing entries s with
  | nil =>
    rw [List.append_nil]
    exact ⟨s, rfl, h⟩
  | cons e rest ih =>
    have split : entries ++ e :: rest = entries ++ [e] ++ rest := by
      simp
    have fresh : e.dest ∉ entries.map Entry.dest := by
      intro mem
      rw [List.map_append, List.nodup_append] at nodup
      apply nodup.2.2 e.dest mem e.dest _ rfl
      simp
    obtain ⟨s₁, added, h₁⟩ := addEntry_recorded h fresh
    rw [split] at nodup ⊢
    obtain ⟨s', run, h'⟩ := ih (entries ++ [e]) h₁ nodup
    refine ⟨s', ?_, h'⟩
    rw [List.foldlM_cons, added]
    apply run

/-! ### The start of the loops -/

/-- Numbers that are collected in a loop. -/
theorem collect_eq (p : ℕ → Prop) [DecidablePred p] (n : ℕ) :
  (List.range n).foldl (fun found i => if p i then i :: found else found) [] =
    ((List.range n).filter p).reverse
  := by
  induction n with
  | zero => rfl
  | succ n ih =>
    rw [List.range_succ, List.foldl_append, ih]
    by_cases h : p n <;> simp [h]

theorem Recorded.lt {regAlloc : ℕ} {entries : List Entry} {s : Shuffle}
    (h : Recorded regAlloc entries s) {j i : ℕ} (hp : s.pred j = some i) :
  i < s.values.length ∧ j < s.values.length
  := by
  obtain ⟨e, -, at'⟩ := h.pred j i hp
  apply And.intro (List.getElem?_eq_some_iff.mp at'.1).1 (List.getElem?_eq_some_iff.mp at'.2).1

theorem Recorded.ready_eq {regAlloc : ℕ} {entries : List Entry} {s : Shuffle}
    (h : Recorded regAlloc entries s) :
  s.markReady.ready = ((List.range s.values.length).filter
    fun i => (s.pred i).isSome ∧ s.loc i = none).reverse
  := by
  unfold Shuffle.markReady
  rw [h.ready]
  apply collect_eq

theorem Recorded.mem_ready {regAlloc : ℕ} {entries : List Entry} {s : Shuffle}
    (h : Recorded regAlloc entries s) {b : ℕ} :
  b ∈ s.markReady.ready ↔ (∃ a, s.pred b = some a) ∧ s.loc b = none
  := by
  rw [h.ready_eq]
  simp only [List.mem_reverse, List.mem_filter, List.mem_range, decide_eq_true_eq,
    Option.isSome_iff_exists]
  constructor
  · intro mem
    apply mem.2
  · rintro ⟨⟨a, hp⟩, hl⟩
    exact ⟨(h.lt hp).2, ⟨a, hp⟩, hl⟩

theorem Recorded.nodup_ready {regAlloc : ℕ} {entries : List Entry} {s : Shuffle}
    (h : Recorded regAlloc entries s) :
  s.markReady.ready.Nodup
  := by
  rw [h.ready_eq, List.nodup_reverse]
  apply List.Nodup.filter
  apply List.nodup_range

/-- A copy does not have itself as predecessor. -/
theorem Recorded.pred_ne {regAlloc : ℕ} {entries : List Entry} {s : Shuffle}
    (h : Recorded regAlloc (copies entries) s) {b a : ℕ} (hp : s.pred b = some a) :
  a ≠ b
  := by
  rintro rfl
  obtain ⟨e, he, at'⟩ := h.pred a a hp
  have proper : e.src ≠ .reg e.dest := by
    simpa using (List.mem_filter.mp he).2
  apply proper
  apply Option.some.inj
  rw [← at'.1, ← at'.2]

/-- The predecessor of a destination is a destination. -/
def Shuffle.chained (s : Shuffle) (j : ℕ) : Bool := ((s.pred j).bind s.pred).isSome

/-- Each value that is no destination is the predecessor of a destination of its own. -/
theorem Recorded.values_length {regAlloc : ℕ} {entries : List Entry} {s : Shuffle}
    (h : Recorded regAlloc entries s) :
  s.values.length ≤ s.toDo.length + s.toDo.countP (fun j => !s.chained j)
  := by
  have covered : Finset.range s.values.length ⊆
      s.toDo.toFinset ∪ (s.toDo.filter (fun j => !s.chained j)).toFinset.image
        (fun j => (s.pred j).getD 0) := by
    intro i hi
    have lt : i < s.values.length := Finset.mem_range.mp hi
    rw [Finset.mem_union, List.mem_toFinset, h.toDo]
    obtain ⟨e, he, cases⟩ := h.mem s.values[i] (List.getElem_mem lt)
    have value := List.getElem?_eq_getElem lt
    obtain ⟨i', j, at', hp⟩ := h.recorded e he
    rcases cases with src | dest
    · rw [src] at value
      obtain rfl : i' = i := index_inj h.nodup at'.1 value
      cases hi : s.pred i' with
      | some a => exact .inl ⟨a, rfl⟩
      | none =>
        right
        apply Finset.mem_image.mpr ⟨j, _, by rw [hp]; rfl⟩
        simp only [List.mem_toFinset, List.mem_filter, h.toDo]
        exact ⟨⟨i', hp⟩, by simp [Shuffle.chained, hp, hi]⟩
    · left
      rw [dest] at value
      obtain rfl : j = i := index_inj h.nodup at'.2 value
      exact ⟨i', hp⟩
  calc s.values.length = (Finset.range s.values.length).card := by rw [Finset.card_range]
    _ ≤ _ := Finset.card_le_card covered
    _ ≤ s.toDo.toFinset.card + _ := Finset.card_union_le _ _
    _ ≤ s.toDo.length + (s.toDo.filter fun j => !s.chained j).length := by
      apply Nat.add_le_add (List.toFinset_card_le _)
      apply le_trans Finset.card_image_le (List.toFinset_card_le _)
    _ = _ := by rw [List.countP_eq_length_filter]

/-- There is room for a temporary register for each destination that may be in a cycle. -/
theorem Recorded.room {regAlloc : ℕ} {entries : List Entry} {s : Shuffle}
    (h : Recorded regAlloc entries s) :
  s.values.length + s.toDo.countP s.chained ≤ entries.length * 2
  := by
  have values := h.values_length
  have both := List.length_eq_countP_add_countP s.chained (l := s.toDo)
  have length := h.toDo_length
  simp only [Bool.not_eq_true] at both
  have complement : s.toDo.countP (fun j => decide (s.chained j = false)) =
      s.toDo.countP (fun j => !s.chained j) := by
    congr
    funext j
    cases s.chained j <;> rfl
  omega

theorem setUp_recorded {regAlloc : ℕ} {entries : List Entry} (valid : Valid regAlloc entries) :
  ∃ s, setUp regAlloc entries = some s.markReady ∧ Recorded regAlloc (copies entries) s
  := by
  have nodup : (([] ++ copies entries).map Entry.dest).Nodup := by
    apply List.Nodup.sublist _ valid.nodup
    apply List.Sublist.map
    apply List.filter_sublist
  have start : Recorded regAlloc [] {
      values := [], loc := fun _ => none, pred := fun _ => none
      toDo := [], ready := [], emitted := [], regAlloc } := by
    constructor <;> simp
  obtain ⟨s, run, recorded⟩ := addEntries_recorded [] (copies entries) start nodup
  refine ⟨s, ?_, recorded⟩
  unfold setUp
  simp only [run]
  rfl

end Nir.FromSsa
