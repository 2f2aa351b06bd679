import Mesa.Brw.UboAnalysis
import Mesa.Data.Ranking
import Mathlib.Data.Set.Card

/-!
# The best ranges of uniform buffers

The pass returns the best runs of slots, and the same ones in whatever order it comes to the loads,
exactly when counting the loads with 8 bits puts no run before a better one, and runs that the
comparison takes for equal are not among the first.
-/

namespace Brw

open Util BitVec

variable {memory : UboMemory} {loads : List (ℕ × ℕ)}

/-! ### The entries of the ranges -/

/-- The entry of a range. -/
def entryOf (loads : List (ℕ × ℕ)) (r : UboRange) : UboRangeEntry :=
  ⟨r, benefitBy (· % 2 ^ 8) loads r⟩

theorem entryOf_injective {r r' : UboRange} (same : entryOf loads r = entryOf loads r') :
  r = r'
  := congrArg UboRangeEntry.range same

theorem newRange_eq {block : ℕ} {info : UboBlockInfo} (counts : Counts loads block info)
    (small : block < 2 ^ 16) {first hole : ℕ} (lt : first < hole) (hole_le : hole ≤ 64) :
  newRange block info first hole = entryOf loads ⟨block, first, hole - first⟩
  := by
  have length : (hole - first) % 2 ^ 8 = hole - first := Nat.mod_eq_of_lt (by omega)
  have start : first % 2 ^ 8 = first := Nat.mod_eq_of_lt (by omega)
  rw [newRange, entryOf, length, start, Nat.mod_eq_of_lt small, benefitBy]
  congr 2
  apply List.map_congr_left
  intro i mem
  have := List.mem_range.mp mem
  rw [(counts (first + i) (by omega)).2]

/-- The bits of a block have the runs of its slots. -/
theorem runFrom_zero_iff {block : ℕ} {info : UboBlockInfo} (counts : Counts loads block info)
    (start length : ℕ) :
  RunFrom info.offsets 0 start length ↔ IsUboRun loads ⟨block, start, length⟩
  := by
  have same : ∀ i < 64, info.offsets.getLsbD i = true ↔ slotLoads loads block i ≠ 0 := by
    intro i hi
    rw [(counts i hi).1, decide_eq_true_iff]
  constructor
  · exact fun run => run.1.congr same
  · exact fun run => ⟨IsRun.congr run fun i hi => (same i hi).symm, Nat.zero_le _⟩

/-- The loop finds the runs that are left.  By induction on the rounds. -/
theorem findRanges_spec {block : ℕ} {info : UboBlockInfo} (counts : Counts loads block info)
    (small : block < 2 ^ 16) {fuel q : ℕ} (enough : 64 ≤ q + fuel) {rest : BitVec 64}
    (scanned : Scanned info.offsets rest q) (ranges : List UboRangeEntry) :
  ∃ new, findRanges block info fuel rest ranges = some (ranges ++ new) ∧ new.Nodup ∧
    ∀ e, e ∈ new ↔ ∃ start length, RunFrom info.offsets q start length ∧
      e = entryOf loads ⟨block, start, length⟩
  := by
  have done : ∀ fuel ranges, findRanges block info fuel 0#64 ranges = some ranges := by
    intro fuel ranges
    cases fuel <;> rfl
  induction fuel generalizing q rest ranges with
  | zero =>
    rcases scanned.next with ⟨rfl, none⟩ | ⟨-, first, -, low, lt, -⟩
    · refine ⟨[], by rw [done, List.append_nil], List.nodup_nil, ?_⟩
      intro e
      simp [none]
    · omega
  | succ fuel ih =>
    rcases scanned.next with ⟨rfl, none⟩ | ⟨ne, first, found, low, lt, holes⟩
    · refine ⟨[], by rw [done, List.append_nil], List.nodup_nil, ?_⟩
      intro e
      simp [none]
    · rw [findRanges, if_neg ne, found, Nat.add_sub_cancel]
      dsimp only at holes ⊢
      rcases holes with ⟨zero, runs⟩ | ⟨hole, eq, first_lt, hole_lt, scanned', runs⟩
      · rw [if_pos zero, done, newRange_eq counts small lt (le_refl 64)]
        refine ⟨_, rfl, List.nodup_singleton _, ?_⟩
        intro e
        rw [List.mem_singleton]
        constructor
        · rintro rfl
          exact ⟨first, 64 - first, (runs _ _).mpr ⟨rfl, rfl⟩, rfl⟩
        · rintro ⟨start, length, run, rfl⟩
          obtain ⟨rfl, rfl⟩ := (runs start length).mp run
          rfl
      · have ne_zero : hole + 1 ≠ 0 := by omega
        rw [eq, if_neg ne_zero, Nat.add_sub_cancel, newRange_eq counts small first_lt hole_lt.le]
        obtain ⟨new, result, nodup, mem⟩ := ih (by omega) scanned'
          (ranges ++ [entryOf loads ⟨block, first, hole - first⟩])
        refine ⟨entryOf loads ⟨block, first, hole - first⟩ :: new, ?_, ?_, ?_⟩
        · rw [result, List.append_assoc, List.singleton_append]
        · refine List.nodup_cons.mpr ⟨?_, nodup⟩
          intro again
          obtain ⟨start, length, run, same⟩ := (mem _).mp again
          have := congrArg UboRange.start (entryOf_injective same)
          have := run.2
          dsimp only at *
          omega
        · intro e
          rw [List.mem_cons, mem]
          constructor
          · rintro (rfl | ⟨start, length, run, rfl⟩)
            · exact ⟨first, hole - first, (runs _ _).mpr (.inl ⟨rfl, rfl⟩), rfl⟩
            · exact ⟨start, length, (runs _ _).mpr (.inr run), rfl⟩
          · rintro ⟨start, length, run, rfl⟩
            rcases (runs _ _).mp run with ⟨rfl, rfl⟩ | run
            · exact .inl rfl
            · exact .inr ⟨start, length, run, rfl⟩

/-- What an entry of the hash table says of the loads. -/
structure Tells (loads : List (ℕ × ℕ)) (infos : List UboBlockInfo)
    (entry : HashEntry ℕ (Option ℕ)) (block : ℕ) : Prop where
  small : block < 2 ^ 16
  hash : entry.hash = block + 1
  info : ∃ p info, entry.data = some p ∧ infos[p]? = some info ∧ Counts loads block info

/-- The ranges of the entries that are left.  By induction on them. -/
theorem blockRanges_spec {infos : List UboBlockInfo} {entries : List (HashEntry ℕ (Option ℕ))}
    (tells : ∀ e ∈ entries, ∃ block, Tells loads infos e block)
    (distinct : entries.Pairwise fun e e' => e.hash ≠ e'.hash) (ranges : List UboRangeEntry) :
  ∃ new, entries.foldlM (fun ranges entry =>
      (entry.data.bind fun info => infos[info]?).bind fun info =>
        findRanges (entry.hash - 1) info 64 info.offsets ranges) ranges = some (ranges ++ new) ∧
    new.Nodup ∧ ∀ x, x ∈ new ↔
      ∃ r, (∃ e ∈ entries, e.hash = r.block + 1) ∧ IsUboRun loads r ∧ x = entryOf loads r
  := by
  induction entries generalizing ranges with
  | nil =>
    refine ⟨[], by rw [List.append_nil]; rfl, List.nodup_nil, ?_⟩
    intro x
    simp
  | cons e entries ih =>
    obtain ⟨block, told⟩ := tells e List.mem_cons_self
    obtain ⟨p, info, data, there, counts⟩ := told.info
    obtain ⟨first, distinct⟩ := List.pairwise_cons.mp distinct
    obtain ⟨here, found, nodup, mem⟩ :=
      findRanges_spec counts told.small (le_refl (0 + 64)) (scanned_zero info.offsets) ranges
    obtain ⟨later, found', nodup', mem'⟩ :=
      ih (fun e mem => tells e (List.mem_cons_of_mem _ mem)) distinct (ranges ++ here)
    have mem_here : ∀ x, x ∈ here ↔
        ∃ r, r.block = block ∧ IsUboRun loads r ∧ x = entryOf loads r := by
      intro x
      rw [mem]
      constructor
      · rintro ⟨start, length, run, rfl⟩
        exact ⟨⟨block, start, length⟩, rfl, (runFrom_zero_iff counts _ _).mp run, rfl⟩
      · rintro ⟨r, rfl, run, rfl⟩
        exact ⟨r.start, r.length, (runFrom_zero_iff counts _ _).mpr run, rfl⟩
    refine ⟨here ++ later, ?_, ?_, ?_⟩
    · rw [List.foldlM_cons, data, Option.bind_some, there, told.hash, Option.bind_some,
        Nat.add_sub_cancel, found, ← List.append_assoc]
      exact found'
    · refine nodup.append nodup' ?_
      intro x x_here x_later
      obtain ⟨r, same, -, rfl⟩ := (mem_here x).mp x_here
      obtain ⟨r', ⟨e', mem_e', hash'⟩, -, eq⟩ := (mem' _).mp x_later
      obtain rfl := entryOf_injective eq
      apply first e' mem_e'
      rw [told.hash, hash', same]
    · intro x
      rw [List.mem_append, mem_here, mem']
      constructor
      · rintro (⟨r, same, run, eq⟩ | ⟨r, ⟨e', mem_e', hash'⟩, run, eq⟩)
        · exact ⟨r, ⟨e, List.mem_cons_self, by rw [told.hash, same]⟩, run, eq⟩
        · exact ⟨r, ⟨e', List.mem_cons_of_mem _ mem_e', hash'⟩, run, eq⟩
      · rintro ⟨r, ⟨e', mem_e', hash'⟩, run, eq⟩
        rcases List.mem_cons.mp mem_e' with rfl | mem_e'
        · exact .inl ⟨r, Nat.succ.inj (hash'.symm.trans told.hash), run, eq⟩
        · exact .inr ⟨r, ⟨e', mem_e', hash'⟩, run, eq⟩

/-- A function that visits the entries of the hash table in some order. -/
def Visits (foreach : HashTable ℕ (Option ℕ) → List (HashEntry ℕ (Option ℕ))) : Prop :=
  ∀ ht, (foreach ht).Perm (ht.entriesFrom 0 ht.size)

/-- The entries are those of all runs, whatever the order of the blocks. -/
theorem Analyzed.blockRanges_spec {state : UboAnalysisState} {m : ℕ → Option ℕ}
    (analyzed : Analyzed loads state m) {entries : List (HashEntry ℕ (Option ℕ))}
    (visited : entries.Perm (state.blocks.entriesFrom 0 state.blocks.size)) :
  ∃ ranges, blockRanges state.infos entries = some ranges ∧ ranges.Nodup ∧
    ∀ x, x ∈ ranges ↔ ∃ r, IsUboRun loads r ∧ x = entryOf loads r
  := by
  have inv := analyzed.stands.inv
  have key : ∀ e ∈ entries, ∃ p, m e.key = some p ∧ e.data = some p ∧ e.hash = e.key := by
    intro e mem
    have mem' := visited.mem_iff.mp mem
    have there : (e.key, e.data) ∈ state.blocks.contents := by
      rw [HashTable.contents_eq_entriesFrom]
      exact List.mem_map.mpr ⟨e, mem', rfl⟩
    have data := (analyzed.stands.present _ _ there).2
    cases pointer : e.data with
    | none =>
      rw [pointer] at there
      exact (analyzed.pointers _ there).elim
    | some p =>
      rw [pointer] at data
      have := (analyzed.keys _ _ data).2.1
      refine ⟨p, data, rfl, (inv.hashes e mem').trans ?_⟩
      exact Nat.mod_eq_of_lt (by omega)
  have tells : ∀ e ∈ entries, ∃ block, Tells loads state.infos e block := by
    intro e mem
    obtain ⟨p, pointer, data, hash⟩ := key e mem
    have bounds := analyzed.keys _ _ pointer
    have succ : e.key - 1 + 1 = e.key := by omega
    rw [← succ] at pointer
    obtain ⟨info, there, counts⟩ := analyzed.counts _ _ pointer
    exact ⟨e.key - 1, by omega, by omega, p, info, data, there, counts⟩
  have distinct : entries.Pairwise fun e e' => e.hash ≠ e'.hash := by
    have apart : entries.Pairwise fun e e' => HashTable.numberKeys.equals e.key e'.key = false :=
      inv.distinct.perm visited.symm (fun h => by
        rw [← h]
        exact Bool.beq_comm)
    refine apart.imp_of_mem ?_
    intro e e' mem mem' differ same
    obtain ⟨-, -, -, hash⟩ := key e mem
    obtain ⟨-, -, -, hash'⟩ := key e' mem'
    rw [← hash, ← hash', same] at differ
    simp [HashTable.numberKeys] at differ
  obtain ⟨ranges, found, nodup, mem⟩ := Brw.blockRanges_spec tells distinct []
  refine ⟨ranges, found, nodup, ?_⟩
  intro x
  rw [mem]
  constructor
  · rintro ⟨r, -, run, eq⟩
    exact ⟨r, run, eq⟩
  · rintro ⟨r, run, eq⟩
    refine ⟨r, ?_, run, eq⟩
    -- the first slot of the run has loads, so that its block is in the table
    have used : slotLoads loads r.block r.start ≠ 0 :=
      run.all r.start (le_refl _) (Nat.lt_add_of_pos_right run.pos)
    have inside : r.start < 64 := by
      have := run.pos
      have := run.le
      omega
    have known : m (r.block + 1) ≠ none := fun none => used (analyzed.absent _ none _ inside)
    by_contra missing
    apply known
    apply analyzed.stands.absent _ (by omega)
    intro data there
    rw [HashTable.contents_eq_entriesFrom] at there
    obtain ⟨e, mem_e, pair⟩ := List.mem_map.mp there
    have mem_e' := visited.mem_iff.mpr mem_e
    obtain ⟨-, -, -, hash⟩ := key e mem_e'
    exact missing ⟨e, mem_e', hash.trans (congrArg Prod.fst pair)⟩

/-! ### The order of the entries -/

/-- The last comparison adds nothing. -/
theorem cmpUboRangeEntry_eq (a b : UboRangeEntry) :
  cmpUboRangeEntry a b =
    if b.score = a.score then (b.range.block : ℤ) - a.range.block else b.score - a.score
  := by
  unfold cmpUboRangeEntry
  by_cases same : b.score = a.score
  · simp [same]
  · have ne : b.score - a.score ≠ 0 := sub_ne_zero.mpr same
    simp [same, ne]

/-- What the comparison puts ahead: a better score, or the same one and a greater block. -/
theorem cmpUboRangeEntry_neg_iff (a b : UboRangeEntry) :
  cmpUboRangeEntry a b < 0 ↔
    b.score < a.score ∨ b.score = a.score ∧ b.range.block < a.range.block
  := by
  rw [cmpUboRangeEntry_eq]
  split <;> omega

theorem cmpUboRangeEntry_eq_zero_iff (a b : UboRangeEntry) :
  cmpUboRangeEntry a b = 0 ↔ b.score = a.score ∧ b.range.block = a.range.block
  := by
  rw [cmpUboRangeEntry_eq]
  split <;> omega

theorem isComparison_cmpUboRangeEntry :
  IsComparison cmpUboRangeEntry
  where
  swap := by
    intro a b
    rw [cmpUboRangeEntry_eq, cmpUboRangeEntry_eq]
    split <;> split <;> omega
  trans := by
    intro a b c hab hbc
    rw [cmpUboRangeEntry_eq] at hab hbc ⊢
    split at hab <;> split at hbc <;> split <;> omega

/-- The runs that are ahead of a range by the loads as they are counted, and by the block among
equals. -/
def runsAhead (loads : List (ℕ × ℕ)) (r : UboRange) : Set UboRange :=
  {q | IsUboRun loads q ∧ (countedScore loads r < countedScore loads q ∨
    countedScore loads r = countedScore loads q ∧ r.block < q.block)}

/-- A list of the entries of all runs. -/
structure ListsRuns (loads : List (ℕ × ℕ)) (entries : List UboRangeEntry) : Prop where
  nodup : entries.Nodup
  mem_iff : ∀ x, x ∈ entries ↔ ∃ r, IsUboRun loads r ∧ x = entryOf loads r

section Ranks

variable {entries : List UboRangeEntry}

theorem ListsRuns.entryOf_mem_iff (lists : ListsRuns loads entries) {r : UboRange} :
  entryOf loads r ∈ entries ↔ IsUboRun loads r
  := by
  rw [lists.mem_iff]
  constructor
  · rintro ⟨r', run, same⟩
    rwa [entryOf_injective same]
  · exact fun run => ⟨r, run, rfl⟩

theorem ListsRuns.finite (lists : ListsRuns loads entries) :
  {r | IsUboRun loads r}.Finite
  := by
  refine (entries.map UboRangeEntry.range).finite_toSet.subset ?_
  intro r run
  exact List.mem_map.mpr ⟨entryOf loads r, lists.entryOf_mem_iff.mpr run, rfl⟩

/-- The number of runs ahead is the rank of the entry. -/
theorem ListsRuns.rank_eq (lists : ListsRuns loads entries) (r : UboRange) :
  IsComparison.rank cmpUboRangeEntry entries (entryOf loads r) = (runsAhead loads r).ncard
  := by
  have ahead : runsAhead loads r =
      (((entries.filter fun x => cmpUboRangeEntry x (entryOf loads r) < 0).map
        UboRangeEntry.range).toFinset : Set UboRange) := by
    ext q
    simp only [runsAhead, Set.mem_ofPred_eq, List.coe_toFinset, List.mem_map, List.mem_filter,
      decide_eq_true_iff, cmpUboRangeEntry_neg_iff]
    constructor
    · rintro ⟨run, order⟩
      exact ⟨entryOf loads q, ⟨lists.entryOf_mem_iff.mpr run, order⟩, rfl⟩
    · rintro ⟨x, ⟨mem, order⟩, rfl⟩
      obtain ⟨q, run, rfl⟩ := (lists.mem_iff x).mp mem
      exact ⟨run, order⟩
  have nodup : ((entries.filter fun x => cmpUboRangeEntry x (entryOf loads r) < 0).map
      UboRangeEntry.range).Nodup := by
    refine (lists.nodup.filter _).map_on ?_
    intro x mem y mem' same
    obtain ⟨q, -, rfl⟩ := (lists.mem_iff x).mp (List.mem_filter.mp mem).1
    obtain ⟨q', -, rfl⟩ := (lists.mem_iff y).mp (List.mem_filter.mp mem').1
    obtain rfl : q = q' := same
    rfl
  rw [ahead, Set.ncard_coe_finset, List.toFinset_card_of_nodup nodup, List.length_map,
    IsComparison.rank, List.countP_eq_length_filter]

theorem ListsRuns.perm (lists : ListsRuns loads entries) {loads' : List (ℕ × ℕ)}
    {entries' : List UboRangeEntry} (lists' : ListsRuns loads' entries')
    (same : loads'.Perm loads) :
  entries'.Perm entries
  := by
  have count : slotLoads loads' = slotLoads loads := by
    funext block slot
    exact same.countP_eq _
  rw [List.perm_ext_iff_of_nodup lists'.nodup lists.nodup]
  intro x
  rw [lists'.mem_iff, lists.mem_iff]
  simp only [IsUboRun, entryOf, benefitBy, count]

end Ranks

/-! ### When the best ranges are returned -/

/-- A function that sorts with the comparison of the pass; what is equal is put in any order. -/
def Sorts (qsort : List UboRangeEntry → List UboRangeEntry) : Prop :=
  ∀ l, Arranges cmpUboRangeEntry l (qsort l)

/-- The best ranges are returned, and they are the same for all shaders with the same loads, for all
orders in which the hash table is visited and for all functions that sort. -/
def PushesBest (memory : UboMemory) (compiler : BrwCompiler) (nir : NirShader) : Prop :=
  ∃ ranges, BestRuns nir.loads (rangeLimit compiler nir) ranges ∧
    ∀ nir', SameLoads nir nir' → ∀ foreach, Visits foreach → ∀ qsort, Sorts qsort →
      brwNirAnalyzeUboRanges memory foreach qsort compiler nir' =
        some (ranges ++ List.replicate (4 - ranges.length) noRange)

/-- Runs of one block that have the same score as the loads are counted have `k` runs ahead of them;
and no run with fewer runs ahead of it is worse than one that has `k` of them ahead. -/
structure RankedTruly (loads : List (ℕ × ℕ)) (k : ℕ) : Prop where
  untied : ∀ r q, IsUboRun loads r → IsUboRun loads q → r ≠ q → r.block = q.block →
    countedScore loads r = countedScore loads q → k ≤ (runsAhead loads r).ncard
  inOrder : ∀ r q, IsUboRun loads r → IsUboRun loads q → (runsAhead loads r).ncard < k →
    k ≤ (runsAhead loads q).ncard → trueScore loads q ≤ trueScore loads r

/-- What is returned for a shader that is looked at. -/
theorem brwNirAnalyzeUboRanges_eq (ample : memory.Ample) {compiler : BrwCompiler} {nir : NirShader}
    (small : ∀ load ∈ nir.loads, load.1 < 2 ^ 16)
    (pushes : pushesNothing compiler nir.stage = false)
    {foreach : HashTable ℕ (Option ℕ) → List (HashEntry ℕ (Option ℕ))} (visits : Visits foreach) :
  ∃ entries, ListsRuns nir.loads entries ∧ ∀ qsort, Sorts qsort →
    brwNirAnalyzeUboRanges memory foreach qsort compiler nir =
      some (((qsort entries).take (rangeLimit compiler nir)).map UboRangeEntry.range ++
        List.replicate (4 - ((qsort entries).take (rangeLimit compiler nir)).length) noRange)
  := by
  obtain ⟨state, m, analyzed, flag, spec⟩ := analyzeFunctions_spec ample small
  obtain ⟨entries, found, nodup, mem⟩ := spec.blockRanges_spec (visits state.blocks)
  refine ⟨entries, ⟨nodup, mem⟩, ?_⟩
  intro qsort sorts
  have created : hashTableCreate ℕ (Option ℕ) memory.array =
      some (HashTable.empty ℕ (Option ℕ) 0) := by
    rw [hashTableCreate, if_pos (ample.array _)]
  have limit : rangeLimit compiler nir = maxUbos compiler nir.usesRegularUniforms := by
    rw [rangeLimit, pushes]
    rfl
  have length := (sorts entries).perm.length_eq
  have taken : (qsort entries).take (min entries.length (rangeLimit compiler nir)) =
      (qsort entries).take (rangeLimit compiler nir) := by
    rw [← List.take_take, ← length]
    exact List.take_of_length_le (List.length_take_le' _ _)
  have number : ((qsort entries).take (rangeLimit compiler nir)).length =
      min entries.length (rangeLimit compiler nir) := by
    rw [List.length_take, length, Nat.min_comm]
  rw [number, ← taken]
  rw [brwNirAnalyzeUboRanges, pushes, created, Option.bind_some, analyzed, Option.bind_some, found,
    flag, limit]
  rfl

section Returned

variable {entries sorted : List UboRangeEntry} {k : ℕ}

theorem ListsRuns.mem_map_iff (lists : ListsRuns loads entries)
    (arranges : Arranges cmpUboRangeEntry entries sorted) {r : UboRange} :
  r ∈ (sorted.take k).map UboRangeEntry.range ↔ entryOf loads r ∈ sorted.take k
  := by
  constructor
  · intro mem
    obtain ⟨x, taken, rfl⟩ := List.mem_map.mp mem
    obtain ⟨q, -, rfl⟩ := (lists.mem_iff x).mp
      (arranges.perm.mem_iff.mp (List.mem_of_mem_take taken))
    exact taken
  · exact fun taken => List.mem_map.mpr ⟨_, taken, rfl⟩

theorem ListsRuns.isRun_of_mem (lists : ListsRuns loads entries)
    (arranges : Arranges cmpUboRangeEntry entries sorted) {r : UboRange}
    (mem : r ∈ (sorted.take k).map UboRangeEntry.range) :
  IsUboRun loads r
  := by
  have taken := (lists.mem_map_iff arranges).mp mem
  exact lists.entryOf_mem_iff.mp (arranges.perm.mem_iff.mp (List.mem_of_mem_take taken))

/-- Different runs are disjoint. -/
theorem IsUboRun.disjoint {r r' : UboRange} (run : IsUboRun loads r) (run' : IsUboRun loads r')
    (ne : r ≠ r') :
  r.Disjoint r'
  := by
  intro same
  by_contra overlap
  rw [IsUboRun, ← same] at run'
  have pos := run.pos
  have pos' := run'.pos
  obtain ⟨start, length⟩ := IsRun.eq_of_common run run' (i := max r.start r'.start)
    (by omega) (by omega)
  exact ne (by cases r; cases r'; simp_all)

theorem ListsRuns.untied (lists : ListsRuns loads entries) (ranked : RankedTruly loads k) :
  IsComparison.Untied cmpUboRangeEntry k entries
  := by
  intro x mem y mem' equal ne
  obtain ⟨r, run, rfl⟩ := (lists.mem_iff x).mp mem
  obtain ⟨q, run', rfl⟩ := (lists.mem_iff y).mp mem'
  obtain ⟨score, block⟩ := (cmpUboRangeEntry_eq_zero_iff _ _).mp equal
  rw [lists.rank_eq]
  apply ranked.untied r q run run' _ block score
  rintro rfl
  exact ne rfl

/-- The ranges that are returned first are the best ones. -/
theorem ListsRuns.bestRuns (lists : ListsRuns loads entries)
    (arranges : Arranges cmpUboRangeEntry entries sorted) (ranked : RankedTruly loads k) :
  BestRuns loads k ((sorted.take k).map UboRangeEntry.range)
  := by
  have nodup : sorted.Nodup := arranges.perm.nodup_iff.mpr lists.nodup
  have first : ∀ r, IsUboRun loads r →
      (r ∈ (sorted.take k).map UboRangeEntry.range ↔ (runsAhead loads r).ncard < k) := by
    intro r run
    rw [lists.mem_map_iff arranges, isComparison_cmpUboRangeEntry.mem_take_iff arranges lists.nodup
      (lists.untied ranked) (lists.entryOf_mem_iff.mpr run), lists.rank_eq]
  refine ⟨fun r => lists.isRun_of_mem arranges, ?_, ?_, ?_⟩
  · rw [List.pairwise_map]
    refine (nodup.sublist (List.take_sublist k sorted)).imp_of_mem ?_
    intro x y mem mem' ne
    obtain ⟨r, run, rfl⟩ := (lists.mem_iff x).mp
      (arranges.perm.mem_iff.mp (List.mem_of_mem_take mem))
    obtain ⟨r', run', rfl⟩ := (lists.mem_iff y).mp
      (arranges.perm.mem_iff.mp (List.mem_of_mem_take mem'))
    refine run.disjoint run' ?_
    rintro rfl
    exact ne rfl
  · rw [List.length_map]
    exact List.length_take_le _ _
  · intro r run absent
    rw [first r run] at absent
    constructor
    · have many : IsComparison.rank cmpUboRangeEntry entries (entryOf loads r) ≤ entries.length :=
        List.countP_le_length
      rw [lists.rank_eq, ← arranges.perm.length_eq] at many
      rw [List.length_map, List.length_take]
      omega
    · intro r' mem'
      have run' := lists.isRun_of_mem arranges mem'
      exact ranked.inOrder r' r run' run ((first r' run').mp mem') (by omega)

end Returned

/-- What is behind the ranges can be told from them. -/
theorem append_noRange_inj {l l' : List UboRange} {a b : ℕ} (full : ∀ r ∈ l, 0 < r.length)
    (full' : ∀ r ∈ l', 0 < r.length)
    (same : l ++ List.replicate a noRange = l' ++ List.replicate b noRange) :
  l = l'
  := by
  have keep : ∀ (l : List UboRange) (n : ℕ), (∀ r ∈ l, 0 < r.length) →
      (l ++ List.replicate n noRange).filter (fun r => 0 < r.length) = l := by
    intro l n full
    rw [List.filter_append, List.filter_eq_self.mpr (by simpa using full),
      List.filter_eq_nil_iff.mpr, List.append_nil]
    intro r mem
    rw [List.eq_of_mem_replicate mem]
    decide
  rw [← keep l a full, same, keep l' b full']

theorem sameLoads_refl (nir : NirShader) :
  SameLoads nir nir
  := ⟨rfl, rfl, List.Perm.refl _⟩

theorem visits_entriesFrom :
  Visits fun ht => ht.entriesFrom 0 ht.size
  := fun _ => List.Perm.refl _

/-- A sorting function with a given result. -/
theorem exists_sorts {l l' : List UboRangeEntry} (arranges : Arranges cmpUboRangeEntry l l') :
  ∃ qsort, Sorts qsort ∧ qsort l = l'
  := by
  choose sort sorts using isComparison_cmpUboRangeEntry.exists_arranges
  refine ⟨Function.update sort l l', ?_, Function.update_self _ _ _⟩
  intro l₁
  by_cases same : l₁ = l
  · rw [same, Function.update_self]
    exact arranges
  · rw [Function.update_of_ne same]
    exact sorts l₁

/-- No ranges are returned. -/
theorem pushesBest_of_nothing {compiler : BrwCompiler} {nir : NirShader}
    (pushes : pushesNothing compiler nir.stage = true) :
  PushesBest memory compiler nir ∧ RankedTruly nir.loads (rangeLimit compiler nir)
  := by
  have limit : rangeLimit compiler nir = 0 := by
    rw [rangeLimit, pushes]
    rfl
  constructor
  · refine ⟨[], ?_, ?_⟩
    · rw [limit]
      exact ⟨by simp, List.Pairwise.nil, le_refl 0, fun _ _ _ => ⟨rfl, by simp⟩⟩
    · intro nir' same foreach _ qsort _
      rw [brwNirAnalyzeUboRanges, ← same.stage, pushes]
      rfl
  · rw [limit]
    exact ⟨fun _ _ _ _ _ _ _ => Nat.zero_le _, fun _ _ _ _ lt => absurd lt (Nat.not_lt_zero _)⟩

/-- Every arrangement of the entries begins with the ranges, so that those that are equal cannot be
among the first. -/
theorem PushesBest.rankedTruly (ample : memory.Ample) {compiler : BrwCompiler} {nir : NirShader}
    (small : ∀ load ∈ nir.loads, load.1 < 2 ^ 16)
    (pushes : pushesNothing compiler nir.stage = false) (best : PushesBest memory compiler nir) :
  RankedTruly nir.loads (rangeLimit compiler nir)
  := by
  obtain ⟨ranges, best, returned⟩ := best
  obtain ⟨entries, lists, result⟩ :=
    brwNirAnalyzeUboRanges_eq ample small pushes visits_entriesFrom
  have taken : ∀ sorted, Arranges cmpUboRangeEntry entries sorted →
      (sorted.take (rangeLimit compiler nir)).map UboRangeEntry.range = ranges := by
    intro sorted arranges
    obtain ⟨qsort, sorts, eq⟩ := exists_sorts arranges
    have same := (result qsort sorts).symm.trans
      (returned nir (sameLoads_refl nir) _ visits_entriesFrom qsort sorts)
    rw [eq] at same
    exact append_noRange_inj (fun r mem => (lists.isRun_of_mem arranges mem).pos)
      (fun r mem => (best.isRun r mem).pos) (Option.some.inj same)
  have place : ∀ r, IsUboRun nir.loads r →
      (runsAhead nir.loads r).ncard < rangeLimit compiler nir →
      ranges[(runsAhead nir.loads r).ncard]? = some r := by
    intro r run lt
    obtain ⟨sorted, arranges, there⟩ := isComparison_cmpUboRangeEntry.exists_arranges_at
      (lists.entryOf_mem_iff.mpr run)
    rw [lists.rank_eq] at there
    rw [← taken sorted arranges, List.getElem?_map, List.getElem?_take, if_pos lt, there]
    rfl
  constructor
  · intro r q run run' ne block score
    by_contra lt
    have same : runsAhead nir.loads r = runsAhead nir.loads q := by
      rw [runsAhead, runsAhead, block, score]
    have there := place r run (by omega)
    rw [same, place q run' (by rw [← same]; omega)] at there
    exact ne (Option.some.inj there).symm
  · intro r q run run' first behind
    have mem : r ∈ ranges := List.mem_of_getElem? (place r run first)
    have absent : q ∉ ranges := by
      intro mem'
      obtain ⟨sorted, arranges⟩ := isComparison_cmpUboRangeEntry.exists_arranges entries
      rw [← taken sorted arranges, lists.mem_map_iff arranges] at mem'
      obtain ⟨i, found⟩ := List.mem_iff_getElem?.mp mem'
      rw [List.getElem?_take] at found
      split at found
      case isTrue lt =>
        have low := isComparison_cmpUboRangeEntry.rank_le arranges found
        rw [lists.rank_eq] at low
        omega
      case isFalse => cases found
    exact (best.best q run' absent).2 r mem

/-- Whatever the order, the entries are arranged in the same way as far as they are returned. -/
theorem RankedTruly.pushesBest (ample : memory.Ample) {compiler : BrwCompiler} {nir : NirShader}
    (small : ∀ load ∈ nir.loads, load.1 < 2 ^ 16)
    (pushes : pushesNothing compiler nir.stage = false)
    (ranked : RankedTruly nir.loads (rangeLimit compiler nir)) :
  PushesBest memory compiler nir
  := by
  obtain ⟨entries, lists, -⟩ := brwNirAnalyzeUboRanges_eq ample small pushes visits_entriesFrom
  obtain ⟨sorted, arranges⟩ := isComparison_cmpUboRangeEntry.exists_arranges entries
  refine ⟨_, lists.bestRuns arranges ranked, ?_⟩
  intro nir' same foreach visits qsort sorts
  have small' : ∀ load ∈ nir'.loads, load.1 < 2 ^ 16 :=
    fun load mem => small load (same.loads.mem_iff.mp mem)
  rw [same.stage] at pushes
  obtain ⟨entries', lists', result'⟩ := brwNirAnalyzeUboRanges_eq ample small' pushes visits
  have limit : rangeLimit compiler nir' = rangeLimit compiler nir := by
    rw [rangeLimit, rangeLimit, same.stage, same.uniforms]
  have arranges' : Arranges cmpUboRangeEntry entries (qsort entries') :=
    ⟨(sorts entries').perm.trans (lists.perm lists' same.loads), (sorts entries').sorted⟩
  have first := isComparison_cmpUboRangeEntry.take_eq arranges arranges' lists.nodup
    (lists.untied ranked)
  rw [result' qsort sorts, limit, ← first, List.length_map]

/-- The best ranges are returned exactly when the loads, counted with 8 bits, rank the runs truly.
-/
theorem pushesBest_iff (ample : memory.Ample) (compiler : BrwCompiler) (nir : NirShader)
    (small : ∀ load ∈ nir.loads, load.1 < 2 ^ 16) :
  PushesBest memory compiler nir ↔ RankedTruly nir.loads (rangeLimit compiler nir)
  := by
  cases pushes : pushesNothing compiler nir.stage with
  | true =>
    obtain ⟨best, ranked⟩ := pushesBest_of_nothing pushes
    exact ⟨fun _ => ranked, fun _ => best⟩
  | false =>
    exact ⟨PushesBest.rankedTruly ample small pushes, RankedTruly.pushesBest ample small pushes⟩

/-- Memory without end. -/
def allUboMemory : UboMemory := ⟨fun _ => true, fun _ => true⟩

/-- A compiler that pushes at most three ranges. -/
def someCompiler : BrwCompiler := ⟨8, false, fun _ => true, true⟩

/-- A shader that loads regular uniforms, and from buffers with the given loads. -/
def shaderWith (loads : List (ℕ × ℕ)) : NirShader :=
  ⟨0, [some [.loadUniform :: loads.map fun load => .loadUbo (some load.1) (some load.2)]]⟩

theorem loads_shaderWith (loads : List (ℕ × ℕ)) :
  (shaderWith loads).loads = loads
  := by
  have parts : (shaderWith loads).instrs =
      .loadUniform :: loads.map fun load => .loadUbo (some load.1) (some load.2) := by
    simp [shaderWith, NirShader.instrs]
  rw [NirShader.loads, parts, List.filterMap_cons, List.filterMap_map]
  exact List.filterMap_some

theorem pushesBest_iff_twoLoads :
  PushesBest allUboMemory someCompiler (shaderWith [(0, 0), (3, 64)]) ↔
    RankedTruly (shaderWith [(0, 0), (3, 64)]).loads
      (rangeLimit someCompiler (shaderWith [(0, 0), (3, 64)]))
  := by
  apply pushesBest_iff ⟨fun _ => rfl, fun _ => rfl⟩
  rw [loads_shaderWith]
  decide

/-- Where no slot is loaded 256 times, the loads are counted truly. -/
theorem countedScore_of_few (few : ∀ block slot, slotLoads loads block slot < 2 ^ 8)
    (r : UboRange) :
  countedScore loads r = trueScore loads r
  := by
  rw [countedScore, trueScore, benefitBy, benefitBy]
  simp only [Nat.mod_eq_of_lt (few _ _), id]

/-- Then the runs are ranked truly if those of one block that are equal are not among the first. -/
theorem rankedTruly_of_few {entries : List UboRangeEntry} (lists : ListsRuns loads entries)
    (few : ∀ block slot, slotLoads loads block slot < 2 ^ 8) {k : ℕ}
    (untied : ∀ r q, IsUboRun loads r → IsUboRun loads q → r ≠ q → r.block = q.block →
      trueScore loads r = trueScore loads q → k ≤ (runsAhead loads r).ncard) :
  RankedTruly loads k
  := by
  constructor
  · intro r q run run' ne block score
    rw [countedScore_of_few few, countedScore_of_few few] at score
    exact untied r q run run' ne block score
  · intro r q run run' first behind
    by_contra worse
    -- what is ahead of the better run is ahead of the other one too
    have sub : runsAhead loads q ⊆ runsAhead loads r := by
      rintro p ⟨runs, order⟩
      refine ⟨runs, .inl ?_⟩
      simp only [countedScore_of_few few] at order ⊢
      omega
    have finite : (runsAhead loads r).Finite := lists.finite.subset fun _ mem => mem.1
    have := Set.ncard_le_ncard sub finite
    omega

/-! ### A slot that is loaded 256 times -/

/-- One slot with 256 loads, and two with one load each. -/
def wrappedLoads : List (ℕ × ℕ) := List.replicate 256 (0, 0) ++ [(1, 0), (2, 0)]

theorem mem_wrappedLoads {load : ℕ × ℕ} (mem : load ∈ wrappedLoads) :
  load.1 < 3 ∧ load.2 = 0
  := by
  rcases List.mem_append.mp mem with first | rest
  · rw [List.eq_of_mem_replicate first]
    decide
  · clear mem
    revert load
    decide

theorem slotLoads_wrappedLoads (block slot : ℕ) :
  slotLoads wrappedLoads block slot =
    (if 0 = block ∧ 0 = slot then 256 else 0) + slotLoads [(1, 0), (2, 0)] block slot
  := by
  rw [slotLoads, wrappedLoads, List.countP_append, List.countP_replicate]
  simp only [Nat.zero_div, decide_eq_true_eq]
  rfl

/-- These slots are the runs. -/
theorem isUboRun_wrappedLoads_iff (r : UboRange) :
  IsUboRun wrappedLoads r ↔ r ∈ [⟨0, 0, 1⟩, ⟨1, 0, 1⟩, (⟨2, 0, 1⟩ : UboRange)]
  := by
  have used : ∀ block < 3, slotLoads wrappedLoads block 0 ≠ 0 ∧
      slotLoads wrappedLoads block 1 = 0 := by
    simp only [slotLoads_wrappedLoads]
    decide
  have runs : ∀ block < 3, IsRun (fun slot => slotLoads wrappedLoads block slot ≠ 0) 64 0 1 := by
    intro block lt
    obtain ⟨first, second⟩ := used block lt
    refine ⟨by decide, by decide, ?_, fun i eq => by omega, fun _ ne => ne second⟩
    intro i _ hi
    obtain rfl : i = 0 := by omega
    exact first
  constructor
  · intro run
    have first : slotLoads wrappedLoads r.block r.start ≠ 0 :=
      run.all r.start (le_refl _) (Nat.lt_add_of_pos_right run.pos)
    obtain ⟨load, mem, there⟩ := List.countP_pos_iff.mp (Nat.pos_of_ne_zero first)
    have known := mem_wrappedLoads mem
    obtain ⟨block, start⟩ := of_decide_eq_true there
    rw [known.2] at start
    have lt : r.block < 3 := by omega
    obtain ⟨same, length⟩ := IsRun.eq_of_common run (runs r.block lt) (i := 0)
      ⟨by omega, by have := run.pos; omega⟩ (by decide)
    obtain ⟨b, s, n⟩ := r
    dsimp only at lt same length
    subst same length
    have cases : b = 0 ∨ b = 1 ∨ b = 2 := by omega
    rcases cases with rfl | rfl | rfl <;> decide
  · intro mem
    simp only [List.mem_cons, List.not_mem_nil, or_false] at mem
    rcases mem with rfl | rfl | rfl
    · exact runs 0 (by decide)
    · exact runs 1 (by decide)
    · exact runs 2 (by decide)

/-- The 256 loads are counted as none, so that the slot is not returned though it is the best one.
-/
theorem not_pushesBest_wrappedLoads :
  ¬ PushesBest allUboMemory someCompiler (shaderWith wrappedLoads)
  := by
  intro best
  have small : ∀ load ∈ (shaderWith wrappedLoads).loads, load.1 < 2 ^ 16 := by
    intro load mem
    rw [loads_shaderWith] at mem
    have := mem_wrappedLoads mem
    omega
  have ranked := best.rankedTruly ⟨fun _ => rfl, fun _ => rfl⟩ small rfl
  have limit : rangeLimit someCompiler (shaderWith wrappedLoads) = 2 := by
    rw [rangeLimit, NirShader.usesRegularUniforms]
    simp [shaderWith, NirShader.instrs, pushesNothing, maxUbos, someCompiler,
      NirInstr.isLoadUniform]
  rw [loads_shaderWith, limit] at ranked
  have scores : countedScore wrappedLoads ⟨0, 0, 1⟩ = -1 ∧
      countedScore wrappedLoads ⟨1, 0, 1⟩ = 1 ∧ countedScore wrappedLoads ⟨2, 0, 1⟩ = 1 ∧
      trueScore wrappedLoads ⟨0, 0, 1⟩ = 511 ∧ trueScore wrappedLoads ⟨1, 0, 1⟩ = 1 := by
    simp only [countedScore, trueScore, benefitBy, slotLoads_wrappedLoads]
    decide
  obtain ⟨score₀, score₁, score₂, true₀, true₁⟩ := scores
  have ahead₀ : runsAhead wrappedLoads ⟨0, 0, 1⟩ = {⟨1, 0, 1⟩, ⟨2, 0, 1⟩} := by
    ext q
    simp only [runsAhead, Set.mem_ofPred_eq, isUboRun_wrappedLoads_iff, List.mem_cons,
      List.not_mem_nil, or_false, Set.mem_insert_iff, Set.mem_singleton_iff]
    constructor
    · rintro ⟨rfl | rfl | rfl, order⟩
      · simp at order
      · exact .inl rfl
      · exact .inr rfl
    · rintro (rfl | rfl)
      · exact ⟨.inr (.inl rfl), .inl (by rw [score₀, score₁]; decide)⟩
      · exact ⟨.inr (.inr rfl), .inl (by rw [score₀, score₂]; decide)⟩
  have ahead₁ : runsAhead wrappedLoads ⟨1, 0, 1⟩ ⊆ {⟨2, 0, 1⟩} := by
    rintro q ⟨run, order⟩
    rw [isUboRun_wrappedLoads_iff] at run
    simp only [List.mem_cons, List.not_mem_nil, or_false] at run
    rcases run with rfl | rfl | rfl
    · rw [score₀, score₁] at order
      omega
    · simp at order
    · rfl
  have few := Set.ncard_le_ncard ahead₁ (Set.finite_singleton _)
  rw [Set.ncard_singleton] at few
  have two : (runsAhead wrappedLoads ⟨0, 0, 1⟩).ncard = 2 := by
    rw [ahead₀]
    exact Set.ncard_pair (by decide)
  have := ranked.inOrder ⟨1, 0, 1⟩ ⟨0, 0, 1⟩ ((isUboRun_wrappedLoads_iff _).mpr (by decide))
    ((isUboRun_wrappedLoads_iff _).mpr (by decide)) (by omega) (by omega)
  rw [true₀, true₁] at this
  omega

end Brw
