import Mesa.Brw.UboRanges

/-!
# Counting loads of uniform buffers

What the pass has found when it has visited all instructions: the hash table has the blocks that are
loaded from, and for each of them the slots that are used and the numbers of their loads.
-/

namespace Brw

open Util

variable {memory : UboMemory}

/-- There is memory for everything. -/
structure UboMemory.Ample (memory : UboMemory) : Prop where
  array : ∀ n, memory.array n = true
  info : ∀ n, memory.info n = true

/-! ### Visiting the instructions -/

theorem foldlM_flatten {α β : Type} (f : β → α → Option β) (ls : List (List α)) (b : β) :
  ls.foldlM (fun b l => l.foldlM f b) b = ls.flatten.foldlM f b
  := by
  induction ls generalizing b with
  | nil => rfl
  | cons l ls ih =>
    rw [List.flatten_cons, List.foldlM_append, List.foldlM_cons]
    exact congrArg _ (funext ih)

/-- The loops visit the instructions one after the other. -/
theorem analyzeFunctions_eq (state : UboAnalysisState) (nir : NirShader) :
  analyzeFunctions memory state nir = nir.instrs.foldlM (analyzeInstr memory) state
  := by
  rw [analyzeFunctions, NirShader.instrs, ← foldlM_flatten, List.foldlM_map]
  congr 1
  funext state function
  cases function with
  | none => rfl
  | some blocks => exact foldlM_flatten (analyzeInstr memory) blocks state

/-! ### What has been counted -/

/-- The bits and the counters of a block are those of its loads. -/
def Counts (loads : List (ℕ × ℕ)) (block : ℕ) (info : UboBlockInfo) : Prop :=
  ∀ i < 64, info.offsets.getLsbD i = decide (slotLoads loads block i ≠ 0) ∧
    info.uses i = slotLoads loads block i % 2 ^ 8

/-- What is known after some loads, when the table stands for the map `m` from keys to pointers. -/
structure Analyzed (loads : List (ℕ × ℕ)) (state : UboAnalysisState) (m : ℕ → Option ℕ) :
    Prop where
  stands : HashTable.StandsFor HashTable.numberKeys 0 state.blocks none m
  pointers : ∀ key, (key, none) ∉ state.blocks.contents
  keys : ∀ key p, m key = some p → 1 ≤ key ∧ key ≤ 2 ^ 16 ∧ p < state.infos.length
  injective : ∀ key key' p, m key = some p → m key' = some p → key = key'
  counts : ∀ block p, m (block + 1) = some p →
    ∃ info, state.infos[p]? = some info ∧ Counts loads block info
  absent : ∀ block, m (block + 1) = none → ∀ i < 64, slotLoads loads block i = 0

theorem slotLoads_append (loads : List (ℕ × ℕ)) (load : ℕ × ℕ) (block slot : ℕ) :
  slotLoads (loads ++ [load]) block slot =
    slotLoads loads block slot + if load.1 = block ∧ load.2 / 32 = slot then 1 else 0
  := by
  rw [slotLoads, slotLoads, List.countP_append, List.countP_singleton]
  simp only [decide_eq_true_iff]

theorem counts_zero {loads : List (ℕ × ℕ)} {block : ℕ}
    (none : ∀ i < 64, slotLoads loads block i = 0) :
  Counts loads block .zero
  := by
  intro i hi
  simp [UboBlockInfo.zero, none i hi]

theorem Counts.use {loads : List (ℕ × ℕ)} {block : ℕ} {info : UboBlockInfo}
    (counts : Counts loads block info) (offset : ℕ) :
  Counts (loads ++ [(block, offset)]) block (info.use (offset / 32))
  := by
  intro i hi
  obtain ⟨bit, uses⟩ := counts i hi
  rw [slotLoads_append]
  dsimp only [UboBlockInfo.use]
  by_cases here : offset / 32 = i
  · subst here
    rw [if_pos ⟨rfl, rfl⟩, Function.update_self, uses]
    constructor
    · simp [← BitVec.twoPow_eq, hi]
    · omega
  · rw [if_neg (fun h => here h.2), Function.update_of_ne (Ne.symm here), Nat.add_zero]
    refine ⟨?_, uses⟩
    rw [BitVec.getLsbD_or, bit, ← BitVec.twoPow_eq, BitVec.getLsbD_twoPow]
    simp [here]

theorem Counts.other {loads : List (ℕ × ℕ)} {block : ℕ} {info : UboBlockInfo}
    (counts : Counts loads block info) {load : ℕ × ℕ} (ne : load.1 ≠ block) :
  Counts (loads ++ [load]) block info
  := by
  intro i hi
  rw [slotLoads_append, if_neg (fun h => ne h.1)]
  exact counts i hi

/-! ### The hash table -/

section

variable {loads : List (ℕ × ℕ)} {state : UboAnalysisState} {m : ℕ → Option ℕ}

/-- There are not more entries than numbers of 16 bits. -/
theorem Analyzed.entries_le (analyzed : Analyzed loads state m) :
  state.blocks.entries ≤ 2 ^ 16
  := by
  have inv := analyzed.stands.inv
  have distinct : ((state.blocks.entriesFrom 0 state.blocks.size).map HashEntry.key).Nodup := by
    rw [List.Nodup, List.pairwise_map]
    refine inv.distinct.imp ?_
    intro e e' apart same
    rw [same] at apart
    simp [HashTable.numberKeys] at apart
  have known : ∀ key ∈ (state.blocks.entriesFrom 0 state.blocks.size).map HashEntry.key,
      key ∈ List.range' 1 (2 ^ 16) := by
    intro key mem
    obtain ⟨e, visited, rfl⟩ := List.mem_map.mp mem
    have there : (e.key, e.data) ∈ state.blocks.contents := by
      rw [HashTable.contents_eq_entriesFrom]
      exact List.mem_map.mpr ⟨e, visited, rfl⟩
    have data := (analyzed.stands.present _ _ there).2
    cases pointer : e.data with
    | none =>
      rw [pointer] at there
      exact (analyzed.pointers _ there).elim
    | some p =>
      rw [pointer] at data
      have := analyzed.keys _ _ data
      exact List.mem_range'_1.mpr (by omega)
  have short := (distinct.subperm known).length_le
  rwa [List.length_map, List.length_range', ← List.length_map HashEntry.pair, ← Multiset.coe_card,
    ← HashTable.contents_eq_entriesFrom, ← inv.entries_eq_card] at short

theorem Analyzed.not_growsToLast (analyzed : Analyzed loads state m) :
  ¬ state.blocks.GrowsToLast
  := by
  rintro ⟨full, last⟩
  have sizes := analyzed.stands.inv.sizes
  have index : state.blocks.sizeIndex = 29 := Nat.succ.inj last
  rw [index] at sizes
  have max : 1073741824 = state.blocks.maxEntries := congrArg Prod.fst (Option.some.inj sizes)
  have := analyzed.entries_le
  omega

/-- A block that is not loaded from is inserted. -/
theorem Analyzed.insert (analyzed : Analyzed loads state m) {block : ℕ} (small : block < 2 ^ 16)
    (new : m (block + 1) = none) {blocks : HashTable ℕ (Option ℕ)}
    (inv : blocks.Inv HashTable.numberKeys)
    (contents : blocks.contents = (block + 1, some state.infos.length) ::ₘ
      HashTable.others HashTable.numberKeys (block + 1) state.blocks.contents) :
  Analyzed loads { state with blocks := blocks, infos := state.infos ++ [.zero] }
    (Function.update m (block + 1) (some state.infos.length))
  where
  stands := analyzed.stands.put (by omega) _ inv contents
  pointers := by
    intro key mem
    rw [contents, Multiset.mem_cons, analyzed.stands.mem_others] at mem
    rcases mem with eq | ⟨mem, -⟩
    · cases (Prod.mk.inj eq).2
    · exact analyzed.pointers key mem
  keys := by
    intro key p found
    rw [List.length_append, List.length_singleton]
    by_cases same : key = block + 1
    · rw [same, Function.update_self] at found
      have := Option.some.inj found
      omega
    · rw [Function.update_of_ne same] at found
      have := analyzed.keys key p found
      omega
  injective := by
    intro key key' p found found'
    by_cases same : key = block + 1 <;> by_cases same' : key' = block + 1
    · rw [same, same']
    · rw [same, Function.update_self] at found
      rw [Function.update_of_ne same'] at found'
      have := analyzed.keys key' p found'
      have := Option.some.inj found
      omega
    · rw [same', Function.update_self] at found'
      rw [Function.update_of_ne same] at found
      have := analyzed.keys key p found
      have := Option.some.inj found'
      omega
    · rw [Function.update_of_ne same] at found
      rw [Function.update_of_ne same'] at found'
      exact analyzed.injective key key' p found found'
  counts := by
    intro block' p found
    by_cases same : block' = block
    · subst same
      rw [Function.update_self] at found
      obtain rfl := Option.some.inj found
      exact ⟨.zero, List.getElem?_concat_length, counts_zero (analyzed.absent _ new)⟩
    · rw [Function.update_of_ne (by omega)] at found
      obtain ⟨info, there, counts⟩ := analyzed.counts block' p found
      have := (analyzed.keys _ _ found).2.2
      exact ⟨info, by rwa [List.getElem?_append_left this], counts⟩
  absent := by
    intro block' none
    apply analyzed.absent block'
    by_cases same : block' + 1 = block + 1
    · rw [same, Function.update_self] at none
      cases none
    · rwa [Function.update_of_ne same] at none

/-- A load is counted in the block that a pointer points to. -/
theorem Analyzed.use (analyzed : Analyzed loads state m) {block p : ℕ}
    (pointer : m (block + 1) = some p) (offset : ℕ) :
  Analyzed (loads ++ [(block, offset)])
    { state with infos := state.infos.modify p fun info => info.use (offset / 32) } m
  where
  stands := analyzed.stands
  pointers := analyzed.pointers
  keys := by
    intro key p' found
    rw [List.length_modify]
    exact analyzed.keys key p' found
  injective := analyzed.injective
  counts := by
    intro block' p' found
    obtain ⟨info, there, counts⟩ := analyzed.counts block' p' found
    dsimp only
    rw [List.getElem?_modify, there]
    by_cases same : block' = block
    · subst same
      obtain rfl := Option.some.inj (pointer.symm.trans found)
      exact ⟨info.use (offset / 32), by simp, counts.use offset⟩
    · have apart : p ≠ p' := by
        rintro rfl
        have := analyzed.injective _ _ _ pointer found
        omega
      exact ⟨info, by simp [apart], counts.other (Ne.symm same)⟩
  absent := by
    intro block' none i hi
    have apart : block ≠ block' := by
      rintro rfl
      rw [pointer] at none
      cases none
    rw [slotLoads_append, if_neg (fun h => apart h.1), analyzed.absent block' none i hi]

/-- The pointer of a block is found, or the block is new. -/
theorem Analyzed.getBlockInfo (analyzed : Analyzed loads state m) (ample : memory.Ample) {block : ℕ}
    (small : block < 2 ^ 16) :
  ∃ p state' m', getBlockInfo memory state block = some (some p, state') ∧
    state'.usesRegularUniforms = state.usesRegularUniforms ∧ Analyzed loads state' m' ∧
    m' (block + 1) = some p
  := by
  have value : (block + 1) % 2 ^ 32 = block + 1 := Nat.mod_eq_of_lt (by omega)
  have ne : block + 1 ≠ 0 := by omega
  rw [Brw.getBlockInfo, value]
  dsimp only
  have searched := analyzed.stands.search ne
  rw [show HashTable.numberKeys.hash (block + 1) = block + 1 from value] at searched
  rcases searched with ⟨a, e, found, ha, slot, same, eq⟩ | ⟨found, eq⟩
  · have there : (e.key, e.data) ∈ state.blocks.contents :=
      HashTable.mem_contents.mpr ⟨a, ha, e, slot, rfl⟩
    cases pointer : e.data with
    | none =>
      rw [pointer] at there
      exact (analyzed.pointers _ there).elim
    | some p =>
      refine ⟨p, state, m, ?_, rfl, analyzed, by rw [eq, pointer]⟩
      rw [found]
      simp [HashTable.dataAt, slot, Slot.live, pointer]
  · obtain ⟨a, blocks, inserted, inv, contents⟩ := analyzed.stands.inv.insert_spec ample.array
      analyzed.not_growsToLast (block + 1) (some state.infos.length)
    rw [show HashTable.numberKeys.hash (block + 1) = block + 1 from value] at inserted
    refine ⟨state.infos.length,
      { state with blocks := blocks, infos := state.infos ++ [.zero] }, _, ?_, rfl,
      analyzed.insert small eq inv contents, Function.update_self _ _ _⟩
    rw [found, Option.bind_some]
    dsimp only
    rw [if_pos (ample.info _), if_neg ne, inserted]
    rfl

end

/-! ### All instructions -/

/-- A load at an offset that does not fit into the bits changes nothing. -/
theorem Analyzed.outside {loads : List (ℕ × ℕ)} {state : UboAnalysisState} {m : ℕ → Option ℕ}
    (analyzed : Analyzed loads state m) {load : ℕ × ℕ} (outside : 64 ≤ load.2 / 32) :
  Analyzed (loads ++ [load]) state m
  := by
  have same : ∀ block, ∀ i < 64, slotLoads (loads ++ [load]) block i = slotLoads loads block i := by
    intro block i hi
    rw [slotLoads_append, if_neg (by omega), Nat.add_zero]
  refine ⟨analyzed.stands, analyzed.pointers, analyzed.keys, analyzed.injective, ?_, ?_⟩
  · intro block p found
    obtain ⟨info, there, counts⟩ := analyzed.counts block p found
    refine ⟨info, there, ?_⟩
    intro i hi
    rw [same block i hi]
    exact counts i hi
  · intro block none i hi
    rw [same block i hi, analyzed.absent block none i hi]

/-- One instruction. -/
theorem Analyzed.step {loads : List (ℕ × ℕ)} {state : UboAnalysisState} {m : ℕ → Option ℕ}
    (analyzed : Analyzed loads state m) (ample : memory.Ample) (instr : NirInstr)
    (small : ∀ load, instr.constantLoad = some load → load.1 < 2 ^ 16) :
  ∃ state' m', analyzeInstr memory state instr = some state' ∧
    state'.usesRegularUniforms = (state.usesRegularUniforms || instr.isLoadUniform) ∧
    Analyzed (loads ++ instr.constantLoad.toList) state' m'
  := by
  have nothing : Analyzed (loads ++ []) state m := by rwa [List.append_nil]
  rcases instr with _ | ⟨_ | block, _ | offset⟩ | _
  case loadUniform =>
    refine ⟨_, m, rfl, (Bool.or_true _).symm, ?_⟩
    exact ⟨nothing.stands, nothing.pointers, nothing.keys, nothing.injective, nothing.counts,
      nothing.absent⟩
  case loadUbo.some.some =>
    rw [analyzeInstr]
    by_cases outside : offset / 32 ≥ 64
    · rw [if_pos outside]
      exact ⟨state, m, rfl, (Bool.or_false _).symm, analyzed.outside outside⟩
    · rw [if_neg outside]
      obtain ⟨p, state', m', found, same, analyzed', pointer⟩ :=
        analyzed.getBlockInfo ample (small _ rfl)
      refine ⟨_, m', by rw [found]; rfl, ?_, analyzed'.use pointer offset⟩
      exact same.trans (Bool.or_false _).symm
  all_goals exact ⟨state, m, rfl, (Bool.or_false _).symm, nothing⟩

/-- By induction on the instructions that are left. -/
theorem Analyzed.run (ample : memory.Ample) {loads : List (ℕ × ℕ)} {state : UboAnalysisState}
    {m : ℕ → Option ℕ} (analyzed : Analyzed loads state m) {instrs : List NirInstr}
    (small : ∀ load ∈ instrs.filterMap NirInstr.constantLoad, load.1 < 2 ^ 16) :
  ∃ state' m', instrs.foldlM (analyzeInstr memory) state = some state' ∧
    state'.usesRegularUniforms =
      (state.usesRegularUniforms || instrs.any NirInstr.isLoadUniform) ∧
    Analyzed (loads ++ instrs.filterMap NirInstr.constantLoad) state' m'
  := by
  induction instrs generalizing loads state m with
  | nil =>
    exact ⟨state, m, rfl, (Bool.or_false _).symm, by rwa [List.filterMap_nil, List.append_nil]⟩
  | cons instr instrs ih =>
    have parts : (instr :: instrs).filterMap NirInstr.constantLoad =
        instr.constantLoad.toList ++ instrs.filterMap NirInstr.constantLoad := by
      rw [List.filterMap_cons]
      cases instr.constantLoad <;> rfl
    rw [parts] at small ⊢
    obtain ⟨state₁, m₁, stepped, flag, analyzed₁⟩ := analyzed.step ample instr (by
      intro load eq
      exact small load (List.mem_append_left _ (by rw [eq]; exact List.mem_singleton_self load)))
    obtain ⟨state', m', ran, flag', analyzed'⟩ := ih analyzed₁ fun load mem =>
      small load (List.mem_append_right _ mem)
    refine ⟨state', m', ?_, ?_, by rwa [← List.append_assoc]⟩
    · rw [List.foldlM_cons, stepped]
      exact ran
    · rw [flag', flag, Bool.or_assoc, List.any_cons]

/-- The pass finds the loads of the shader. -/
theorem analyzeFunctions_spec (ample : memory.Ample) {nir : NirShader}
    (small : ∀ load ∈ nir.loads, load.1 < 2 ^ 16) :
  ∃ state m, analyzeFunctions memory ⟨HashTable.empty ℕ (Option ℕ) 0, [], false⟩ nir = some state ∧
    state.usesRegularUniforms = nir.usesRegularUniforms ∧ Analyzed nir.loads state m
  := by
  have start : Analyzed [] ⟨HashTable.empty ℕ (Option ℕ) 0, [], false⟩ fun _ => none := by
    have empty : (HashTable.empty ℕ (Option ℕ) 0).Inv HashTable.numberKeys ∧
        (HashTable.empty ℕ (Option ℕ) 0).contents = 0 := HashTable.empty_inv (by decide)
    refine ⟨HashTable.standsFor_empty fun _ _ => beq_iff_eq.mp, ?_, ?_, ?_, ?_, fun _ _ _ _ => rfl⟩
    · intro key mem
      rw [empty.2] at mem
      cases mem
    all_goals
      intros
      contradiction
  rw [analyzeFunctions_eq]
  exact start.run ample small

end Brw
