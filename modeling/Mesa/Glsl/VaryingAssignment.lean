import Mesa.Glsl.VaryingLocations
import Mathlib.Data.List.Sort

/-!
# The assignment of locations to recorded varyings

The packing class of a recorded match tells its stream, since recording does not change whether a
variable is a patch varying.  Thus the locations of all recorded matches are separate, whatever
order the library's `qsort` puts them in.
-/

namespace Glsl.Varyings

section Recording

variable {settings : Settings}

theorem classified_makeMatch (vars : ℕ → Variable) (pairing : Pairing) :
  Classified vars (settings.makeMatch vars pairing)
  := by
  have interp : ∀ mode : InterpMode, mode.toNat < 4 := by
    intro mode
    cases mode <;> decide
  rw [Classified, Settings.makeMatch]
  dsimp only
  generalize vars pairing.var = var
  have low : (if var.isInterpolationFlat then InterpMode.flat.toNat
      else var.interpolation.toNat) < 4 := by
    split
    · decide
    · exact interp _
  have centroid := Bool.toNat_le var.centroid
  have sample := Bool.toNat_le var.sample
  have patch := Bool.toNat_le var.patch
  rw [computePackingClass]
  omega

theorem patch_updateAll {vars : ℕ → Variable} {names : List ℕ} (change : Variable → Variable)
    (keeps : ∀ var, (change var).patch = var.patch) (v : ℕ) :
  (updateAll vars names change v).patch = (vars v).patch
  := by
  rw [updateAll]
  split
  · exact keeps _
  · rfl

theorem patch_qualify (vars : ℕ → Variable) (pairing : Pairing) (v : ℕ) :
  (settings.qualify vars pairing v).patch = (vars v).patch
  := by
  have flat : ∀ v, ((if settings.flattens vars pairing then
      updateAll vars pairing.vars Variable.makeFlat else vars) v).patch = (vars v).patch := by
    intro v
    split
    · exact patch_updateAll Variable.makeFlat (fun _ => rfl) v
    · rfl
  cases pairing with
  | producer producerVar => exact flat v
  | consumer consumerVar => exact flat v
  | both producerVar consumerVar =>
    have input : ∀ vars' : ℕ → Variable, ((if (vars' consumerVar).mustBeShaderInput then
        updateAll vars' [producerVar] fun var => { var with mustBeShaderInput := true }
        else vars') v).patch = (vars' v).patch := by
      intro vars'
      split
      · exact patch_updateAll (fun var => { var with mustBeShaderInput := true }) (fun _ => rfl) v
      · rfl
    exact (input _).trans (flat v)

/-- Recording a pair changes no variable to a patch varying, or from one. -/
theorem patch_record (state : State) (pairing : Pairing) (v : ℕ) :
  ((settings.record state pairing).vars v).patch = (state.vars v).patch
  := by
  rw [Settings.record]
  split
  · exact (patch_updateAll (fun var => { var with isUnmatchedGenericInout := false })
      (fun _ => rfl) v).trans (patch_qualify state.vars pairing v)
  · rfl

theorem classified_record {state : State}
    (classified : ∀ m ∈ state.matched, Classified state.vars m) (pairing : Pairing) :
  ∀ m ∈ (settings.record state pairing).matched,
    Classified (settings.record state pairing).vars m
  := by
  have keeps : ∀ {m vars}, Classified vars m → (∀ v, (vars v).patch = (state.vars v).patch) →
      Classified (settings.record state pairing).vars m := by
    intro m vars here same
    rw [Classified, patch_record, ← same]
    exact here
  intro m mem
  have or_new : m ∈ state.matched ∨
      m = settings.makeMatch (settings.qualify state.vars pairing) pairing := by
    rw [Settings.record] at mem
    split at mem
    · simpa using mem
    · exact .inl mem
  rcases or_new with old | rfl
  · exact keeps (classified m old) fun _ => rfl
  · exact keeps (classified_makeMatch _ pairing) (patch_qualify state.vars pairing)

/-- All recorded matches tell their stream.  By induction on the pairs. -/
theorem classified_foldl (pairings : List Pairing) :
  ∀ state : State, (∀ m ∈ state.matched, Classified state.vars m) →
    ∀ m ∈ (pairings.foldl settings.record state).matched,
      Classified (pairings.foldl settings.record state).vars m
  := by
  induction pairings with
  | nil => exact fun _ classified => classified
  | cons pairing pairings ih =>
    exact fun state classified => ih _ (classified_record classified pairing)

end Recording

section Separation

/-- The locations of matches are separate: no component is taken twice, only patch varyings touch
reserved slots, and a slot is shared by matches of one packing class only. -/
structure Separate (reserved : ℕ) (result : Assigning) : Prop where
  disjoint : result.placed.Pairwise fun p q => ∀ component,
    p.location ≤ component ∧ component < p.stop → ¬ (q.location ≤ component ∧ component < q.stop)
  unreserved : ∀ p ∈ result.placed, p.patch = false →
    ∀ slot, p.Touches slot → reserved.testBit slot = false
  classes : ∀ p ∈ result.placed, ∀ q ∈ result.placed, ∀ slot, p.Touches slot → q.Touches slot →
    p.matched.packingClass = q.matched.packingClass

variable {reserved : ℕ} {state : Assigning}

/-- The slots of a match tell whether it is a patch varying. -/
theorem Inv.patch_of_touches (inv : Inv reserved state) (fine : state.error = false) {p : Placed}
    (mem : p ∈ state.placed) {slot : ℕ} (touches : p.Touches slot) :
  p.patch = decide (maxVarying ≤ slot)
  := by
  have limit : maxVarying = 32 := rfl
  have stop_eq : p.stop = p.location + p.numComponents := rfl
  have pos := (inv.below p mem).1
  obtain ⟨ge, le⟩ := touches
  cases patch : p.patch
  case false =>
    have := (inv.generic fine p mem patch).1
    rw [eq_comm, decide_eq_false_iff_not]
    omega
  case true =>
    have := inv.placedPatches p mem patch
    rw [eq_comm, decide_eq_true_eq]
    omega

theorem Inv.separate (inv : Inv reserved state) (fine : state.error = false) :
  Separate reserved state
  := by
  have stop_eq : ∀ p : Placed, p.stop = p.location + p.numComponents := fun _ => rfl
  constructor
  case disjoint =>
    apply inv.ordered.imp_of_mem
    rintro p q p_mem q_mem before component ⟨ge, lt⟩ ⟨ge', lt'⟩
    have touches : p.Touches (component / 4) := ⟨by omega, by omega⟩
    have touches' : q.Touches (component / 4) := ⟨by omega, by omega⟩
    have same : p.patch = q.patch := by
      rw [inv.patch_of_touches fine p_mem touches, inv.patch_of_touches fine q_mem touches']
    have := (before same).1
    omega
  case unreserved => exact fun p mem generic => (inv.generic fine p mem generic).2
  case classes =>
    have pairs : state.placed.Pairwise fun p q => ∀ slot, p.Touches slot → q.Touches slot →
        p.matched.packingClass = q.matched.packingClass := by
      apply inv.ordered.imp_of_mem
      intro p q p_mem q_mem before slot touches touches'
      have same : p.patch = q.patch := by
        rw [inv.patch_of_touches fine p_mem touches, inv.patch_of_touches fine q_mem touches']
      obtain ⟨ends, shared⟩ := before same
      apply shared
      have := (inv.below p p_mem).1
      have := stop_eq p
      obtain ⟨ge, le⟩ := touches
      obtain ⟨ge', le'⟩ := touches'
      omega
    intro p p_mem q q_mem
    refine pairs.forall_of_forall_of_flip (fun _ _ _ _ _ => rfl) ?_ p_mem q_mem
    exact pairs.imp fun sameClass slot touches touches' =>
      (sameClass slot touches' touches).symm

end Separation

/-- The recorded matches get separate locations, if there is no error and the components are
numbered in 32 bits.  What is counted is right for the slots that no match touches that goes on
behind the last slot. -/
theorem assignLocations_separate (settings : Settings)
    {qsort : (Match → Match → ℤ) → List Match → List Match}
    (perm : ∀ compare matched, (qsort compare matched).Perm matched) (vars : ℕ → Variable)
    (pairings : List Pairing) (reserved : ℕ) :
  let state := pairings.foldl settings.record ⟨vars, []⟩
  let result := settings.assignLocations qsort state reserved
  (∀ m ∈ state.matched, 0 < settings.componentsOf state.vars m) →
    maxVarying * 4 + 4 + settings.extent state.vars state.matched < 2 ^ 32 →
    result.error = false →
    (result.placed.map Placed.matched).Perm state.matched ∧ Separate reserved result ∧
      ∀ slot < maxVaryingsInclPatch,
        (∀ p ∈ result.placed, p.Touches slot → p.stop ≤ maxVaryingsInclPatch * 4) →
          Counts result.placed result.components slot
  := by
  intro state result sized small fine
  have classified := @classified_foldl settings pairings ⟨vars, []⟩
    (fun _ mem => absurd mem List.not_mem_nil)
  obtain ⟨sorted, sorted_perm, result_eq⟩ : ∃ sorted : List Match, sorted.Perm state.matched ∧
      result = sorted.foldl (settings.assign state.vars reserved) start :=
    ⟨_, by split <;> exact perm _ _, rfl⟩
  have extent : settings.extent state.vars sorted = settings.extent state.vars state.matched :=
    (sorted_perm.map _).sum_nat
  obtain ⟨inv, placed⟩ := inv_foldl sorted start (inv_start reserved)
    (fun m mem => ⟨classified m (sorted_perm.mem_iff.mp mem), sized m (sorted_perm.mem_iff.mp mem)⟩)
    (by
      intro patch
      have : start.location patch ≤ maxVarying * 4 := by cases patch <;> decide
      rw [extent]
      omega)
    (by rwa [extent])
  rw [← result_eq] at inv placed
  refine ⟨?_, inv.separate fine, inv.counts fine⟩
  rw [placed]
  exact sorted_perm

/-- A `qsort` that is stable. -/
def sortMatches (compare : Match → Match → ℤ) (matched : List Match) : List Match :=
  matched.insertionSort fun x y => compare x y ≤ 0

/-- An output of two components, its input, and a flat output that is only captured. -/
def someVars : ℕ → Variable
  | 0 => ⟨.vector .float 1 2, .shaderOut, false, false, false, false, .smooth, false, true, false⟩
  | 1 => ⟨.vector .float 1 2, .shaderIn, false, false, false, false, .smooth, false, true, false⟩
  | _ => ⟨.vector .int 1 1, .shaderOut, false, false, false, false, .flat, true, true, false⟩

theorem assignLocations_separate_someVars :
  let settings : Settings := ⟨false, true, .vertex, .fragment⟩
  let state := [Pairing.both 0 1, .producer 2].foldl settings.record ⟨someVars, []⟩
  let result := settings.assignLocations sortMatches state 1
  result.placed.map Placed.location = [4, 8] ∧ Separate 1 result
  := by
  refine ⟨by decide, ?_⟩
  exact (assignLocations_separate ⟨false, true, .vertex, .fragment⟩
    (fun compare matched => List.perm_insertionSort _ matched) someVars
    [Pairing.both 0 1, .producer 2] 1 (by decide) (by decide) (by decide)).2.1

/-- A patch output of 33 vectors. -/
def wideVars : ℕ → Variable :=
  fun _ => ⟨.array (.vector .float 1 4) 33, .shaderOut, false, false, true, false, .smooth, false,
    true, false⟩

/-- The components of a patch varying that goes on behind the last slot are not counted. -/
theorem not_counts_wideVars :
  let settings : Settings := ⟨true, false, .tessCtrl, .tessEval⟩
  let state := [Pairing.producer 0].foldl settings.record ⟨wideVars, []⟩
  let result := settings.assignLocations sortMatches state 0
  (∀ m ∈ state.matched, 0 < settings.componentsOf state.vars m) ∧
    maxVarying * 4 + 4 + settings.extent state.vars state.matched < 2 ^ 32 ∧
    result.error = false ∧
    ¬ ∀ slot < maxVaryingsInclPatch, Counts result.placed result.components slot
  := by
  refine ⟨by decide, by decide, by decide, fun all => ?_⟩
  have counted := (all 32 (by decide)).1 0 (by decide)
    ⟨_, List.mem_singleton_self _, by decide, by decide⟩
  exact absurd counted (by decide)

end Glsl.Varyings
