import Mesa.Data.Colouring
import Mesa.Util.RegisterAllocate

/-!
# Register sets and interference graphs

What holds of the register sets and of the interference graphs that are built by calls with arguments
in range: conflicts and interferences are symmetric, the q values bound the number of registers that
one register blocks, and the q total of a node is the sum of the q values of its neighbours.
-/

namespace Util

namespace RegisterAllocate

open Finset (range)

theorem Regs.built_of_build {count : ℕ} {lists : Bool} {ops : List RegOp} {regs : Regs}
    (h : Regs.build count lists ops = some regs) :
  Regs.Built ops regs
  := by
  induction ops generalizing regs with
  | nil =>
    obtain rfl := Option.some.inj h
    exact .alloc count lists
  | cons op ops ih =>
    obtain ⟨before, build, step⟩ := Option.bind_eq_some_iff.1 h
    split at step
    · rename_i valid
      obtain rfl := Option.some.inj step
      exact .apply op (ih build) valid
    · cases step

theorem Graph.built_of_build {regs : Regs} {count : ℕ} {ops : List GraphOp} {g : Graph}
    (h : Graph.build regs count ops = some g) :
  Graph.Built regs ops g
  := by
  induction ops generalizing g with
  | nil =>
    obtain rfl := Option.some.inj h
    exact .alloc count
  | cons op ops ih =>
    obtain ⟨before, build, step⟩ := Option.bind_eq_some_iff.1 h
    split at step
    · rename_i valid
      obtain rfl := Option.some.inj step
      exact .apply op (ih build) valid
    · cases step

/-! ### Conflicts -/

namespace Regs

/-- The conflicts of registers are symmetric, and the lists hold them once. -/
structure Conflicts (regs : Regs) : Prop where
  symm : ∀ r r', regs.conflicts r r' = true → regs.conflicts r' r = true
  refl : ∀ r < regs.count, regs.conflicts r r = true
  lt : ∀ r r', regs.conflicts r r' = true → r < regs.count
  nodup : ∀ r, (regs.conflictList r).Nodup
  mem : regs.needConflictLists = true →
    ∀ r r', r' ∈ regs.conflictList r ↔ regs.conflicts r r' = true

theorem conflicts_addConflictList (regs : Regs) (r1 r2 r r' : ℕ) :
  (regs.addConflictList r1 r2).conflicts r r' = true ↔
    (r = r1 ∧ r' = r2) ∨ regs.conflicts r r' = true
  := by
  change Function.update regs.conflicts r1 (Function.update (regs.conflicts r1) r2 true) r r' = true
    ↔ _
  rcases eq_or_ne r r1 with rfl | other
  · rw [Function.update_self]
    rcases eq_or_ne r' r2 with rfl | other'
    · simp
    · rw [Function.update_of_ne other']
      simp [other']
  · rw [Function.update_of_ne other]
    simp [other]

theorem conflictList_addConflictList {regs : Regs} (lists : regs.needConflictLists = true)
    (r1 r2 r : ℕ) :
  (regs.addConflictList r1 r2).conflictList r
    = if r = r1 then regs.conflictList r1 ++ [r2] else regs.conflictList r
  := by
  unfold Regs.addConflictList
  dsimp only
  rw [if_pos lists]
  exact Function.update_apply _ _ _ _

theorem nodup_snoc {l : List ℕ} {x : ℕ} (h : l.Nodup) (fresh : x ∉ l) :
  (l ++ [x]).Nodup
  := by
  apply List.nodup_append.2
  refine ⟨h, List.nodup_singleton x, ?_⟩
  intro a ha b hb same
  rw [List.mem_singleton.1 hb] at same
  exact fresh (same ▸ ha)

theorem Conflicts.addRegConflict {regs : Regs} (h : Conflicts regs) {r1 r2 : ℕ}
    (h1 : r1 < regs.count) (h2 : r2 < regs.count) :
  Conflicts (regs.addRegConflict r1 r2)
  := by
  unfold Regs.addRegConflict
  split
  · exact h
  rename_i new
  have different : r1 ≠ r2 := by
    rintro rfl
    exact new (h.refl r1 h1)
  have conflicts : ∀ r r', ((regs.addConflictList r1 r2).addConflictList r2 r1).conflicts r r' = true
      ↔ (r = r2 ∧ r' = r1) ∨ (r = r1 ∧ r' = r2) ∨ regs.conflicts r r' = true := by
    intro r r'
    rw [conflicts_addConflictList, conflicts_addConflictList]
  have list : regs.needConflictLists = true → ∀ r,
      ((regs.addConflictList r1 r2).addConflictList r2 r1).conflictList r
        = if r = r2 then regs.conflictList r2 ++ [r1]
          else if r = r1 then regs.conflictList r1 ++ [r2] else regs.conflictList r := by
    intro lists r
    rw [@conflictList_addConflictList (regs.addConflictList r1 r2) lists,
      conflictList_addConflictList lists, conflictList_addConflictList lists,
      if_neg different.symm]
  constructor
  · intro r r' conflict
    rw [conflicts] at conflict ⊢
    rcases conflict with ⟨rfl, rfl⟩ | ⟨rfl, rfl⟩ | old
    · exact .inr (.inl ⟨rfl, rfl⟩)
    · exact .inl ⟨rfl, rfl⟩
    · exact .inr (.inr (h.symm r r' old))
  · intro r lt
    rw [conflicts]
    exact .inr (.inr (h.refl r lt))
  · intro r r' conflict
    rw [conflicts] at conflict
    change r < regs.count
    rcases conflict with ⟨rfl, rfl⟩ | ⟨rfl, rfl⟩ | old
    · exact h2
    · exact h1
    · exact h.lt r r' old
  · intro r
    by_cases lists : regs.needConflictLists = true
    · rw [list lists]
      split
      · exact nodup_snoc (h.nodup r2) (fun mem => new (h.symm _ _ ((h.mem lists _ _).1 mem)))
      · split
        · exact nodup_snoc (h.nodup r1) (fun mem => new ((h.mem lists _ _).1 mem))
        · exact h.nodup r
    · unfold Regs.addConflictList
      simp only [if_neg lists]
      exact h.nodup r
  · intro lists r r'
    change regs.needConflictLists = true at lists
    have before := h.mem lists
    rw [conflicts, list lists]
    split
    · rename_i same
      subst same
      rw [List.mem_append, List.mem_singleton, before]
      constructor
      · rintro (old | rfl)
        · exact .inr (.inr old)
        · exact .inl ⟨rfl, rfl⟩
      · rintro (⟨-, rfl⟩ | ⟨same, -⟩ | old)
        · exact .inr rfl
        · exact absurd same.symm different
        · exact .inl old
    · rename_i other
      split
      · rename_i same
        subst same
        rw [List.mem_append, List.mem_singleton, before]
        constructor
        · rintro (old | rfl)
          · exact .inr (.inr old)
          · exact .inr (.inl ⟨rfl, rfl⟩)
        · rintro (⟨same, -⟩ | ⟨-, rfl⟩ | old)
          · exact absurd same other
          · exact .inr rfl
          · exact .inl old
      · rename_i other'
        rw [before]
        simp [other, other']

theorem count_addRegConflict (regs : Regs) (r1 r2 : ℕ) :
  (regs.addRegConflict r1 r2).count = regs.count ∧
    (regs.addRegConflict r1 r2).needConflictLists = regs.needConflictLists ∧
    (regs.addRegConflict r1 r2).classes = regs.classes ∧
    (regs.addRegConflict r1 r2).classCount = regs.classCount
  := by
  unfold Regs.addRegConflict
  split
  · exact ⟨rfl, rfl, rfl, rfl⟩
  · exact ⟨rfl, rfl, rfl, rfl⟩

theorem count_transitiveLoop (baseReg reg fuel i : ℕ) (regs : Regs) :
  (transitiveLoop baseReg reg fuel i regs).count = regs.count ∧
    (transitiveLoop baseReg reg fuel i regs).needConflictLists = regs.needConflictLists ∧
    (transitiveLoop baseReg reg fuel i regs).classes = regs.classes ∧
    (transitiveLoop baseReg reg fuel i regs).classCount = regs.classCount
  := by
  induction fuel generalizing i regs with
  | zero => exact ⟨rfl, rfl, rfl, rfl⟩
  | succ fuel ih =>
    unfold transitiveLoop
    split
    · rename_i r _
      obtain ⟨h₁, h₂, h₃, h₄⟩ := ih (i + 1) (regs.addRegConflict reg r)
      obtain ⟨h₁', h₂', h₃', h₄'⟩ := count_addRegConflict regs reg r
      exact ⟨h₁.trans h₁', h₂.trans h₂', h₃.trans h₃', h₄.trans h₄'⟩
    · exact ⟨rfl, rfl, rfl, rfl⟩

theorem Conflicts.transitiveLoop {regs : Regs} (h : Conflicts regs)
    (lists : regs.needConflictLists = true) {baseReg reg : ℕ} (hreg : reg < regs.count)
    (fuel i : ℕ) :
  Conflicts (transitiveLoop baseReg reg fuel i regs)
  := by
  induction fuel generalizing i regs with
  | zero => exact h
  | succ fuel ih =>
    unfold Regs.transitiveLoop
    split
    · rename_i r found
      have conflict := (h.mem lists _ _).1 (List.mem_of_getElem? found)
      obtain ⟨count, lists', -, -⟩ := count_addRegConflict regs reg r
      apply ih
      · exact h.addRegConflict hreg (h.lt _ _ (h.symm _ _ conflict))
      · rw [lists']
        exact lists
      · rw [count]
        exact hreg
    · exact h

end Regs

theorem Regs.Built.conflicts {ops : List RegOp} {regs : Regs} (built : Regs.Built ops regs) :
  regs.Conflicts
  := by
  induction built with
  | alloc count lists =>
    constructor
    · intro r r' conflict
      obtain ⟨lt, rfl⟩ := of_decide_eq_true conflict
      exact conflict
    · intro r lt
      exact decide_eq_true ⟨lt, rfl⟩
    · intro r r' conflict
      exact (of_decide_eq_true conflict).1
    · intro r
      change (if lists = true ∧ r < count then [r] else []).Nodup
      split
      · exact List.nodup_singleton r
      · exact List.nodup_nil
    · intro need r r'
      change r' ∈ (if lists = true ∧ r < count then [r] else []) ↔
        decide (r < count ∧ r' = r) = true
      rw [decide_eq_true_iff]
      change lists = true at need
      split
      · rename_i lt
        rw [List.mem_singleton]
        exact ⟨fun same => ⟨lt.2, same⟩, fun h => h.2⟩
      · rename_i out
        exact ⟨fun mem => absurd mem List.not_mem_nil, fun h => absurd ⟨need, h.1⟩ out⟩
  | apply op _ valid ih =>
    cases op with
    | setAllocateRoundRobin => exact ⟨ih.symm, ih.refl, ih.lt, ih.nodup, ih.mem⟩
    | addRegConflict r1 r2 => exact ih.addRegConflict valid.1 valid.2
    | addTransitiveRegConflict baseReg reg =>
      rename_i regs _
      obtain ⟨count, lists, -, -⟩ := Regs.count_addRegConflict regs reg baseReg
      apply Regs.Conflicts.transitiveLoop (ih.addRegConflict valid.2.1 valid.1)
      · rw [lists]
        exact valid.2.2
      · rw [count]
        exact valid.2.1
    | allocRegClass => exact ⟨ih.symm, ih.refl, ih.lt, ih.nodup, ih.mem⟩
    | classAddReg c r => exact ⟨ih.symm, ih.refl, ih.lt, ih.nodup, ih.mem⟩

/-! ### Classes -/

namespace Regs

/-- The registers of a class. -/
def regsOf (regs : Regs) (c : ℕ) : Finset ℕ :=
  (range regs.count).filter fun r => regs.regBelongsToClass r c = true

/-- The registers that conflict with a register. -/
def blockedBy (regs : Regs) (r : ℕ) : Finset ℕ :=
  (range regs.count).filter fun r' => regs.conflicts r' r = true

end Regs

/-- No register is added twice to a class. -/
def AddedOnce (ops : List RegOp) : Prop := ∀ c r, ops.count (.classAddReg c r) ≤ 1

theorem AddedOnce.tail {op : RegOp} {ops : List RegOp} (h : AddedOnce (op :: ops)) :
  AddedOnce ops
  := by
  intro c r
  exact Nat.le_trans List.count_le_count_cons (h c r)

namespace Regs

/-- The classes hold the registers that were added to them. -/
structure Classes (ops : List RegOp) (regs : Regs) : Prop where
  empty : ∀ c, regs.classCount ≤ c → regs.classes c = {}
  lt : ∀ c r, regs.regBelongsToClass r c = true → r < regs.count
  mem : ∀ c r, regs.regBelongsToClass r c = true → .classAddReg c r ∈ ops
  size : AddedOnce ops → ∀ c, (regs.classes c).p = (regs.regsOf c).card

theorem Classes.of_eq {ops : List RegOp} {regs regs' : Regs} (h : Classes ops regs) (op : RegOp)
    (count : regs'.count = regs.count) (classes : regs'.classes = regs.classes)
    (classCount : regs'.classCount = regs.classCount) :
  Classes (op :: ops) regs'
  := by
  constructor
  · rw [classCount, classes]
    exact h.empty
  · intro c r
    rw [regBelongsToClass, classes, count]
    exact h.lt c r
  · intro c r
    rw [regBelongsToClass, classes]
    intro mem
    exact List.mem_cons_of_mem _ (h.mem c r mem)
  · intro once c
    have before := h.size once.tail c
    rw [classes, before]
    unfold regsOf regBelongsToClass
    rw [count, classes]

theorem Classes.allocRegClass {ops : List RegOp} {regs : Regs} (h : Classes ops regs) :
  Classes (.allocRegClass :: ops) regs.allocRegClass
  := by
  -- the class was empty before
  have classes : regs.allocRegClass.classes = regs.classes := by
    change Function.update regs.classes regs.classCount {} = regs.classes
    rw [← h.empty regs.classCount (Nat.le_refl _), Function.update_eq_self]
  constructor
  · intro c ge
    rw [classes]
    change regs.classCount + 1 ≤ c at ge
    exact h.empty c (by omega)
  · intro c r
    rw [regBelongsToClass, classes]
    exact h.lt c r
  · intro c r
    rw [regBelongsToClass, classes]
    intro mem
    exact List.mem_cons_of_mem _ (h.mem c r mem)
  · intro once c
    have before := h.size once.tail c
    rw [classes, before]
    simp only [regsOf, regBelongsToClass, classes]
    rfl

theorem Classes.classAddReg {ops : List RegOp} {regs : Regs} (h : Classes ops regs) {c r : ℕ}
    (hc : c < regs.classCount) (hr : r < regs.count) :
  Classes (.classAddReg c r :: ops) (regs.classAddReg c r)
  := by
  have same : ∀ c', c' ≠ c → (regs.classAddReg c r).classes c' = regs.classes c' := by
    intro c' other
    exact Function.update_of_ne other _ _
  have here : (regs.classAddReg c r).classes c
      = ⟨Function.update (regs.classes c).regs r true, (regs.classes c).p + 1⟩ :=
    Function.update_self _ _ _
  have belongs : ∀ c' r', (regs.classAddReg c r).regBelongsToClass r' c' = true ↔
      (c' = c ∧ r' = r) ∨ regs.regBelongsToClass r' c' = true := by
    intro c' r'
    unfold regBelongsToClass
    rcases eq_or_ne c' c with rfl | other
    · rw [here]
      dsimp only
      rcases eq_or_ne r' r with rfl | other'
      · simp
      · rw [Function.update_of_ne other']
        simp [other']
    · rw [same c' other]
      simp [other]
  constructor
  · intro c' ge
    change regs.classCount ≤ c' at ge
    rw [same c' (by omega)]
    exact h.empty c' ge
  · intro c' r' mem
    rcases (belongs c' r').1 mem with ⟨-, rfl⟩ | old
    · exact hr
    · exact h.lt c' r' old
  · intro c' r' mem
    rcases (belongs c' r').1 mem with ⟨rfl, rfl⟩ | old
    · exact List.mem_cons_self
    · exact List.mem_cons_of_mem _ (h.mem c' r' old)
  · intro once c'
    have before := h.size once.tail c'
    rcases eq_or_ne c' c with rfl | other
    · have new : regs.regBelongsToClass r c' ≠ true := by
        intro mem
        have twice := once c' r
        rw [List.count_cons_self] at twice
        have := List.count_pos_iff.2 (h.mem c' r mem)
        omega
      have more : (regs.classAddReg c' r).regsOf c' = insert r (regs.regsOf c') := by
        apply Finset.ext
        intro x
        simp only [regsOf, Finset.mem_filter, Finset.mem_insert, Finset.mem_range, belongs]
        constructor
        · rintro ⟨lt, ⟨-, rfl⟩ | old⟩
          · exact .inl rfl
          · exact .inr ⟨lt, old⟩
        · rintro (rfl | ⟨lt, old⟩)
          · exact ⟨hr, .inl ⟨trivial, rfl⟩⟩
          · exact ⟨lt, .inr old⟩
      rw [more, here, Finset.card_insert_of_notMem, before]
      intro mem
      exact new (Finset.mem_filter.1 mem).2
    · have unchanged : (regs.classAddReg c r).regsOf c' = regs.regsOf c' := by
        apply Finset.ext
        intro x
        simp only [regsOf, Finset.mem_filter, belongs, other, false_and, false_or]
        rfl
      rw [same c' other, unchanged, before]

end Regs

theorem Regs.Built.classes {ops : List RegOp} {regs : Regs} (built : Regs.Built ops regs) :
  regs.Classes ops
  := by
  induction built with
  | alloc count lists =>
    constructor
    · intro c _
      rfl
    · intro c r mem
      cases mem
    · intro c r mem
      cases mem
    · intro _ c
      change 0 = ((range count).filter fun r => false = true).card
      simp
  | apply op _ valid ih =>
    rename_i regs _
    cases op with
    | setAllocateRoundRobin => exact ih.of_eq _ rfl rfl rfl
    | addRegConflict r1 r2 =>
      obtain ⟨count, -, classes, classCount⟩ := Regs.count_addRegConflict regs r1 r2
      exact ih.of_eq _ count classes classCount
    | addTransitiveRegConflict baseReg reg =>
      obtain ⟨count, -, classes, classCount⟩ := Regs.count_addRegConflict regs reg baseReg
      obtain ⟨count', -, classes', classCount'⟩ := Regs.count_transitiveLoop baseReg reg
        (regs.count + 1) 0 (regs.addRegConflict reg baseReg)
      exact ih.of_eq _ (count'.trans count) (classes'.trans classes) (classCount'.trans classCount)
    | allocRegClass => exact ih.allocRegClass
    | classAddReg c r => exact ih.classAddReg valid.1 valid.2

/-! ### Q values -/

theorem le_foldl_max {f : ℕ → ℕ} {p : ℕ → Bool} {l : List ℕ} (init : ℕ) :
  init ≤ l.foldl (fun m x => if p x then max m (f x) else m) init ∧
    ∀ x ∈ l, p x = true → f x ≤ l.foldl (fun m x => if p x then max m (f x) else m) init
  := by
  induction l generalizing init with
  | nil => exact ⟨Nat.le_refl _, fun x mem => absurd mem List.not_mem_nil⟩
  | cons y l ih =>
    obtain ⟨first, later⟩ := ih (if p y then max init (f y) else init)
    rw [List.foldl_cons]
    constructor
    · apply Nat.le_trans _ first
      split
      · exact Nat.le_max_left _ _
      · exact Nat.le_refl _
    · intro x mem px
      rcases List.mem_cons.1 mem with rfl | tail
      · apply Nat.le_trans _ first
        rw [if_pos px]
        exact Nat.le_max_right _ _
      · exact later x tail px

/-- A register blocks at most as many registers of a class as the q value says. -/
theorem Regs.Built.card_blocked_le {ops : List RegOp} {regs : Regs} (built : Regs.Built ops regs)
    (lists : regs.needConflictLists = true) {b c r : ℕ} (mem : regs.regBelongsToClass r c = true) :
  (regs.regsOf b ∩ regs.blockedBy r).card ≤ regs.worstConflicts b c
  := by
  have conflicts := built.conflicts
  have lt := built.classes.lt c r mem
  have counted : (regs.regsOf b ∩ regs.blockedBy r).card = regs.numConflicts b r := by
    have same : regs.regsOf b ∩ regs.blockedBy r
        = ((regs.conflictList r).filter (regs.regBelongsToClass · b)).toFinset := by
      apply Finset.ext
      intro x
      simp only [Regs.regsOf, Regs.blockedBy, Finset.mem_inter, Finset.mem_filter,
        Finset.mem_range, List.mem_toFinset, List.mem_filter, conflicts.mem lists]
      constructor
      · rintro ⟨⟨-, inClass⟩, -, conflict⟩
        exact ⟨conflicts.symm _ _ conflict, inClass⟩
      · rintro ⟨conflict, inClass⟩
        have symm := conflicts.symm _ _ conflict
        exact ⟨⟨conflicts.lt _ _ symm, inClass⟩, conflicts.lt _ _ symm, symm⟩
    rw [same, List.toFinset_card_of_nodup ((conflicts.nodup r).filter _), Regs.numConflicts,
      List.countP_eq_length_filter]
  rw [counted]
  exact (le_foldl_max (f := regs.numConflicts b) (p := (regs.regBelongsToClass · c)) 0).2 r
    (List.mem_range.2 lt) mem

/-! ### Interference -/

/-- The class of a node is set before interferences are added to it; the last call comes first. -/
def ClassesFirst (ops : List GraphOp) : Prop :=
  ops.Pairwise fun later earlier => ∀ n c n1 n2, later = .setNodeClass n c →
    earlier = .addNodeInterference n1 n2 → n ≠ n1 ∧ n ≠ n2

namespace Graph

/-- Interference is symmetric, and the lists hold it once. -/
structure Adjacency (ops : List GraphOp) (g : Graph) : Prop where
  symm : ∀ n1 n2, n2 ∈ g.adjacencyList n1 → n1 ∈ g.adjacencyList n2
  irrefl : ∀ n, n ∉ g.adjacencyList n
  nodup : ∀ n, (g.adjacencyList n).Nodup
  lt : ∀ n1 n2, n2 ∈ g.adjacencyList n1 → n1 < g.count
  mem : ∀ n1 n2, .addNodeInterference n1 n2 ∈ ops → n1 ≠ n2 → n2 ∈ g.adjacencyList n1
  of_mem : ∀ n1 n2, n2 ∈ g.adjacencyList n1 →
    .addNodeInterference n1 n2 ∈ ops ∨ .addNodeInterference n2 n1 ∈ ops

theorem adjacencyList_addNodeInterference {g : Graph} {n1 n2 : ℕ} (h : n1 ≠ n2) (n : ℕ) :
  ((g.addNodeAdjacency n1 n2).addNodeAdjacency n2 n1).adjacencyList n
    = if n = n2 then g.adjacencyList n2 ++ [n1]
      else if n = n1 then g.adjacencyList n1 ++ [n2] else g.adjacencyList n
  := by
  change Function.update (Function.update g.adjacencyList n1 (g.adjacencyList n1 ++ [n2])) n2
    (Function.update g.adjacencyList n1 (g.adjacencyList n1 ++ [n2]) n2 ++ [n1]) n = _
  rw [Function.update_of_ne h.symm, Function.update_apply, Function.update_apply]

theorem Adjacency.of_eq {ops : List GraphOp} {g g' : Graph} (h : Adjacency ops g) {op : GraphOp}
    (other : ∀ n1 n2, op ≠ .addNodeInterference n1 n2)
    (list : g'.adjacencyList = g.adjacencyList) (count : g'.count = g.count) :
  Adjacency (op :: ops) g'
  := by
  constructor
  · rw [list]
    exact h.symm
  · rw [list]
    exact h.irrefl
  · rw [list]
    exact h.nodup
  · rw [list, count]
    exact h.lt
  · intro n1 n2 mem
    rcases List.mem_cons.1 mem with new | old
    · exact absurd new.symm (other n1 n2)
    · rw [list]
      exact h.mem n1 n2 old
  · intro n1 n2 mem
    rw [list] at mem
    rcases h.of_mem n1 n2 mem with old | old
    · exact .inl (List.mem_cons_of_mem _ old)
    · exact .inr (List.mem_cons_of_mem _ old)

theorem Adjacency.addNodeInterference {ops : List GraphOp} {g : Graph} (h : Adjacency ops g)
    {n1 n2 : ℕ} (h1 : n1 < g.count) (h2 : n2 < g.count) :
  Adjacency (.addNodeInterference n1 n2 :: ops) (g.addNodeInterference n1 n2)
  := by
  unfold Graph.addNodeInterference
  split
  · rename_i new
    obtain ⟨different, fresh⟩ := new
    have fresh' : n1 ∉ g.adjacencyList n2 := fun mem => fresh (h.symm _ _ mem)
    have list := adjacencyList_addNodeInterference (g := g) different
    have mem_iff : ∀ n n', n' ∈ ((g.addNodeAdjacency n1 n2).addNodeAdjacency n2 n1).adjacencyList n
        ↔ (n = n2 ∧ n' = n1) ∨ (n = n1 ∧ n' = n2) ∨ n' ∈ g.adjacencyList n := by
      intro n n'
      rw [list]
      split
      · rename_i same
        subst same
        rw [List.mem_append, List.mem_singleton]
        constructor
        · rintro (old | rfl)
          · exact .inr (.inr old)
          · exact .inl ⟨rfl, rfl⟩
        · rintro (⟨-, rfl⟩ | ⟨same, -⟩ | old)
          · exact .inr rfl
          · exact absurd same.symm different
          · exact .inl old
      · rename_i other
        split
        · rename_i same
          subst same
          rw [List.mem_append, List.mem_singleton]
          constructor
          · rintro (old | rfl)
            · exact .inr (.inr old)
            · exact .inr (.inl ⟨rfl, rfl⟩)
          · rintro (⟨same, -⟩ | ⟨-, rfl⟩ | old)
            · exact absurd same other
            · exact .inr rfl
            · exact .inl old
        · rename_i other'
          simp [other, other']
    constructor
    · intro n n' mem
      rw [mem_iff] at mem ⊢
      rcases mem with ⟨rfl, rfl⟩ | ⟨rfl, rfl⟩ | old
      · exact .inr (.inl ⟨rfl, rfl⟩)
      · exact .inl ⟨rfl, rfl⟩
      · exact .inr (.inr (h.symm _ _ old))
    · intro n mem
      rcases (mem_iff n n).1 mem with ⟨rfl, same⟩ | ⟨rfl, same⟩ | old
      · exact different same.symm
      · exact different same
      · exact h.irrefl n old
    · intro n
      rw [list]
      split
      · exact Regs.nodup_snoc (h.nodup n2) fresh'
      · split
        · exact Regs.nodup_snoc (h.nodup n1) fresh
        · exact h.nodup n
    · intro n n' mem
      change n < g.count
      rcases (mem_iff n n').1 mem with ⟨rfl, rfl⟩ | ⟨rfl, rfl⟩ | old
      · exact h2
      · exact h1
      · exact h.lt n n' old
    · intro n n' mem other
      rw [mem_iff]
      rcases List.mem_cons.1 mem with new | old
      · obtain ⟨rfl, rfl⟩ := GraphOp.addNodeInterference.inj new
        exact .inr (.inl ⟨rfl, rfl⟩)
      · exact .inr (.inr (h.mem n n' old other))
    · intro n n' mem
      rcases (mem_iff n n').1 mem with ⟨rfl, rfl⟩ | ⟨rfl, rfl⟩ | old
      · exact .inr List.mem_cons_self
      · exact .inl List.mem_cons_self
      · rcases h.of_mem n n' old with old | old
        · exact .inl (List.mem_cons_of_mem _ old)
        · exact .inr (List.mem_cons_of_mem _ old)
  · rename_i old
    constructor
    · exact h.symm
    · exact h.irrefl
    · exact h.nodup
    · exact h.lt
    · intro n n' mem other
      rcases List.mem_cons.1 mem with new | earlier
      · obtain ⟨rfl, rfl⟩ := GraphOp.addNodeInterference.inj new
        by_contra missing
        exact old ⟨other, missing⟩
      · exact h.mem n n' earlier other
    · intro n n' mem
      rcases h.of_mem n n' mem with old | old
      · exact .inl (List.mem_cons_of_mem _ old)
      · exact .inr (List.mem_cons_of_mem _ old)

end Graph

theorem Graph.Built.adjacency {regs : Regs} {ops : List GraphOp} {g : Graph}
    (built : Graph.Built regs ops g) :
  g.Adjacency ops
  := by
  induction built with
  | alloc count =>
    constructor
    · intro n1 n2 mem
      cases mem
    · intro n mem
      cases mem
    · intro n
      exact List.nodup_nil
    · intro n1 n2 mem
      cases mem
    · intro n1 n2 mem
      cases mem
    · intro n1 n2 mem
      cases mem
  | apply op _ valid ih =>
    cases op with
    | setNodeClass n c => exact ih.of_eq (by simp) rfl rfl
    | addNodeInterference n1 n2 => exact ih.addNodeInterference valid.1 valid.2
    | setNodeReg n r => exact ih.of_eq (by simp) rfl rfl

/-- A graph that was built has nothing on its stack. -/
theorem Graph.Built.idle {regs : Regs} {ops : List GraphOp} {g : Graph}
    (built : Graph.Built regs ops g) :
  g.regs = regs ∧ (∀ n, g.inStack n = false) ∧ g.stack = [] ∧ g.stackOptimisticStart = none ∧
    g.asserts = true
  := by
  induction built with
  | alloc count => exact ⟨rfl, fun _ => rfl, rfl, rfl, rfl⟩
  | apply op _ valid ih =>
    rename_i g _
    obtain ⟨hregs, inStack, stack, start, asserts⟩ := ih
    cases op with
    | setNodeClass n c => exact ⟨hregs, inStack, stack, start, asserts⟩
    | addNodeInterference n1 n2 =>
      unfold GraphOp.apply Graph.addNodeInterference
      dsimp only
      split
      · exact ⟨hregs, inStack, stack, start, asserts⟩
      · exact ⟨hregs, inStack, stack, start, asserts⟩
    | setNodeReg n r =>
      refine ⟨hregs, ?_, stack, start, asserts⟩
      intro n'
      change Function.update g.inStack n false n' = false
      rcases eq_or_ne n' n with rfl | other
      · exact Function.update_self _ _ _
      · rw [Function.update_of_ne other]
        exact inStack n'

/-- Only the nodes that are forced have registers. -/
theorem Graph.Built.reg_eq_none {regs : Regs} {ops : List GraphOp} {g : Graph}
    (built : Graph.Built regs ops g) {n : ℕ} (free : ∀ r, .setNodeReg n r ∉ ops) :
  g.reg n = none
  := by
  induction built with
  | alloc count => rfl
  | apply op _ valid ih =>
    rename_i g _
    have before := ih fun r mem => free r (List.mem_cons_of_mem _ mem)
    cases op with
    | setNodeClass n' c => exact before
    | addNodeInterference n1 n2 =>
      unfold GraphOp.apply Graph.addNodeInterference
      dsimp only
      split
      · exact before
      · exact before
    | setNodeReg n' r =>
      have other : n ≠ n' := by
        rintro rfl
        exact free r List.mem_cons_self
      change Function.update g.reg n' (some r) n = none
      rw [Function.update_of_ne other]
      exact before

/-- The q total of a node is the sum of the q values of its neighbours. -/
theorem Graph.Built.qTotal_eq {regs : Regs} {ops : List GraphOp} {g : Graph}
    (built : Graph.Built regs ops g) (first : ClassesFirst ops) (n : ℕ) :
  g.qTotal n = ((g.adjacencyList n).map (g.q n)).sum
  := by
  induction built generalizing n with
  | alloc count => rfl
  | apply op built valid ih =>
    rename_i ops g
    obtain ⟨later, earlier⟩ := List.pairwise_cons.1 first
    have before := ih earlier
    have adjacency := built.adjacency
    cases op with
    | setNodeClass n' c =>
      -- the node has no neighbours yet, and is no neighbour of others
      have none : ∀ m, n' ∉ g.adjacencyList m := by
        intro m mem
        rcases adjacency.of_mem m n' mem with op | op
        · exact (later _ op n' c m n' rfl rfl).2 rfl
        · exact (later _ op n' c n' m rfl rfl).1 rfl
      have empty : g.adjacencyList n' = [] := by
        apply List.eq_nil_iff_forall_not_mem.2
        intro m mem
        exact none m (adjacency.symm _ _ mem)
      change g.qTotal n = ((g.adjacencyList n).map ((g.setNodeClass n' c).q n)).sum
      rw [before]
      congr 1
      apply List.map_congr_left
      intro m mem
      unfold Graph.q
      change g.regs.q _ _ = g.regs.q (Function.update g.nodeClass n' c n)
        (Function.update g.nodeClass n' c m)
      rw [Function.update_of_ne, Function.update_of_ne]
      · rintro rfl
        exact none n mem
      · rintro rfl
        rw [empty] at mem
        cases mem
    | setNodeReg n' r => exact before n
    | addNodeInterference n1 n2 =>
      change (g.addNodeInterference n1 n2).qTotal n
        = (((g.addNodeInterference n1 n2).adjacencyList n).map
          ((g.addNodeInterference n1 n2).q n)).sum
      unfold Graph.addNodeInterference
      split
      · rename_i new
        have different := new.1
        rw [Graph.adjacencyList_addNodeInterference different]
        change Function.update (Function.update g.qTotal n1 (g.qTotal n1 + g.q n1 n2)) n2
          (Function.update g.qTotal n1 (g.qTotal n1 + g.q n1 n2) n2 + g.q n2 n1) n
          = List.sum (List.map (g.q n) _)
        rw [Function.update_of_ne different.symm, Function.update_apply, Function.update_apply]
        split
        · rename_i same
          rw [before n2, same, List.map_append, List.sum_append, List.map_singleton,
            List.sum_singleton]
        · split
          · rename_i same
            rw [before n1, same, List.map_append, List.sum_append, List.map_singleton,
              List.sum_singleton]
          · exact before n
      · exact before n

end RegisterAllocate

end Util
