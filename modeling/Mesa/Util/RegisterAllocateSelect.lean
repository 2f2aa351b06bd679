import Mesa.Util.RegisterAllocateSimplify

/-!
# Selection of registers

The nodes are popped from the stack and given registers.  What was given never conflicts with what is
given to a neighbour, and a node of a trivial stack always finds a register.
-/

namespace Util

namespace RegisterAllocate

/-- A policy picks one of the registers that are available. -/
def Picks (select : SelectReg) : Prop :=
  ∀ (g : Graph) (available : ℕ → Bool), (∃ r < g.regs.count, available r = true) →
    available (select g available) = true

namespace Graph

/-! ### The register of one node -/

/-- A register is in the class of a node, and does not conflict with its coloured neighbours. -/
structure Suitable (g : Graph) (n r : ℕ) : Prop where
  belongs : g.regs.regBelongsToClass r (g.nodeClass n) = true
  apart : ∀ n2 ∈ g.adjacencyList n, g.inStack n2 = false → ∀ r2, g.reg n2 = some r2 →
    g.regs.conflicts r r2 = false

theorem suitable_of_available {g : Graph} (conflicts : g.regs.Conflicts) {n r : ℕ}
    (available : g.availableRegs n r = true) :
  g.Suitable n r
  := by
  obtain ⟨belongs, all⟩ := (Bool.and_eq_true _ _).mp available
  refine ⟨belongs, ?_⟩
  intro n2 mem outside r2 reg
  have free := List.all_eq_true.1 all n2 mem
  rw [outside, reg] at free
  by_contra conflict
  have symm := conflicts.symm _ _ (Bool.of_not_eq_false conflict)
  rw [Option.any_some, symm] at free
  cases free

theorem available_of_suitable {g : Graph} (conflicts : g.regs.Conflicts) {n r : ℕ}
    (suitable : g.Suitable n r) :
  g.availableRegs n r = true
  := by
  apply (Bool.and_eq_true _ _).mpr
  refine ⟨suitable.belongs, ?_⟩
  apply List.all_eq_true.2
  intro n2 mem
  cases outside : g.inStack n2 with
  | true => rfl
  | false =>
    cases reg : g.reg n2 with
    | none => rfl
    | some r2 =>
      cases conflict : g.regs.conflicts r2 r with
      | false => simp [conflict]
      | true =>
        have apart := suitable.apart n2 mem outside r2 reg
        rw [conflicts.symm _ _ conflict] at apart
        cases apart

theorem suitable_iff_search {g : Graph} {n r : ℕ} :
  g.Suitable n r ↔
    (g.regs.regBelongsToClass r (g.nodeClass n) && !g.anyNeighborsConflict n r) = true
  := by
  rw [Bool.and_eq_true, Bool.not_eq_true', anyNeighborsConflict, List.any_eq_false]
  constructor
  · rintro ⟨belongs, apart⟩
    refine ⟨belongs, ?_⟩
    intro n2 mem conflict
    obtain ⟨outside, conflict⟩ := (Bool.and_eq_true _ _).mp conflict
    obtain ⟨r2, reg, conflict⟩ := Option.any_eq_true _ _ |>.1 conflict
    rw [apart n2 mem (by simpa using outside) r2 reg] at conflict
    cases conflict
  · rintro ⟨belongs, none⟩
    refine ⟨belongs, ?_⟩
    intro n2 mem outside r2 reg
    by_contra conflict
    apply none n2 mem
    rw [outside, conflictsWith, reg, Option.any_some, Bool.of_not_eq_false conflict]
    rfl

/-- The register that is chosen is suitable. -/
theorem suitable_of_chooseReg {g : Graph} (conflicts : g.regs.Conflicts)
    {callback : Option SelectReg} (picks : ∀ select ∈ callback, Picks select) {start n r : ℕ}
    (choose : g.chooseReg callback start n = some r) :
  g.Suitable n r
  := by
  cases callback with
  | some select =>
    unfold chooseReg at choose
    dsimp only at choose
    split at choose
    · rename_i any
      obtain rfl := Option.some.inj choose
      apply suitable_of_available conflicts
      apply picks select rfl
      obtain ⟨r, mem, available⟩ := List.any_eq_true.1 any
      exact ⟨r, List.mem_range.1 mem, available⟩
    · cases choose
  | none =>
    have found := List.find?_some choose
    exact suitable_iff_search.2 found

/-- A register is chosen if there is a suitable one. -/
theorem chooseReg_ne_none {g : Graph} (conflicts : g.regs.Conflicts)
    (callback : Option SelectReg) (start : ℕ) {n r : ℕ} (lt : r < g.regs.count)
    (suitable : g.Suitable n r) :
  g.chooseReg callback start n ≠ none
  := by
  cases callback with
  | some select =>
    unfold chooseReg
    dsimp only
    rw [if_pos]
    · exact Option.some_ne_none _
    · apply List.any_eq_true.2
      exact ⟨r, List.mem_range.2 lt, available_of_suitable conflicts suitable⟩
  | none =>
    intro none
    have all := List.find?_eq_none.1 none
    -- the search starts anywhere, but goes through all registers
    have visited : r ∈ (List.range g.regs.count).map fun ri => (start + ri) % g.regs.count := by
      apply List.mem_map.2
      refine ⟨(r + (g.regs.count - start % g.regs.count)) % g.regs.count, ?_, ?_⟩
      · exact List.mem_range.2 (Nat.mod_lt _ (by omega))
      · have below := Nat.mod_lt start (show g.regs.count > 0 by omega)
        rw [Nat.add_mod_mod, ← Nat.mod_add_mod]
        have around : start % g.regs.count + (r + (g.regs.count - start % g.regs.count))
            = r + g.regs.count := by
          omega
        rw [around, Nat.add_mod_right, Nat.mod_eq_of_lt lt]
    exact all r visited (suitable_iff_search.1 suitable)

/-! ### The loop -/

/-- What holds when the nodes of `stack` are still to be given registers. -/
structure Selecting (g₀ g : Graph) (stack : List ℕ) : Prop where
  regs : g.regs = g₀.regs
  count : g.count = g₀.count
  nodeClass : g.nodeClass = g₀.nodeClass
  adjacencyList : g.adjacencyList = g₀.adjacencyList
  inStack : ∀ n, g.inStack n = true ↔ n ∈ stack
  nodup : stack.Nodup
  free : ∀ n ∈ stack, g₀.reg n = none
  forced : ∀ n r, g₀.reg n = some r → g.reg n = some r
  coloured : ∀ n < g₀.count, n ∉ stack →
    ∃ r, g.reg n = some r ∧
      (g₀.reg n = none → g₀.regs.regBelongsToClass r (g₀.nodeClass n) = true)
  apart : ∀ n1 n2 r1 r2, n2 ∈ g₀.adjacencyList n1 → n1 ∉ stack → n2 ∉ stack →
    g₀.reg n1 = none ∨ g₀.reg n2 = none → g.reg n1 = some r1 → g.reg n2 = some r2 →
    g₀.regs.conflicts r1 r2 = false

/-- The next node is popped from the stack. -/
def pop (g : Graph) (n : ℕ) : Graph :=
  { g with inStack := Function.update g.inStack n false }

theorem Selecting.inStack_pop {g₀ g : Graph} {n : ℕ} {stack : List ℕ}
    (h : Selecting g₀ g (n :: stack)) (n' : ℕ) :
  (g.pop n).inStack n' = true ↔ n' ∈ stack
  := by
  change Function.update g.inStack n false n' = true ↔ n' ∈ stack
  rcases eq_or_ne n' n with rfl | other
  · rw [Function.update_self]
    have fresh := (List.nodup_cons.1 h.nodup).1
    simp [fresh]
  · rw [Function.update_of_ne other, h.inStack, List.mem_cons, or_iff_right other]

theorem Selecting.assign {g₀ g : Graph} {n : ℕ} {stack : List ℕ} {ops : List GraphOp}
    (h : Selecting g₀ g (n :: stack)) (adjacency : g₀.Adjacency ops) (conflicts : g₀.regs.Conflicts)
    {r : ℕ} (suitable : (g.pop n).Suitable n r) :
  Selecting g₀ { g.pop n with reg := Function.update g.reg n (some r), stack := stack } stack
  := by
  obtain ⟨fresh, nodup⟩ := List.nodup_cons.1 h.nodup
  have notMem : ∀ n', n' ≠ n → n' ∉ stack → n' ∉ n :: stack := by
    intro n' other out mem
    rcases List.mem_cons.1 mem with same | old
    · exact other same
    · exact out old
  have free := h.free n List.mem_cons_self
  have apart : ∀ n2 ∈ g₀.adjacencyList n, n2 ∉ stack → ∀ r2, g.reg n2 = some r2 →
      g₀.regs.conflicts r r2 = false := by
    intro n2 mem out r2 reg
    rw [← h.regs]
    rw [← h.adjacencyList] at mem
    apply suitable.apart n2 mem _ r2 reg
    by_contra inStack
    exact out ((h.inStack_pop n2).1 (Bool.of_not_eq_false inStack))
  constructor
  · exact h.regs
  · exact h.count
  · exact h.nodeClass
  · exact h.adjacencyList
  · exact h.inStack_pop
  · exact nodup
  · intro n' mem
    exact h.free n' (List.mem_cons_of_mem n mem)
  · intro n' r' forced
    have other : n' ≠ n := by
      rintro rfl
      rw [free] at forced
      cases forced
    change Function.update g.reg n (some r) n' = some r'
    rw [Function.update_of_ne other]
    exact h.forced n' r' forced
  · intro n' lt out
    change ∃ r', Function.update g.reg n (some r) n' = some r' ∧ _
    rcases eq_or_ne n' n with rfl | other
    · refine ⟨r, Function.update_self _ _ _, ?_⟩
      intro _
      rw [← h.regs, ← h.nodeClass]
      exact suitable.belongs
    · rw [Function.update_of_ne other]
      exact h.coloured n' lt (notMem n' other out)
  · intro n1 n2 r1 r2 mem out1 out2 oneFree
    change Function.update g.reg n (some r) n1 = some r1 →
      Function.update g.reg n (some r) n2 = some r2 → _
    rcases eq_or_ne n1 n with rfl | other1
    · have other2 : n2 ≠ n1 := by
        rintro rfl
        exact adjacency.irrefl n2 mem
      rw [Function.update_self, Function.update_of_ne other2]
      intro reg1 reg2
      obtain rfl := Option.some.inj reg1
      exact apart n2 mem out2 r2 reg2
    · rw [Function.update_of_ne other1]
      rcases eq_or_ne n2 n with rfl | other2
      · rw [Function.update_self]
        intro reg1 reg2
        obtain rfl := Option.some.inj reg2
        have apart := apart n1 (adjacency.symm _ _ mem) out1 r1 reg1
        by_contra conflict
        rw [conflicts.symm _ _ (Bool.of_not_eq_false conflict)] at apart
        cases apart
      · rw [Function.update_of_ne other2]
        exact h.apart n1 n2 r1 r2 mem (notMem n1 other1 out1) (notMem n2 other2 out2) oneFree

theorem Selecting.selectLoop {g₀ g : Graph} {stack : List ℕ} (h : Selecting g₀ g stack)
    {ops : List GraphOp} (adjacency : g₀.Adjacency ops) (conflicts : g₀.regs.Conflicts)
    {callback : Option SelectReg} (picks : ∀ select ∈ callback, Picks select) (start : ℕ)
    (success : (selectLoop callback stack start g).1 = true) :
  Selecting g₀ (selectLoop callback stack start g).2 []
  := by
  induction stack generalizing g start with
  | nil => exact h
  | cons n stack ih =>
    unfold Graph.selectLoop at success ⊢
    dsimp only at success ⊢
    split
    · rename_i failed
      rw [failed] at success
      cases success
    · rename_i r choose
      rw [choose] at success
      have popped : (g.pop n).regs.Conflicts := by
        change g.regs.Conflicts
        rw [h.regs]
        exact conflicts
      exact ih (h.assign adjacency conflicts (suitable_of_chooseReg popped picks choose)) _ success

theorem asserts_selectLoop (callback : Option SelectReg) (stack : List ℕ) (start : ℕ) (g : Graph) :
  (selectLoop callback stack start g).2.asserts = g.asserts
  := by
  induction stack generalizing g start with
  | nil => rfl
  | cons n stack ih =>
    unfold Graph.selectLoop
    dsimp only
    split
    · rfl
    · exact ih _ _

/-! ### Trivial stacks -/

/-- The q values bound the number of registers that a register blocks. -/
def Bounded (g : Graph) : Prop :=
  ∀ n1 n2 r, g.regs.regBelongsToClass r (g.nodeClass n2) = true →
    (g.regs.regsOf (g.nodeClass n1) ∩ g.regs.blockedBy r).card ≤ g.q n1 n2

/-- A node of a trivial stack finds a register. -/
theorem Selecting.exists_suitable {g₀ g : Graph} {n : ℕ} {stack : List ℕ} {ops : List GraphOp}
    (h : Selecting g₀ g (n :: stack)) (adjacency : g₀.Adjacency ops) (free : ∀ n, g₀.reg n = none)
    (bounded : g₀.Bounded)
    (size : (g₀.regs.classes (g₀.nodeClass n)).p = (g₀.regs.regsOf (g₀.nodeClass n)).card)
    (trivial : g₀.qOutside stack n < (g₀.regs.classes (g₀.nodeClass n)).p) :
  ∃ r < g₀.regs.count, (g.pop n).Suitable n r
  := by
  -- a neighbour blocks registers if it has one
  have blocks : ∀ n2, ∃ blocked : Finset ℕ,
      (n2 ∈ g₀.adjacencyList n → (g₀.regs.regsOf (g₀.nodeClass n) ∩ blocked).card
        ≤ if n2 ∈ stack then 0 else g₀.q n n2) ∧
      (n2 ∈ g₀.adjacencyList n → n2 ∉ stack → ∀ r2, g.reg n2 = some r2 →
        blocked = g₀.regs.blockedBy r2) := by
    intro n2
    by_cases inStack : n2 ∈ stack
    · refine ⟨∅, ?_, ?_⟩
      · simp
      · intro _ out
        exact absurd inStack out
    by_cases mem : n2 ∈ g₀.adjacencyList n
    · have other : n2 ∉ n :: stack := by
        intro onStack
        rcases List.mem_cons.1 onStack with rfl | old
        · exact adjacency.irrefl n2 mem
        · exact inStack old
      obtain ⟨r2, reg, belongs⟩ := h.coloured n2 (adjacency.lt _ _ (adjacency.symm _ _ mem)) other
      refine ⟨g₀.regs.blockedBy r2, ?_, ?_⟩
      · intro _
        rw [if_neg inStack]
        exact bounded n n2 r2 (belongs (free n2))
      · intro _ _ r2' reg'
        rw [reg] at reg'
        rw [Option.some.inj reg']
    · exact ⟨∅, fun h => absurd h mem, fun h => absurd h mem⟩
  choose blocked few exact using blocks
  have fewer : ((g₀.adjacencyList n).map fun n2 =>
      (g₀.regs.regsOf (g₀.nodeClass n) ∩ blocked n2).card).sum
        < (g₀.regs.regsOf (g₀.nodeClass n)).card := by
    rw [← size]
    apply Nat.lt_of_le_of_lt _ trivial
    apply List.sum_le_sum
    exact few
  obtain ⟨r, mem, notBlocked⟩ := Colouring.exists_free fewer
  obtain ⟨lt, belongs⟩ := Finset.mem_filter.1 mem
  have lt := Finset.mem_range.1 lt
  refine ⟨r, lt, ?_, ?_⟩
  · change g.regs.regBelongsToClass r (g.nodeClass n) = true
    rw [h.regs, h.nodeClass]
    exact belongs
  · intro n2 neighbour outside r2 reg
    change n2 ∈ g.adjacencyList n at neighbour
    change g.regs.conflicts r r2 = false
    rw [h.adjacencyList] at neighbour
    rw [h.regs]
    have out : n2 ∉ stack := by
      intro mem
      rw [(h.inStack_pop n2).2 mem] at outside
      cases outside
    have notBlocked := notBlocked n2 neighbour
    rw [exact n2 neighbour out r2 reg] at notBlocked
    by_contra conflict
    apply notBlocked
    exact Finset.mem_filter.2 ⟨Finset.mem_range.2 lt, Bool.of_not_eq_false conflict⟩

theorem Selecting.success {g₀ g : Graph} {stack : List ℕ} (h : Selecting g₀ g stack)
    {ops : List GraphOp} (adjacency : g₀.Adjacency ops) (conflicts : g₀.regs.Conflicts)
    (free : ∀ n, g₀.reg n = none) (bounded : g₀.Bounded)
    (size : ∀ c, (g₀.regs.classes c).p = (g₀.regs.regsOf c).card)
    {callback : Option SelectReg} (picks : ∀ select ∈ callback, Picks select) (start : ℕ)
    (trivial : g₀.Trivial stack) :
  (Graph.selectLoop callback stack start g).1 = true
  := by
  induction stack generalizing g start with
  | nil => rfl
  | cons n stack ih =>
    obtain ⟨first, rest⟩ := trivial
    have popped : (g.pop n).regs.Conflicts := by
      change g.regs.Conflicts
      rw [h.regs]
      exact conflicts
    obtain ⟨r, lt, suitable⟩ := h.exists_suitable adjacency free bounded (size _) first
    rw [← h.regs] at lt
    have chosen := chooseReg_ne_none popped callback start lt suitable
    obtain ⟨r', choose⟩ := Option.ne_none_iff_exists'.1 chosen
    have suitable' := suitable_of_chooseReg popped picks choose
    unfold Graph.selectLoop
    unfold Graph.pop at choose
    dsimp only at choose ⊢
    rw [choose]
    exact ih (h.assign adjacency conflicts suitable') _ rest

end Graph

/-! ### Allocation -/

/-- The register of a node is forced by one of the calls. -/
def Forced (ops : List GraphOp) (n : ℕ) : Prop := ∃ r, .setNodeReg n r ∈ ops

theorem Graph.Built.free {regs : Regs} {ops : List GraphOp} {g : Graph}
    (built : Graph.Built regs ops g) {n : ℕ} (notForced : ¬Forced ops n) :
  g.reg n = none
  := by
  apply built.reg_eq_none
  intro r mem
  exact notForced ⟨r, mem⟩

/-- After simplification the nodes without registers are on the stack. -/
theorem Graph.Built.selecting {regs : Regs} {ops : List GraphOp} {g : Graph}
    (built : Graph.Built regs ops g) :
  g.Selecting g.simplify g.simplify.stack
  := by
  obtain ⟨steps, done⟩ := Graph.simplify_spec built.simplified
  have h := built.simplified.steps steps
  have outside : ∀ n < g.count, n ∉ g.simplify.stack → ∃ r, g.reg n = some r := by
    intro n lt out
    apply Option.ne_none_iff_exists'.1
    intro free
    apply done n
    refine ⟨?_, ?_, ?_⟩
    · rw [h.count]
      exact lt
    · by_contra inStack
      exact out ((h.inStack n).1 (Bool.of_not_eq_false inStack))
    · rw [h.reg]
      exact free
  refine ⟨h.regs, h.count, h.nodeClass, h.adjacencyList, h.inStack, h.nodup, h.free, ?_, ?_, ?_⟩
  · intro n r forced
    rw [h.reg]
    exact forced
  · intro n lt out
    obtain ⟨r, reg⟩ := outside n lt out
    rw [h.reg]
    refine ⟨r, reg, ?_⟩
    intro free
    rw [free] at reg
    cases reg
  · intro n1 n2 r1 r2 mem out1 out2 oneFree
    have adjacency := built.adjacency
    obtain ⟨r1, reg1⟩ := outside n1 (adjacency.lt _ _ mem) out1
    obtain ⟨r2, reg2⟩ := outside n2 (adjacency.lt _ _ (adjacency.symm _ _ mem)) out2
    rw [reg1, reg2] at oneFree
    rcases oneFree with free | free
    · cases free
    · cases free

theorem Regs.Built.conflicts_setFinalize {ops : List RegOp} {regs : Regs}
    (built : Regs.Built ops regs) (qValues : Option (ℕ → ℕ → ℕ)) :
  (regs.setFinalize qValues).Conflicts
  := by
  have h := built.conflicts
  exact ⟨h.symm, h.refl, h.lt, h.nodup, h.mem⟩

/-- What `ra_allocate` promises for a graph over a register set. -/
structure Allocated (regs : Regs) (graphOps : List GraphOp) (g g' : Graph) : Prop where
  /-- forced nodes keep their registers -/
  forced : ∀ n r, g.reg n = some r → g'.reg n = some r
  /-- the other nodes have registers of their classes -/
  belongs : ∀ n < g.count, ¬Forced graphOps n →
    ∃ r, g'.reg n = some r ∧ regs.regBelongsToClass r (g.nodeClass n) = true
  /-- interfering nodes, unless both are forced, have registers that do not conflict -/
  apart : ∀ n1 n2, .addNodeInterference n1 n2 ∈ graphOps → n1 ≠ n2 →
    ¬(Forced graphOps n1 ∧ Forced graphOps n2) →
    ∃ r1 r2, g'.reg n1 = some r1 ∧ g'.reg n2 = some r2 ∧ regs.conflicts r1 r2 = false

theorem Graph.Selecting.allocated {regs : Regs} {qValues : Option (ℕ → ℕ → ℕ)}
    {graphOps : List GraphOp} {g g' : Graph}
    (built : Graph.Built (regs.setFinalize qValues) graphOps g) (h : g.Selecting g' []) :
  Allocated regs graphOps g g'
  := by
  have hregs := built.idle.1
  have adjacency := built.adjacency
  constructor
  · exact h.forced
  · intro n lt notForced
    obtain ⟨r, reg, belongs⟩ := h.coloured n lt List.not_mem_nil
    rw [hregs] at belongs
    exact ⟨r, reg, belongs (built.free notForced)⟩
  · intro n1 n2 op different notBoth
    have mem := adjacency.mem n1 n2 op different
    obtain ⟨r1, reg1, -⟩ := h.coloured n1 (adjacency.lt _ _ mem) List.not_mem_nil
    obtain ⟨r2, reg2, -⟩ := h.coloured n2 (adjacency.lt _ _ (adjacency.symm _ _ mem))
      List.not_mem_nil
    have oneFree : g.reg n1 = none ∨ g.reg n2 = none := by
      by_cases forced : Forced graphOps n1
      · exact .inr (built.free fun forced' => notBoth ⟨forced, forced'⟩)
      · exact .inl (built.free forced)
    have apart := h.apart n1 n2 r1 r2 mem List.not_mem_nil List.not_mem_nil oneFree reg1 reg2
    rw [hregs] at apart
    exact ⟨r1, r2, reg1, reg2, apart⟩

/-- The calls that make one class of two registers; the last one comes first. -/
def twoRegs : List RegOp := [.classAddReg 0 1, .classAddReg 0 0, .allocRegClass]

/-- The calls that make two nodes of the class interfere. -/
def twoNodes : List GraphOp := [.addNodeInterference 0 1, .setNodeClass 1 0, .setNodeClass 0 0]

/-- The calls that make one class of a register that is added twice. -/
def doubleReg : List RegOp := [.classAddReg 0 0, .classAddReg 0 0, .allocRegClass]

/-- The calls that make a class of two registers, and one of a register that conflicts with both. -/
def wideReg : List RegOp :=
  [.addRegConflict 2 1, .addRegConflict 2 0, .classAddReg 1 2, .allocRegClass,
    .classAddReg 0 1, .classAddReg 0 0, .allocRegClass]

end RegisterAllocate

end Util
