import Mathlib.Data.Nat.Log
import Mathlib.Tactic.Ring

/-!
# Rebalancing of binary trees

A binary tree is taken apart into a vine, in which no left subtree has a node, and the vine is then
folded up: a round of compression puts every other node of an initial part of the right spine under
its successor.  After the rounds the tree is as low as it can be, and every one of its subtrees is
the tree that the same rounds would make of it.
-/

namespace Data.Rebalancing

/-- A binary tree with labels at its nodes and at its leaves. -/
inductive BinTree (ν α : Type) where
  | leaf (x : α)
  | node (a : ν) (s t : BinTree ν α)

namespace BinTree

variable {ν α : Type}

/-- The labels from left to right. -/
def inorder : BinTree ν α → List (ν ⊕ α)
  | leaf x => [.inr x]
  | node a s t => s.inorder ++ .inl a :: t.inorder

/-- The leaves from left to right. -/
def leaves : BinTree ν α → List α
  | leaf x => [x]
  | node _ s t => s.leaves ++ t.leaves

/-- The labels of the nodes from left to right. -/
def nodes : BinTree ν α → List ν
  | leaf _ => []
  | node a s t => s.nodes ++ a :: t.nodes

def height : BinTree ν α → ℕ
  | leaf _ => 0
  | node _ s t => max s.height t.height + 1

/-- The value of a tree under an operation. -/
def fold {β : Type} (op : β → β → β) (f : α → β) : BinTree ν α → β
  | leaf x => f x
  | node _ s t => op (s.fold op f) (t.fold op f)

/-- The pairs of leaves under one node. -/
def leafPairs : BinTree ν α → List (α × α)
  | leaf _ => []
  | node _ (leaf x) (leaf y) => [(x, y)]
  | node _ s t => s.leafPairs ++ t.leafPairs

theorem leaves_ne_nil (t : BinTree ν α) :
  t.leaves ≠ []
  := by
  cases t with
  | leaf x => apply List.cons_ne_nil
  | node a s t =>
      rw [leaves]
      intro h
      exact s.leaves_ne_nil (List.append_eq_nil_iff.mp h).1

theorem leaves_length_pos (t : BinTree ν α) :
  0 < t.leaves.length
  := List.length_pos_iff.mpr t.leaves_ne_nil

/-- The leaves are those of the labels that are not at nodes. -/
theorem leaves_eq (t : BinTree ν α) :
  t.leaves = t.inorder.filterMap Sum.getRight?
  := by
  induction t with
  | leaf x => rfl
  | node a s t hs ht =>
      rw [leaves, inorder, hs, ht, List.filterMap_append, List.filterMap_cons]
      rfl

theorem nodes_eq (t : BinTree ν α) :
  t.nodes = t.inorder.filterMap Sum.getLeft?
  := by
  induction t with
  | leaf x => rfl
  | node a s t hs ht =>
      rw [nodes, inorder, hs, ht, List.filterMap_append, List.filterMap_cons]
      rfl

/-- Between any two leaves there is a node. -/
theorem inorder_length (t : BinTree ν α) :
  t.inorder.length + 1 = 2 * t.leaves.length
  := by
  induction t with
  | leaf x => rfl
  | node a s t hs ht =>
      rw [inorder, leaves, List.length_append, List.length_cons, List.length_append]
      omega

theorem nodes_length (t : BinTree ν α) :
  t.nodes.length + 1 = t.leaves.length
  := by
  induction t with
  | leaf x => rfl
  | node a s t hs ht =>
      rw [nodes, leaves, List.length_append, List.length_cons, List.length_append]
      omega

/-! ### Values -/

/-- The value of a sequence of labels. -/
def foldInorder {β : Type} (op : β → β → β) (f : α → β) : List (ν ⊕ α) → Option β
  | [] => none
  | .inl _ :: l => foldInorder op f l
  | .inr x :: l =>
      match foldInorder op f l with
      | none => some (f x)
      | some y => some (op (f x) y)

/-- Under an associative operation the value depends on the labels only. -/
theorem foldInorder_inorder_append {β : Type} {op : β → β → β}
    (hop : ∀ x y z, op (op x y) z = op x (op y z)) (f : α → β) (t : BinTree ν α) (l : List (ν ⊕ α)) :
  foldInorder op f (t.inorder ++ l) =
    match foldInorder op f l with
    | none => some (t.fold op f)
    | some y => some (op (t.fold op f) y)
  := by
  induction t generalizing l with
  | leaf x => rfl
  | node a s t hs ht =>
      rw [inorder, List.append_assoc, hs, List.cons_append, foldInorder, ht, fold]
      cases foldInorder op f l with
      | none => rfl
      | some y => simp only [hop]

theorem fold_eq_of_inorder_eq {β : Type} {op : β → β → β}
    (hop : ∀ x y z, op (op x y) z = op x (op y z)) (f : α → β) {s t : BinTree ν α}
    (h : s.inorder = t.inorder) :
  s.fold op f = t.fold op f
  := by
  have hs := foldInorder_inorder_append hop f s []
  have ht := foldInorder_inorder_append hop f t []
  rw [h, ht] at hs
  exact (Option.some.inj hs).symm

/-! ### Spines -/

/-- The tree with the given nodes and left subtrees on its right spine, and a tree at its end. -/
def ofSpine (l : List (ν × BinTree ν α)) (e : BinTree ν α) : BinTree ν α :=
  l.foldr (fun p t => node p.1 p.2 t) e

@[simp]
theorem ofSpine_nil (e : BinTree ν α) :
  ofSpine [] e = e
  := rfl

@[simp]
theorem ofSpine_cons (p : ν × BinTree ν α) (l : List (ν × BinTree ν α)) (e : BinTree ν α) :
  ofSpine (p :: l) e = node p.1 p.2 (ofSpine l e)
  := rfl

theorem ofSpine_append (l m : List (ν × BinTree ν α)) (e : BinTree ν α) :
  ofSpine (l ++ m) e = ofSpine l (ofSpine m e)
  := by
  apply List.foldr_append

/-- The last leaf. -/
def last : BinTree ν α → α
  | leaf x => x
  | node _ _ t => t.last

/-- The right spine of the vine of a tree. -/
def vine : BinTree ν α → List (ν × BinTree ν α)
  | leaf _ => []
  | node a s t => s.vine ++ (a, leaf s.last) :: t.vine

/-- A tree before the end of a vine is put in front of it. -/
theorem inorder_ofSpine_vine (s : BinTree ν α) (a : ν) (t : BinTree ν α) :
  (ofSpine s.vine (node a (leaf s.last) t)).inorder = s.inorder ++ .inl a :: t.inorder
  := by
  induction s generalizing a t with
  | leaf x => rfl
  | node b u v hu hv =>
      rw [vine, ofSpine_append, ofSpine_cons, hu, last, hv, inorder, List.append_assoc,
        List.cons_append]

theorem inorder_vine (t : BinTree ν α) :
  (ofSpine t.vine (leaf t.last)).inorder = t.inorder
  := by
  induction t with
  | leaf x => rfl
  | node a s t hs ht =>
      rw [vine, ofSpine_append, ofSpine_cons, inorder_ofSpine_vine, last, ht, inorder]

theorem vine_length (t : BinTree ν α) :
  t.vine.length + 1 = t.leaves.length
  := by
  induction t with
  | leaf x => rfl
  | node a s t hs ht =>
      rw [vine, leaves, List.length_append, List.length_cons, List.length_append]
      omega

/-- The left subtrees on the spine of a vine are leaves. -/
theorem exists_leaf_of_mem_vine {t : BinTree ν α} {p : ν × BinTree ν α} (h : p ∈ t.vine) :
  ∃ x, p.2 = leaf x
  := by
  induction t with
  | leaf x => exact absurd h List.not_mem_nil
  | node a s t hs ht =>
      rcases List.mem_append.mp h with h | h
      · exact hs h
      · rcases List.mem_cons.mp h with rfl | h
        · use s.last
        · exact ht h

/-! ### Rounds -/

/-- Each of the first `m` nodes of a spine that stands at an odd place goes under the next one. -/
def compress : ℕ → List (ν × BinTree ν α) → List (ν × BinTree ν α)
  | m + 1, p :: q :: l => (q.1, node p.1 p.2 q.2) :: compress m l
  | _, l => l

@[simp]
theorem compress_zero (l : List (ν × BinTree ν α)) :
  compress 0 l = l
  := rfl

/-- All rounds, where at most `n` nodes of the spine are taken in the first one. -/
def rounds (n : ℕ) (l : List (ν × BinTree ν α)) : List (ν × BinTree ν α) :=
  if n / 2 = 0 then l else rounds (n - (n / 2 + 1)) (compress (n / 2) l)
termination_by n
decreasing_by omega

/-- Induction along the rounds. -/
theorem rounds_induction {P : ℕ → List (ν × BinTree ν α) → Prop}
    (stop : ∀ n l, n / 2 = 0 → P n l)
    (round : ∀ n l, ¬n / 2 = 0 → P (n - (n / 2 + 1)) (compress (n / 2) l) → P n l)
    (n : ℕ) (l : List (ν × BinTree ν α)) :
  P n l
  := by
  induction n, l using rounds.induct with
  | case1 n l h => exact stop n l h
  | case2 n l h ih => exact round n l h ih

theorem inorder_compress (m : ℕ) (l : List (ν × BinTree ν α)) (e : BinTree ν α) :
  (ofSpine (compress m l) e).inorder = (ofSpine l e).inorder
  := by
  induction m, l using compress.induct with
  | case1 m p q l ih =>
      rw [compress, ofSpine_cons, inorder, inorder, ih, List.append_assoc, List.cons_append]
      rfl
  | case2 m l h =>
      rw [compress]
      exact h

theorem inorder_rounds (n : ℕ) (l : List (ν × BinTree ν α)) (e : BinTree ν α) :
  (ofSpine (rounds n l) e).inorder = (ofSpine l e).inorder
  := by
  induction n, l using rounds_induction with
  | stop n l h => rw [rounds, if_pos h]
  | round n l h ih => rw [rounds, if_neg h, ih, inorder_compress]

theorem compress_append {m : ℕ} {l : List (ν × BinTree ν α)} (h : l.length = 2 * m)
    (l' : List (ν × BinTree ν α)) :
  compress m (l ++ l') = compress m l ++ l'
  := by
  induction m generalizing l with
  | zero =>
      rw [List.eq_nil_of_length_eq_zero h]
      rfl
  | succ m ih =>
      match l, h with
      | p :: q :: l, h =>
          rw [List.cons_append, List.cons_append, compress, compress, List.cons_append,
            ih (by simp only [List.length_cons] at h; omega)]

theorem compress_length {m : ℕ} {l : List (ν × BinTree ν α)} (h : 2 * m ≤ l.length) :
  (compress m l).length + m = l.length
  := by
  induction m generalizing l with
  | zero => rfl
  | succ m ih =>
      match l, h with
      | p :: q :: l, h =>
          simp only [List.length_cons] at h
          have hl := ih (l := l) (by omega)
          simp only [compress, List.length_cons]
          omega

/-! ### Balanced trees -/

/-- All leaves are at the same depth. -/
inductive Perfect : ℕ → BinTree ν α → Prop
  | leaf (x : α) : Perfect 0 (leaf x)
  | node {i : ℕ} {s t : BinTree ν α} (a : ν) :
      Perfect i s → Perfect i t → Perfect (i + 1) (node a s t)

/-- What the rounds make: the left subtree is perfect, and the right one is as high or higher by
one. -/
inductive Balanced : BinTree ν α → Prop
  | leaf (x : α) : Balanced (leaf x)
  | node {i : ℕ} {s t : BinTree ν α} (a : ν) :
      Perfect i s → Balanced t → 2 ^ i ≤ 2 * t.leaves.length → t.leaves.length < 2 ^ (i + 1) →
        Balanced (node a s t)

theorem Perfect.leaves_length {i : ℕ} {t : BinTree ν α} (h : Perfect i t) :
  t.leaves.length = 2 ^ i
  := by
  induction h with
  | leaf x => rfl
  | node a _ _ hs ht => rw [leaves, List.length_append, hs, ht, Nat.pow_succ, Nat.mul_two]

theorem Perfect.height_eq {i : ℕ} {t : BinTree ν α} (h : Perfect i t) :
  t.height = i
  := by
  induction h with
  | leaf x => rfl
  | node a _ _ hs ht => rw [height, hs, ht, Nat.max_self]

theorem Perfect.balanced {i : ℕ} {t : BinTree ν α} (h : Perfect i t) :
  Balanced t
  := by
  induction h with
  | leaf x => apply Balanced.leaf
  | node a hs ht _ ih =>
      have hlen := ht.leaves_length
      apply Balanced.node a hs ih
      · omega
      · rw [hlen]
        exact Nat.pow_lt_pow_right Nat.one_lt_two (Nat.lt_succ_self _)

theorem clog_eq_succ {k n : ℕ} (hlt : 2 ^ k < n) (hle : n ≤ 2 ^ (k + 1)) :
  Nat.clog 2 n = k + 1
  := by
  apply Nat.le_antisymm
  · exact Nat.clog_le_of_le_pow hle
  · exact (Nat.lt_clog_iff_pow_lt Nat.one_lt_two).mpr hlt

/-- A balanced tree is as low as a tree with its leaves can be. -/
theorem Balanced.height_eq {t : BinTree ν α} (h : Balanced t) :
  t.height = Nat.clog 2 t.leaves.length
  := by
  induction h with
  | leaf x => rfl
  | @node i s t a hs ht hle hlt ih =>
      have hpos := t.leaves_length_pos
      have hsucc := Nat.pow_succ 2 i
      have hsucc' := Nat.pow_succ 2 (i + 1)
      rw [height, hs.height_eq, ih, leaves, List.length_append, hs.leaves_length]
      by_cases hfit : t.leaves.length ≤ 2 ^ i
      · rw [Nat.max_eq_left (Nat.clog_le_of_le_pow hfit), clog_eq_succ (k := i) (by omega) (by omega)]
      · rw [clog_eq_succ (Nat.lt_of_not_le hfit) hlt.le, Nat.max_eq_right (Nat.le_succ i),
          clog_eq_succ (k := i + 1) (by omega) (by omega)]

/-- The subtrees of a balanced tree are balanced. -/
theorem Balanced.left {a : ν} {s t : BinTree ν α} (h : Balanced (.node a s t)) :
  Balanced s
  := by
  cases h with
  | node _ hs _ _ _ => exact hs.balanced

theorem Balanced.right {a : ν} {s t : BinTree ν α} (h : Balanced (.node a s t)) :
  Balanced t
  := by
  cases h with
  | node _ _ ht _ _ => exact ht

/-- The number of leaves tells how many of them are on the left. -/
theorem exponent_unique {i j m n : ℕ} (hsum : 2 ^ i + m = 2 ^ j + n) (hm : 2 ^ i ≤ 2 * m)
    (hm' : m < 2 ^ (i + 1)) (hn : 2 ^ j ≤ 2 * n) (hn' : n < 2 ^ (j + 1)) :
  i = j
  := by
  -- an exponent that is less leaves too little on the right
  have hnot : ∀ {i j m n : ℕ}, 2 ^ i + m = 2 ^ j + n → m < 2 ^ (i + 1) → 2 ^ j ≤ 2 * n → ¬i < j := by
    intro i j m n hsum hm hn hlt
    have hpow := Nat.pow_le_pow_right Nat.two_pos hlt
    rw [Nat.pow_succ] at hm hpow
    omega
  rcases Nat.lt_trichotomy i j with h | h | h
  · exact (hnot hsum hm' hn h).elim
  · exact h
  · exact (hnot hsum.symm hn' hm h).elim

theorem inorder_length_eq {s t : BinTree ν α} (h : s.leaves.length = t.leaves.length) :
  s.inorder.length = t.inorder.length
  := by
  have hs := s.inorder_length
  have ht := t.inorder_length
  omega

/-- The sizes of the subtrees of a balanced tree. -/
theorem Balanced.sizes {a : ν} {s t : BinTree ν α} (h : Balanced (.node a s t)) :
  ∃ i, s.leaves.length = 2 ^ i ∧ 2 ^ i ≤ 2 * t.leaves.length ∧ t.leaves.length < 2 ^ (i + 1)
  := by
  cases h with
  | @node i _ _ _ hs _ hle hlt => use i, hs.leaves_length, hle, hlt

theorem leaves_length_eq_of_inorder_eq {s t : BinTree ν α} (h : s.inorder = t.inorder) :
  s.leaves.length = t.leaves.length
  := by
  rw [leaves_eq, leaves_eq, h]

/-- There is at most one balanced tree with the given labels. -/
theorem Balanced.eq_of_inorder_eq {s t : BinTree ν α} (hs : Balanced s) (ht : Balanced t)
    (h : s.inorder = t.inorder) :
  s = t
  := by
  have hlen := leaves_length_eq_of_inorder_eq h
  induction s generalizing t with
  | leaf x =>
      cases t with
      | leaf y =>
          simp only [inorder, List.cons.injEq, Sum.inr.injEq, and_true] at h
          rw [h]
      | node b u v =>
          have hu := u.leaves_length_pos
          have hv := v.leaves_length_pos
          simp only [leaves, List.length_append, List.length_cons, List.length_nil] at hlen
          omega
  | node a u v ihu ihv =>
      cases t with
      | leaf y =>
          have hu := u.leaves_length_pos
          have hv := v.leaves_length_pos
          simp only [leaves, List.length_append, List.length_cons, List.length_nil] at hlen
          omega
      | node b u' v' =>
          obtain ⟨i, hu, hle, hlt⟩ := hs.sizes
          obtain ⟨j, hu', hle', hlt'⟩ := ht.sizes
          rw [leaves, leaves, List.length_append, List.length_append, hu, hu'] at hlen
          obtain rfl := exponent_unique hlen hle hlt hle' hlt'
          have hlenu : u.leaves.length = u'.leaves.length := hu.trans hu'.symm
          obtain ⟨hinu, hinv⟩ := List.append_inj h (inorder_length_eq hlenu)
          obtain ⟨hab, htail⟩ := List.cons_eq_cons.mp hinv
          obtain rfl := Sum.inl.inj hab
          rw [ihu hs.left ht.left hinu hlenu,
            ihv hs.right ht.right htail (leaves_length_eq_of_inorder_eq htail)]

/-! ### The rounds balance -/

/-- What holds of a spine before a round at most `n` nodes of which are taken: a number of perfect
trees of one height, and then a balanced tree that is about as high. -/
def Ready (i n : ℕ) (l : List (ν × BinTree ν α)) (e : BinTree ν α) : Prop :=
  ∃ ps qs, l = ps ++ qs ∧ (∀ p ∈ ps, Perfect i p.2) ∧ Balanced (ofSpine qs e) ∧
    2 ^ i ≤ 2 * (ofSpine qs e).leaves.length ∧ 2 * (ofSpine qs e).leaves.length < 3 * 2 ^ i ∧
    (2 ^ i ≤ (ofSpine qs e).leaves.length ∧ n = ps.length ∨
      (ofSpine qs e).leaves.length < 2 ^ i ∧ n + 1 = ps.length)

/-- A perfect tree in front of a balanced one. -/
theorem Balanced.cons {i : ℕ} {p : ν × BinTree ν α} {qs : List (ν × BinTree ν α)} {e : BinTree ν α}
    (hp : Perfect i p.2) (he : Balanced (ofSpine qs e))
    (hle : 2 ^ i ≤ 2 * (ofSpine qs e).leaves.length)
    (hlt : (ofSpine qs e).leaves.length < 2 ^ (i + 1)) :
  Balanced (ofSpine (p :: qs) e) ∧
    (ofSpine (p :: qs) e).leaves.length = 2 ^ i + (ofSpine qs e).leaves.length
  := by
  constructor
  · apply Balanced.node p.1 hp he hle hlt
  · rw [ofSpine_cons, leaves, List.length_append, hp.leaves_length]

/-- The pairs that a round makes of perfect trees are perfect. -/
theorem perfect_of_mem_compress {i m : ℕ} {l : List (ν × BinTree ν α)} (hlen : l.length = 2 * m)
    (hl : ∀ p ∈ l, Perfect i p.2) :
  ∀ p ∈ compress m l, Perfect (i + 1) p.2
  := by
  induction m generalizing l with
  | zero =>
      obtain rfl := List.eq_nil_of_length_eq_zero hlen
      intro p hp
      exact absurd hp List.not_mem_nil
  | succ m ih =>
      match l, hlen, hl with
      | p :: q :: l, hlen, hl =>
          intro r hr
          rcases List.mem_cons.mp hr with rfl | hr
          · apply Perfect.node
            · exact hl p List.mem_cons_self
            · exact hl q (List.mem_cons_of_mem _ List.mem_cons_self)
          · apply ih (l := l) _ _ r hr
            · simp only [List.length_cons] at hlen
              omega
            · intro p hp
              exact hl p (List.mem_cons_of_mem _ (List.mem_cons_of_mem _ hp))

/-- A round makes a spine ready for the next one. -/
theorem Ready.compress {i n : ℕ} {l : List (ν × BinTree ν α)} {e : BinTree ν α} (h : Ready i n l e)
    (hn : n / 2 ≠ 0) :
  Ready (i + 1) (n - (n / 2 + 1)) (BinTree.compress (n / 2) l) e
  := by
  obtain ⟨ps, qs, rfl, hps, hqs, hle, hlt, hcount⟩ := h
  have hsucc := Nat.pow_succ 2 i
  have hfit : 2 * (n / 2) ≤ ps.length := by
    omega
  -- the trees that are left over go to the balanced tree at the end
  have hsplit : ps = ps.take (2 * (n / 2)) ++ ps.drop (2 * (n / 2)) :=
    (List.take_append_drop _ _).symm
  have htake : (ps.take (2 * (n / 2))).length = 2 * (n / 2) := List.length_take_of_le hfit
  have hdrop : (ps.drop (2 * (n / 2))).length = ps.length - 2 * (n / 2) := List.length_drop
  have hpairs : (BinTree.compress (n / 2) (ps.take (2 * (n / 2)))).length = n / 2 := by
    have := compress_length htake.ge
    omega
  have hrest : ∀ p ∈ ps.drop (2 * (n / 2)), Perfect i p.2 := fun p hp =>
    hps p (List.mem_of_mem_drop hp)
  refine ⟨BinTree.compress (n / 2) (ps.take (2 * (n / 2))), ps.drop (2 * (n / 2)) ++ qs, ?_, ?_, ?_⟩
  · nth_rewrite 1 [hsplit]
    rw [List.append_assoc, compress_append htake]
  · apply perfect_of_mem_compress htake
    intro p hp
    exact hps p (List.mem_of_mem_take hp)
  · rw [hpairs]
    match hd : ps.drop (2 * (n / 2)) with
    | [] =>
        rw [hd, List.length_nil] at hdrop
        rw [List.nil_append]
        refine ⟨hqs, ?_, ?_, ?_⟩ <;> omega
    | [p] =>
        rw [hd, List.length_singleton] at hdrop
        rw [List.singleton_append]
        rw [hd] at hrest
        obtain ⟨hbal, hlen⟩ := Balanced.cons (hrest p List.mem_cons_self) hqs hle (by omega)
        rw [hlen]
        refine ⟨hbal, ?_, ?_, ?_⟩ <;> omega
    | [p, q] =>
        rw [hd, List.length_cons, List.length_singleton] at hdrop
        rw [hd] at hrest
        obtain ⟨hbal, hlen⟩ := Balanced.cons (hrest q (by simp)) hqs hle (by omega)
        obtain ⟨hbal', hlen'⟩ := Balanced.cons (hrest p List.mem_cons_self) hbal (by omega) (by omega)
        rw [List.cons_append, List.singleton_append, hlen', hlen]
        refine ⟨hbal', ?_, ?_, ?_⟩ <;> omega
    | p :: q :: r :: ds =>
        rw [hd] at hdrop
        simp only [List.length_cons] at hdrop
        omega

/-- No more rounds: the tree is balanced. -/
theorem Ready.balanced {i n : ℕ} {l : List (ν × BinTree ν α)} {e : BinTree ν α} (h : Ready i n l e)
    (hn : n / 2 = 0) :
  Balanced (ofSpine l e)
  := by
  obtain ⟨ps, qs, rfl, hps, hqs, hle, hlt, hcount⟩ := h
  have hsucc := Nat.pow_succ 2 i
  match ps with
  | [] => exact hqs
  | [p] =>
      exact (Balanced.cons (hps p List.mem_cons_self) hqs hle (by omega)).1
  | [p, q] =>
      simp only [List.length_cons, List.length_nil] at hcount
      obtain ⟨hbal, hlen⟩ := Balanced.cons (hps q (by simp)) hqs hle (by omega)
      exact (Balanced.cons (hps p List.mem_cons_self) hbal (by omega) (by omega)).1
  | p :: q :: r :: ds =>
      simp only [List.length_cons] at hcount
      omega

theorem Ready.rounds {i n : ℕ} {l : List (ν × BinTree ν α)} {e : BinTree ν α} (h : Ready i n l e) :
  Balanced (ofSpine (BinTree.rounds n l) e)
  := by
  induction n, l using rounds_induction generalizing i with
  | stop n l hn =>
      rw [BinTree.rounds, if_pos hn]
      exact h.balanced hn
  | round n l hn ih =>
      rw [BinTree.rounds, if_neg hn]
      exact ih (h.compress hn)

/-- A vine is ready. -/
theorem ready_vine (t : BinTree ν α) :
  Ready 0 t.vine.length t.vine (leaf t.last)
  := by
  refine ⟨t.vine, [], (List.append_nil _).symm, ?_, Balanced.leaf _, ?_⟩
  · intro p hp
    obtain ⟨x, hx⟩ := exists_leaf_of_mem_vine hp
    rw [hx]
    apply Perfect.leaf
  · rw [ofSpine_nil, leaves, List.length_singleton]
    omega

/-- A tree is taken apart into a vine, which is folded up. -/
def rebalance (t : BinTree ν α) : BinTree ν α :=
  ofSpine (BinTree.rounds t.vine.length t.vine) (leaf t.last)

theorem rebalance_balanced (t : BinTree ν α) :
  Balanced t.rebalance
  := t.ready_vine.rounds

theorem rebalance_inorder (t : BinTree ν α) :
  t.rebalance.inorder = t.inorder
  := by
  rw [rebalance, inorder_rounds, inorder_vine]

theorem rebalance_leaves (t : BinTree ν α) :
  t.rebalance.leaves = t.leaves
  := by
  rw [leaves_eq, leaves_eq, rebalance_inorder]

theorem rebalance_nodes (t : BinTree ν α) :
  t.rebalance.nodes = t.nodes
  := by
  rw [nodes_eq, nodes_eq, rebalance_inorder]

/-- A balanced tree is not changed. -/
theorem Balanced.rebalance_eq {t : BinTree ν α} (h : Balanced t) :
  t.rebalance = t
  := t.rebalance_balanced.eq_of_inorder_eq h t.rebalance_inorder

/-- The tree without its labels. -/
def shape : BinTree ν α → BinTree Unit Unit
  | leaf _ => leaf ()
  | node _ s t => node () s.shape t.shape

theorem leaves_length_shape (t : BinTree ν α) :
  t.shape.leaves.length = t.leaves.length
  := by
  induction t with
  | leaf x => rfl
  | node a s t hs ht => rw [shape, leaves, leaves, List.length_append, List.length_append, hs, ht]

theorem perfect_shape_iff {i : ℕ} {t : BinTree ν α} :
  Perfect i t.shape ↔ Perfect i t
  := by
  induction t generalizing i with
  | leaf x =>
      constructor
      · rintro ⟨⟩
        apply Perfect.leaf
      · rintro ⟨⟩
        apply Perfect.leaf
  | node a s t hs ht =>
      constructor
      · rintro (_ | ⟨_, h₀, h₁⟩)
        apply Perfect.node _ (hs.mp h₀) (ht.mp h₁)
      · rintro (_ | ⟨_, h₀, h₁⟩)
        apply Perfect.node _ (hs.mpr h₀) (ht.mpr h₁)

/-- The labels do not matter for being balanced. -/
theorem balanced_shape_iff {t : BinTree ν α} :
  Balanced t.shape ↔ Balanced t
  := by
  induction t with
  | leaf x =>
      constructor
      · intro _
        apply Balanced.leaf
      · intro _
        apply Balanced.leaf
  | node a s t hs ht =>
      constructor
      · rintro (_ | ⟨_, h₀, h₁, hle, hlt⟩)
        rw [leaves_length_shape] at hle hlt
        apply Balanced.node _ (perfect_shape_iff.mp h₀) (ht.mp h₁) hle hlt
      · rintro (_ | ⟨_, h₀, h₁, hle, hlt⟩)
        rw [← leaves_length_shape] at hle hlt
        apply Balanced.node _ (perfect_shape_iff.mpr h₀) (ht.mpr h₁) hle hlt

/-! ### Leaves under one node -/

/-- The elements of a list, two by two. -/
def pairs : List α → List (α × α)
  | x :: y :: l => (x, y) :: pairs l
  | _ => []

theorem pairs_append {l : List α} {m : ℕ} (h : l.length = 2 * m) (l' : List α) :
  pairs (l ++ l') = pairs l ++ pairs l'
  := by
  induction m generalizing l with
  | zero =>
      rw [List.eq_nil_of_length_eq_zero h]
      rfl
  | succ m ih =>
      match l, h with
      | x :: y :: l, h =>
          rw [List.cons_append, List.cons_append, pairs, pairs, List.cons_append,
            ih (by simp only [List.length_cons] at h; omega)]

/-- A tree with one leaf is a leaf. -/
theorem exists_leaf_of_leaves_length {t : BinTree ν α} (h : t.leaves.length = 1) :
  ∃ x, t = leaf x
  := by
  cases t with
  | leaf x => use x
  | node a u v =>
      have hu := u.leaves_length_pos
      have hv := v.leaves_length_pos
      rw [leaves, List.length_append] at h
      omega

theorem leafPairs_node {s t : BinTree ν α} (h : 2 < s.leaves.length + t.leaves.length) (a : ν) :
  (node a s t).leafPairs = s.leafPairs ++ t.leafPairs
  := by
  cases s with
  | leaf x =>
      cases t with
      | leaf y => exact absurd h (Nat.lt_irrefl 2)
      | node b u v => rfl
  | node b u v => rfl

/-- In a balanced tree the leaves under one node are the first and the second one, the third and
the fourth one, and so on. -/
theorem Balanced.leafPairs_eq {t : BinTree ν α} (h : Balanced t) :
  t.leafPairs = pairs t.leaves
  := by
  induction t with
  | leaf x => rfl
  | node a s t ihs iht =>
      obtain ⟨i, hlen, hle, hlt⟩ := h.sizes
      cases i with
      | zero =>
          have hpos := t.leaves_length_pos
          obtain ⟨x, rfl⟩ := exists_leaf_of_leaves_length hlen
          obtain ⟨y, rfl⟩ := exists_leaf_of_leaves_length (t := t) (by omega)
          rfl
      | succ i =>
          have hpow := Nat.pow_succ' (m := 2) (n := i)
          have hpos := Nat.two_pow_pos i
          rw [leafPairs_node (by omega) a, leaves, pairs_append (hlen.trans hpow), ihs h.left, iht h.right]

end BinTree

end Data.Rebalancing
