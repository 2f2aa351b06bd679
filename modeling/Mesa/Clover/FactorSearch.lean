import Mesa.Clover.Factor
import Mesa.Data.Odometer
import Mathlib.Algebra.Order.BigOperators.Ring.Finset
import Mathlib.Data.Nat.Factorization.Basic

/-!
# The search comes to all blocks of the factors that are found

The search counts up the powers of the factors like an odometer.  It gives an admissible block of the
largest product among those whose prime factors are all found, if no product is too large for its
type.
-/

namespace Clover

namespace Factor

open Odometer (Digit Trace next Counts)

variable {n : ℕ}

/-! ### Blocks -/

/-- The block divides the grid, and is within the limits. -/
structure Admissible (productLimit : ℕ) (coordLimit grid v : Fin n → ℕ) : Prop where
  dvd : ∀ i, v i ∣ grid i
  le_coord : ∀ i, v i ≤ coordLimit i
  prod_le : ∏ i, v i ≤ productLimit

instance (productLimit : ℕ) (coordLimit grid : Fin n → ℕ) :
    DecidablePred (Admissible productLimit coordLimit grid) := fun v =>
  decidable_of_iff ((∀ i, v i ∣ grid i) ∧ (∀ i, v i ≤ coordLimit i) ∧ ∏ i, v i ≤ productLimit)
    ⟨fun ⟨h, h', h''⟩ => ⟨h, h', h''⟩, fun ⟨h, h', h''⟩ => ⟨h, h', h''⟩⟩

/-- The power of a factor in one coordinate. -/
def digit (g : Fin n × ℕ) : Digit (Fin n → ℕ) where
  up v := Function.update v g.1 (v g.1 * g.2)
  reset v := Function.update v g.1 ((divideOut g.2 (v g.1 + 1) (v g.1)).getD 0)

theorem digit_up_iterate (d : Fin n) (f k : ℕ) (v : Fin n → ℕ) :
  (digit (d, f)).up^[k] v = Function.update v d (v d * f ^ k)
  := by
  induction k with
  | zero => simp
  | succ k ih =>
    rw [Function.iterate_succ_apply', ih]
    simp only [digit, Function.update_self, Function.update_idem]
    rw [Nat.pow_succ, Nat.mul_assoc]

/-- All prime factors of a block are among some. -/
def Over (P : List (Fin n × ℕ)) (v : Fin n → ℕ) : Prop :=
  ∀ i p, p.Prime → p ∣ v i → (i, p) ∈ P

section

variable {productLimit : ℕ} {coordLimit grid : Fin n → ℕ} (hgrid : ∀ i, 0 < grid i)

include hgrid

theorem Admissible.pos {v : Fin n → ℕ} (h : Admissible productLimit coordLimit grid v)
    (i : Fin n) :
  0 < v i
  := Nat.pos_of_dvd_of_pos (h.dvd i) (hgrid i)

theorem Admissible.prod_pos {v : Fin n → ℕ} (h : Admissible productLimit coordLimit grid v) :
  0 < ∏ i, v i
  := Finset.prod_pos fun i _ => h.pos hgrid i

/-- A block that divides an admissible one is admissible. -/
theorem Admissible.of_dvd {v w : Fin n → ℕ} (h : Admissible productLimit coordLimit grid v)
    (hdvd : ∀ i, w i ∣ v i) :
  Admissible productLimit coordLimit grid w
  := by
  have hle (i : Fin n) : w i ≤ v i := Nat.le_of_dvd (h.pos hgrid i) (hdvd i)
  constructor
  · exact fun i => (hdvd i).trans (h.dvd i)
  · exact fun i => (hle i).trans (h.le_coord i)
  · exact (Finset.prod_le_prod' fun i _ => hle i).trans h.prod_le

/-- A factor that a block does not have is counted up from it. -/
theorem counts_digit {v : Fin n → ℕ} (h : Admissible productLimit coordLimit grid v) {d : Fin n}
    {f : ℕ} (hf : f.Prime) (hv : ¬f ∣ v d) :
  Counts (Admissible productLimit coordLimit grid) (digit (d, f)) v
  := by
  constructor
  · exact h
  · intro k hk
    rw [digit_up_iterate] at hk ⊢
    apply hk.of_dvd hgrid
    intro i
    by_cases hi : i = d
    · subst hi
      rw [Function.update_self, Function.update_self, Nat.pow_succ, ← Nat.mul_assoc]
      exact Nat.dvd_mul_right _ _
    · rw [Function.update_of_ne hi, Function.update_of_ne hi]
  · refine ⟨coordLimit d, fun hk => ?_⟩
    have hle := hk.le_coord d
    rw [digit_up_iterate, Function.update_self] at hle
    have hpow := Nat.lt_pow_self hf.one_lt (n := coordLimit d)
    have hmul := Nat.le_mul_of_pos_left (f ^ coordLimit d) (h.pos hgrid d)
    omega
  · intro k
    rw [digit_up_iterate]
    have hpow := Nat.lt_pow_self hf.one_lt (n := k + 1)
    have hmul := Nat.le_mul_of_pos_right (f ^ (k + 1)) (h.pos hgrid d)
    have hout : divideOut f (v d * f ^ (k + 1) + 1) (v d * f ^ (k + 1)) = some (v d) := by
      rw [Nat.mul_comm (v d)]
      exact divideOut_eq hf.pos hv (by omega)
    simp only [digit, Function.update_self, Function.update_idem]
    rw [hout, Option.getD_some, Function.update_eq_self]

/-- The block comes to all admissible blocks of some prime factors. -/
theorem exists_trace (hlimit : 1 ≤ productLimit) (hcoord : ∀ i, 0 < coordLimit i)
    {P : List (Fin n × ℕ)} (hP : P.Nodup) (hprime : ∀ g ∈ P, g.2.Prime) :
  ∃ l, Trace (next (Admissible productLimit coordLimit grid) (P.map digit)) (fun _ => 1) l ∧
    ∀ v, v ∈ l ↔ Admissible productLimit coordLimit grid v ∧ Over P v
  := by
  induction P with
  | nil =>
    refine ⟨[fun _ => 1], Trace.last rfl, fun v => ?_⟩
    rw [List.mem_singleton]
    constructor
    · rintro rfl
      refine ⟨⟨fun i => Nat.one_dvd (grid i), hcoord, by simpa using hlimit⟩, ?_⟩
      intro i p hp hdvd
      exact absurd (Nat.dvd_one.mp hdvd) hp.one_lt.ne'
    · rintro ⟨h, hover⟩
      funext i
      by_contra hne
      obtain ⟨p, hp, hdvd⟩ := Nat.exists_prime_and_dvd hne
      exact List.not_mem_nil (hover i p hp hdvd)
  | cons g P ih =>
    obtain ⟨d, f⟩ := g
    obtain ⟨hnot, hP⟩ := List.nodup_cons.mp hP
    have hf := hprime (d, f) List.mem_cons_self
    obtain ⟨l, htrace, hmem⟩ := ih hP fun g hg => hprime g (List.mem_cons_of_mem _ hg)
    have hcounts : ∀ v ∈ l, Counts (Admissible productLimit coordLimit grid) (digit (d, f)) v := by
      intro v hv
      obtain ⟨h, hover⟩ := (hmem v).mp hv
      apply counts_digit hgrid h hf
      intro hdvd
      exact hnot (hover d f hf hdvd)
    obtain ⟨l', htrace', hmem'⟩ := Odometer.trace_cons htrace hcounts
    refine ⟨l', htrace', fun v => ?_⟩
    rw [hmem']
    constructor
    · rintro ⟨x, hx, k, rfl, hvalid⟩
      refine ⟨hvalid, ?_⟩
      intro i p hp hdvd
      rw [digit_up_iterate] at hdvd
      have hover := ((hmem x).mp hx).2
      by_cases hi : i = d
      · subst hi
        rw [Function.update_self] at hdvd
        rcases (Nat.Prime.dvd_mul hp).mp hdvd with h | h
        · exact List.mem_cons_of_mem _ (hover i p hp h)
        · rw [(Nat.prime_dvd_prime_iff_eq hp hf).mp (hp.dvd_of_dvd_pow h)]
          exact List.mem_cons_self
      · rw [Function.update_of_ne hi] at hdvd
        exact List.mem_cons_of_mem _ (hover i p hp hdvd)
    · rintro ⟨h, hover⟩
      obtain ⟨k, w, hw, hk⟩ := Nat.exists_eq_pow_mul_and_not_dvd (h.pos hgrid d).ne' f hf.ne_one
      have hdvd (i : Fin n) : Function.update v d w i ∣ v i := by
        by_cases hi : i = d
        · subst hi
          rw [Function.update_self, hk]
          exact Nat.dvd_mul_left w _
        · rw [Function.update_of_ne hi]
      refine ⟨Function.update v d w, (hmem _).mpr ⟨h.of_dvd hgrid hdvd, ?_⟩, k, ?_, h⟩
      · intro i p hp hpw
        rcases List.mem_cons.mp (hover i p hp (hpw.trans (hdvd i))) with heq | htail
        · obtain ⟨rfl, rfl⟩ := Prod.mk.inj heq
          rw [Function.update_self] at hpw
          exact absurd hpw hw
        · exact htail
      · rw [digit_up_iterate, Function.update_self, Function.update_idem, Nat.mul_comm, ← hk,
          Function.update_eq_self]

/-! ### Steps of the search -/

/-- The factors of several dimensions in the order in which they are counted. -/
def positions (dims : List (Fin n × List ℕ)) : List (Fin n × ℕ) :=
  dims.flatMap fun dim => dim.2.map fun f => (dim.1, f)

/-- A block as the search has it. -/
def toBlock (v : Fin n → ℕ) : Block n := ⟨∏ i, v i, v⟩

/-- The next block as the search has it. -/
def nextBlock (v : Option (Fin n → ℕ)) : Block n := (v.map toBlock).getD ⟨0, fun _ => 0⟩

/-- No product is too large for its type when the factors are counted up. -/
def NoOverflowOn (productLimit : ℕ) (coordLimit grid : Fin n → ℕ) : List (Fin n × ℕ) → Prop
  | [] => True
  | (d, f) :: P =>
    (∀ v, Admissible productLimit coordLimit grid v → Over ((d, f) :: P) v →
      (∏ i, v i) * f < 2 ^ 64) ∧
    NoOverflowOn productLimit coordLimit grid P

omit hgrid in
/-- The powers of a factor are divided out of a product and of a coordinate. -/
theorem backOff_eq {f a w : ℕ} (hf : 0 < f) (hw : ¬f ∣ w) {k fuel : ℕ} (hk : k < fuel) :
  backOff f fuel (f ^ k * a) (f ^ k * w) = some (a, w)
  := by
  induction k generalizing fuel with
  | zero =>
    obtain ⟨fuel, rfl⟩ := Nat.exists_eq_succ_of_ne_zero (Nat.ne_of_gt hk)
    rw [backOff, Nat.pow_zero, Nat.one_mul, Nat.one_mul,
      if_neg fun h => hw (Nat.dvd_of_mod_eq_zero h)]
  | succ k ih =>
    obtain ⟨fuel, rfl⟩ := Nat.exists_eq_succ_of_ne_zero (Nat.ne_of_gt (Nat.zero_lt_of_lt hk))
    rw [backOff, Nat.pow_succ', Nat.mul_assoc, Nat.mul_assoc, if_pos (Nat.mul_mod_right _ _),
      Nat.mul_div_cancel_left _ hf, Nat.mul_div_cancel_left _ hf, ih (Nat.lt_of_succ_lt_succ hk)]

omit hgrid in
/-- The product of a block that has one coordinate changed. -/
theorem prod_update_mul (v : Fin n → ℕ) (d : Fin n) (a b : ℕ) :
  (∏ i, Function.update v d (a * b) i) = b * ∏ i, Function.update v d a i
  := by
  rw [Finset.prod_update_of_mem (Finset.mem_univ d), Finset.prod_update_of_mem (Finset.mem_univ d)]
  ring

omit hgrid in
theorem prod_up (v : Fin n → ℕ) (d : Fin n) (f : ℕ) :
  (∏ i, (digit (d, f)).up v i) = (∏ i, v i) * f
  := by
  have hupdate := prod_update_mul v d (v d) f
  rw [Function.update_eq_self, Nat.mul_comm f] at hupdate
  exact hupdate

omit hgrid in
/-- Counting up a factor is checked in its own coordinate. -/
theorem admissible_up_iff {v : Fin n → ℕ} (h : Admissible productLimit coordLimit grid v)
    (d : Fin n) (f : ℕ) :
  Admissible productLimit coordLimit grid ((digit (d, f)).up v) ↔
    (∏ i, v i) * f ≤ productLimit ∧ v d * f ≤ coordLimit d ∧ grid d % (v d * f) = 0
  := by
  have hprod := prod_up v d f
  constructor
  · intro hup
    have hdvd := hup.dvd d
    have hle := hup.le_coord d
    have hle' := hup.prod_le
    rw [hprod] at hle'
    simp only [digit, Function.update_self] at hdvd hle
    exact ⟨hle', hle, Nat.mod_eq_zero_of_dvd hdvd⟩
  · rintro ⟨hle', hle, hdvd⟩
    constructor
    · intro i
      by_cases hi : i = d
      · subst hi
        simp only [digit, Function.update_self]
        exact Nat.dvd_of_mod_eq_zero hdvd
      · simp only [digit, Function.update_of_ne hi]
        exact h.dvd i
    · intro i
      by_cases hi : i = d
      · subst hi
        simp only [digit, Function.update_self]
        exact hle
      · simp only [digit, Function.update_of_ne hi]
        exact h.le_coord i
    · rw [hprod]
      exact hle'

/-- One dimension of the search counts up its factors. -/
theorem nextFactor_eq {d : Fin n} {factors : List ℕ} {P : List (Fin n × ℕ)}
    {nextDimension : Block n → Option (Block n)}
    (hnext : ∀ v, Admissible productLimit coordLimit grid v → Over P v →
      nextDimension (toBlock v) =
        some (nextBlock (next (Admissible productLimit coordLimit grid) (P.map digit) v)))
    (hnodup : (factors.map (fun f => (d, f)) ++ P).Nodup) (hprime : ∀ f ∈ factors, f.Prime)
    (hover : NoOverflowOn productLimit coordLimit grid (factors.map (fun f => (d, f)) ++ P))
    {v : Fin n → ℕ} (h : Admissible productLimit coordLimit grid v)
    (hv : Over (factors.map (fun f => (d, f)) ++ P) v) :
  nextFactor ⟨productLimit, coordLimit⟩ grid d factors (toBlock v) nextDimension =
    some (nextBlock (next (Admissible productLimit coordLimit grid)
      ((factors.map (fun f => (d, f)) ++ P).map digit) v))
  := by
  induction factors generalizing v with
  | nil => exact hnext v h hv
  | cons f factors ih =>
    obtain ⟨hnot, hnodup'⟩ := List.nodup_cons.mp hnodup
    obtain ⟨hsmall, hover'⟩ := hover
    have hf := hprime f List.mem_cons_self
    have hprod := hsmall v h hv
    have hcoord : v d ≤ ∏ i, v i := by
      apply Nat.le_of_dvd (h.prod_pos hgrid)
      exact Finset.dvd_prod_of_mem v (Finset.mem_univ d)
    have hsecond : v d * f < 2 ^ 64 := (Nat.mul_le_mul_right f hcoord).trans_lt hprod
    have hpos : v d * f ≠ 0 := (Nat.mul_pos (h.pos hgrid d) hf.pos).ne'
    have hiff := admissible_up_iff h d f
    rw [nextFactor]
    simp only [toBlock, mulSize, Nat.mod_eq_of_lt hprod, Nat.mod_eq_of_lt hsecond]
    rw [if_neg fun hzero => hpos hzero.2.2, List.map_cons, List.cons_append, List.map_cons, next]
    by_cases hup : Admissible productLimit coordLimit grid ((digit (d, f)).up v)
    · rw [if_pos (hiff.mp hup), if_pos hup, nextBlock, Option.map_some, Option.getD_some, toBlock,
        prod_up]
      rfl
    · rw [if_neg fun hcond => hup (hiff.mpr hcond), if_neg hup]
      obtain ⟨k, w, hw, hk⟩ := Nat.exists_eq_pow_mul_and_not_dvd (h.pos hgrid d).ne' f hf.ne_one
      have hwd : v d * f = f ^ (k + 1) * w := by
        rw [hk, Nat.pow_succ]
        ring
      have hlt : k + 1 < v d * f + 1 := by
        have hpow := Nat.lt_pow_self hf.one_lt (n := k + 1)
        have hwpos : 0 < w := Nat.pos_of_ne_zero fun hzero => hw (hzero ▸ dvd_zero f)
        have hle := Nat.le_mul_of_pos_right (f ^ (k + 1)) hwpos
        omega
      have hprodw : (∏ i, v i) * f = f ^ (k + 1) * ∏ i, Function.update v d w i := by
        have hupdate := prod_update_mul v d w (f ^ k)
        rw [Nat.mul_comm w, ← hk, Function.update_eq_self] at hupdate
        rw [hupdate, Nat.pow_succ]
        ring
      have hback : backOff f (v d * f + 1) ((∏ i, v i) * f) (v d * f) =
          some (∏ i, Function.update v d w i, w) := by
        rw [hprodw, hwd]
        rw [hwd] at hlt
        exact backOff_eq hf.pos hw hlt
      have hreset : (digit (d, f)).reset ((digit (d, f)).up v) = Function.update v d w := by
        have hout : divideOut f (v d * f + 1) (v d * f) = some w := by
          rw [hwd]
          rw [hwd] at hlt
          exact divideOut_eq hf.pos hw hlt
        simp only [digit, Function.update_self, Function.update_idem]
        rw [hout, Option.getD_some]
      have hdvd (i : Fin n) : Function.update v d w i ∣ v i := by
        by_cases hi : i = d
        · subst hi
          rw [Function.update_self, hk]
          exact Nat.dvd_mul_left w _
        · rw [Function.update_of_ne hi]
      have hover'' : Over (factors.map (fun f => (d, f)) ++ P) (Function.update v d w) := by
        intro i p hp hpw
        rcases List.mem_cons.mp (hv i p hp (hpw.trans (hdvd i))) with heq | htail
        · obtain ⟨rfl, rfl⟩ := Prod.mk.inj heq
          rw [Function.update_self] at hpw
          exact absurd hpw hw
        · exact htail
      rw [hback, hreset]
      exact ih hnodup' (fun f hf => hprime f (List.mem_cons_of_mem _ hf)) hover'
        (h.of_dvd hgrid hdvd) hover''

omit hgrid in
theorem NoOverflowOn.of_append {P Q : List (Fin n × ℕ)}
    (h : NoOverflowOn productLimit coordLimit grid (P ++ Q)) :
  NoOverflowOn productLimit coordLimit grid Q
  := by
  induction P with
  | nil => exact h
  | cons g P ih => exact ih h.2

/-- The search counts up the factors of all dimensions. -/
theorem nextGridFactor_eq {dims : List (Fin n × List ℕ)} (hnodup : (positions dims).Nodup)
    (hprime : ∀ g ∈ positions dims, g.2.Prime)
    (hover : NoOverflowOn productLimit coordLimit grid (positions dims)) {v : Fin n → ℕ}
    (h : Admissible productLimit coordLimit grid v) (hv : Over (positions dims) v) :
  nextGridFactor ⟨productLimit, coordLimit⟩ grid dims (toBlock v) =
    some (nextBlock (next (Admissible productLimit coordLimit grid)
      ((positions dims).map digit) v))
  := by
  induction dims generalizing v with
  | nil => rfl
  | cons dim dims ih =>
    obtain ⟨d, factors⟩ := dim
    have hpos : positions ((d, factors) :: dims) =
        factors.map (fun f => (d, f)) ++ positions dims := rfl
    rw [hpos] at hnodup hprime hover hv ⊢
    apply nextFactor_eq hgrid _ hnodup _ hover h hv
    · intro w hw hoverw
      exact ih (List.Nodup.of_append_right hnodup)
        (fun g hg => hprime g (List.mem_append_right _ hg)) hover.of_append hw hoverw
    · intro f hf
      exact hprime (d, f) (List.mem_append_left _ (List.mem_map_of_mem hf))

/-- The search gives the best of the blocks that it comes to. -/
theorem searchLoop_eq {dims : List (Fin n × List ℕ)} (hnodup : (positions dims).Nodup)
    (hprime : ∀ g ∈ positions dims, g.2.Prime)
    (hover : NoOverflowOn productLimit coordLimit grid (positions dims)) {v : Fin n → ℕ}
    {l : List (Fin n → ℕ)}
    (htrace : Trace (next (Admissible productLimit coordLimit grid) ((positions dims).map digit))
      v l)
    (hl : ∀ w ∈ l, Admissible productLimit coordLimit grid w ∧ Over (positions dims) w)
    (best : Fin n → ℕ) :
  ∃ r, (∀ fuel > l.length, searchLoop ⟨productLimit, coordLimit⟩ grid dims fuel (toBlock v)
      (toBlock best) = some (toBlock r)) ∧
    (r = best ∨ r ∈ l) ∧ ∏ i, best i ≤ ∏ i, r i ∧ ∀ w ∈ l, ∏ i, w i ≤ ∏ i, r i
  := by
  -- one round of the loop: the better one of two blocks
  have hround : ∀ v best : Fin n → ℕ, ∃ better, toBlock better =
      (if (toBlock v).first > (toBlock best).first then toBlock v else toBlock best) ∧
      (better = best ∨ better = v) ∧ ∏ i, best i ≤ ∏ i, better i ∧ ∏ i, v i ≤ ∏ i, better i := by
    intro v best
    by_cases hlt : (toBlock v).first > (toBlock best).first
    · exact ⟨v, (if_pos hlt).symm, Or.inr rfl, hlt.le, le_rfl⟩
    · exact ⟨best, (if_neg hlt).symm, Or.inl rfl, le_rfl, not_lt.mp hlt⟩
  -- the loop stops where the limit has been reached
  have hstops : ∀ v best fuel, (toBlock best).first = productLimit → 0 < fuel →
      searchLoop ⟨productLimit, coordLimit⟩ grid dims fuel (toBlock v) (toBlock best) =
        some (toBlock best) := by
    intro v best fuel hstop hfuel
    obtain ⟨fuel, rfl⟩ := Nat.exists_eq_succ_of_ne_zero hfuel.ne'
    exact if_neg fun hcond => hcond.2 hstop
  induction htrace generalizing best with
  | @last v hlast =>
    obtain ⟨h, hv⟩ := hl v List.mem_cons_self
    by_cases hstop : (toBlock best).first = productLimit
    · refine ⟨best, fun fuel hfuel => hstops v best fuel hstop (Nat.zero_lt_of_lt hfuel),
        Or.inl rfl, le_rfl, ?_⟩
      intro w hw
      exact (hl w hw).1.prod_le.trans_eq hstop.symm
    · obtain ⟨better, hbetter, hfrom, hle, hle'⟩ := hround v best
      refine ⟨better, ?_, ?_, hle, ?_⟩
      · intro fuel hfuel
        rw [List.length_singleton] at hfuel
        obtain ⟨fuel, rfl⟩ : ∃ k, fuel = k + 2 := ⟨fuel - 2, by omega⟩
        rw [searchLoop, if_pos ⟨(h.prod_pos hgrid).ne', hstop⟩, nextGridFactor_eq hgrid hnodup hprime hover h hv,
          hlast, ← hbetter]
        simp only [Option.bind_eq_bind, Option.bind_some]
        rw [searchLoop]
        exact if_neg fun hcond => hcond.1 rfl
      · apply hfrom.imp_right
        rintro rfl
        exact List.mem_cons_self
      · intro w hw
        rw [List.mem_singleton.mp hw]
        exact hle'
  | @step v t l hnext rest ih =>
    obtain ⟨h, hv⟩ := hl v List.mem_cons_self
    by_cases hstop : (toBlock best).first = productLimit
    · refine ⟨best, fun fuel hfuel => hstops v best fuel hstop (Nat.zero_lt_of_lt hfuel),
        Or.inl rfl, le_rfl, ?_⟩
      intro w hw
      exact (hl w hw).1.prod_le.trans_eq hstop.symm
    · obtain ⟨better, hbetter, hfrom, hle, hle'⟩ := hround v best
      obtain ⟨r, hr, hfrom', hler, hall⟩ := ih (fun w hw => hl w (List.mem_cons_of_mem v hw)) better
      refine ⟨r, ?_, ?_, hle.trans hler, ?_⟩
      · intro fuel hfuel
        rw [List.length_cons] at hfuel
        obtain ⟨fuel, rfl⟩ : ∃ k, fuel = k + 1 := ⟨fuel - 1, by omega⟩
        rw [searchLoop, if_pos ⟨(h.prod_pos hgrid).ne', hstop⟩, nextGridFactor_eq hgrid hnodup hprime hover h hv,
          hnext, ← hbetter]
        exact hr fuel (by omega)
      · rcases hfrom' with rfl | hmem
        · apply hfrom.imp_right
          rintro rfl
          exact List.mem_cons_self
        · exact Or.inr (List.mem_cons_of_mem v hmem)
      · intro w hw
        rcases List.mem_cons.mp hw with rfl | hw
        · exact hle'.trans hler
        · exact hall w hw

/-! ### The whole search -/

omit hgrid in
theorem mapM_eq_map {α β : Type} {f : α → Option β} {g : α → β} {l : List α}
    (h : ∀ x ∈ l, f x = some (g x)) :
  l.mapM f = some (l.map g)
  := by
  induction l with
  | nil => rfl
  | cons x l ih =>
    rw [List.mapM_cons, h x List.mem_cons_self, ih fun y hy => h y (List.mem_cons_of_mem x hy)]
    rfl

omit hgrid in
/-- The places of the factors, in the order in which they are counted. -/
theorem gridFactors_spec (hcoord : ∀ i, 0 < coordLimit i) (hgrid : ∀ i, 0 < grid i) :
  ∃ dims, gridFactors coordLimit grid = some dims ∧
    (∀ i p, (i, p) ∈ positions dims ↔ Found (grid i) (coordLimit i) p) ∧
    (positions dims).Pairwise fun g g' => g.1 < g'.1 ∨ g.1 = g'.1 ∧ g.2 < g'.2
  := by
  choose factors hfactors hsorted hmem using fun i =>
    findIntegerPrimeFactors_spec (hgrid i) (hcoord i)
  refine ⟨(List.finRange n).map fun i => (i, factors i), ?_, ?_, ?_⟩
  · apply mapM_eq_map
    intro i _
    rw [hfactors, Option.map_some]
  · intro i p
    rw [positions, List.flatMap_map, List.mem_flatMap]
    constructor
    · rintro ⟨j, -, hj⟩
      obtain ⟨f, hf, heq⟩ := List.mem_map.mp hj
      obtain ⟨rfl, rfl⟩ := Prod.mk.inj heq
      exact (hmem j f).mp hf
    · intro hp
      exact ⟨i, List.mem_finRange i, List.mem_map_of_mem ((hmem i p).mpr hp)⟩
  · rw [positions, List.flatMap_map, List.pairwise_flatMap]
    constructor
    · intro i _
      rw [List.pairwise_map]
      exact (hsorted i).imp fun hlt => Or.inr ⟨rfl, hlt⟩
    · apply (List.pairwise_lt_finRange n).imp
      intro i j hlt g hg g' hg'
      obtain ⟨f, -, rfl⟩ := List.mem_map.mp hg
      obtain ⟨f', -, rfl⟩ := List.mem_map.mp hg'
      exact Or.inl hlt

/-- No product is too large for its type: not that of an admissible block of factors that are found
with a factor that is found in no later place than they are. -/
def NoOverflow (productLimit : ℕ) (coordLimit grid : Fin n → ℕ) : Prop :=
  ∀ d f, Found (grid d) (coordLimit d) f → ∀ v, Admissible productLimit coordLimit grid v →
    (∀ i p, p.Prime → p ∣ v i → Found (grid i) (coordLimit i) p ∧ (d < i ∨ d = i ∧ f ≤ p)) →
    (∏ i, v i) * f < 2 ^ 64

omit hgrid in
theorem NoOverflow.on (h : NoOverflow productLimit coordLimit grid) {P : List (Fin n × ℕ)}
    (hsorted : P.Pairwise fun g g' => g.1 < g'.1 ∨ g.1 = g'.1 ∧ g.2 < g'.2)
    (hfound : ∀ g ∈ P, Found (grid g.1) (coordLimit g.1) g.2) :
  NoOverflowOn productLimit coordLimit grid P
  := by
  induction P with
  | nil => trivial
  | cons g P ih =>
    obtain ⟨d, f⟩ := g
    obtain ⟨hfirst, hsorted'⟩ := List.pairwise_cons.mp hsorted
    refine ⟨?_, ih hsorted' fun g hg => hfound g (List.mem_cons_of_mem _ hg)⟩
    intro v hv hover
    apply h d f (hfound _ List.mem_cons_self) v hv
    intro i p hp hdvd
    have hmem := hover i p hp hdvd
    refine ⟨hfound _ hmem, ?_⟩
    rcases List.mem_cons.mp hmem with heq | htail
    · obtain ⟨rfl, rfl⟩ := Prod.mk.inj heq
      exact Or.inr ⟨rfl, le_rfl⟩
    · exact (hfirst _ htail).imp_right fun hlt => ⟨hlt.1, hlt.2.le⟩

/-- An admissible block of the largest product. -/
def IsOptimal (productLimit : ℕ) (coordLimit grid v : Fin n → ℕ) : Prop :=
  Admissible productLimit coordLimit grid v ∧
    ∀ w, Admissible productLimit coordLimit grid w → ∏ i, w i ≤ ∏ i, v i

end

end Factor

end Clover
