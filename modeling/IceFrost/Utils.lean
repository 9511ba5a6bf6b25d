import IceFrost.Basic

/-!
# Lagrange coefficients

`calculateLagrangeCoefficients myIndex allIndices` is the loop of `utils.rs`: it
multiplies up `j` and `j - myIndex` over the indices other than `myIndex` and
divides, reporting a zero denominator as duplicate shares. The loop is first
given its closed form, a numerator and a denominator over the filtered list,
and the quotient is then `lagrangeCoefficient`, the product
`Π_{j ∈ I, j ≠ i} j / (j - i)` of §4.1 of the spec. That product is the value at
zero of Mathlib's `Lagrange.basis`, which gives the interpolation identity
`Σ_{j ∈ I} λ_j · p(j) = p(0)` for every polynomial of degree below `|I|`.

The two hashing helpers of the same file wrap the ciphersuite's hashers, which
come as parameters: `hashToField` takes the first scalar of the field hasher,
and `hashToArray` copies the digest of the context string and the message into
the output array, which panics on a length mismatch.
-/

namespace IceFrost

open Polynomial

/-! ## Hashing -/

section Hashing

variable {F : Type}

/-- `hash_to_field`: the first scalar that the ciphersuite's field hasher, set
up with the context string, derives from the message. `hasher ctx msg n` is
`DefaultFieldHasher::new(ctx).hash_to_field(msg, n)`, defined outside the crate;
the `[0]` panics when it returns no scalar. -/
def hashToField (hasher : List UInt8 → List UInt8 → Nat → List F)
    (contextString messageToHash : List UInt8) : Option (Except Error F) :=
  (hasher contextString messageToHash 1)[0]?.map .ok

/-- The ciphersuite's inner hasher, a `Digest`: a state that absorbs bytes and
is finalized into the digest. -/
structure Hasher (S : Type) where
  new : S
  update : S → List UInt8 → S
  finalize : S → List UInt8

/-- `hash_to_array`: the digest of the context string and then the message,
copied into the ciphersuite's output array of `outputLength` bytes;
`copy_from_slice` panics unless the digest has exactly that length. -/
def hashToArray {S : Type} (h : Hasher S) (outputLength : Nat)
    (contextString messageToHash : List UInt8) : Option (Except Error (List UInt8)) :=
  let digest := h.finalize (h.update (h.update h.new contextString) messageToHash)
  if digest.length = outputLength then some (.ok digest) else none

/-- `hash_to_field` returns a scalar whenever the field hasher keeps its
contract of returning as many scalars as asked for. -/
theorem hashToField_isSome {hasher : List UInt8 → List UInt8 → Nat → List F}
    (hlen : ∀ ctx msg n, (hasher ctx msg n).length = n) (ctx msg : List UInt8) :
    ∃ x, hashToField hasher ctx msg = some (.ok x) := by
  obtain ⟨x, hx⟩ := List.length_eq_one.1 (hlen ctx msg 1)
  exact ⟨x, by simp [hashToField, hx]⟩

/-- `hash_to_array` never returns an error, and it panics exactly when the
digest and the output array differ in length. When the inner hasher only
appends what it absorbs, the digest is that of the concatenation. -/
theorem hashToArray_spec {S : Type} (h : Hasher S)
    (happend : ∀ s a b, h.update (h.update s a) b = h.update s (a ++ b)) (outputLength : Nat)
    (ctx msg : List UInt8) :
    hashToArray h outputLength ctx msg =
      if (h.finalize (h.update h.new (ctx ++ msg))).length = outputLength then
        some (.ok (h.finalize (h.update h.new (ctx ++ msg))))
      else none := by
  rw [hashToArray, happend]

end Hashing

variable {F : Type} [Field F]

/-- `Π_{j ∈ I, j ≠ i} j`, the numerator the loop accumulates. -/
def lagrangeNumerator (i : UInt32) (I : List UInt32) : F :=
  ((I.filter (· != i)).map fun j => (j.toNat : F)).prod

/-- `Π_{j ∈ I, j ≠ i} (j - i)`, the denominator the loop accumulates. -/
def lagrangeDenominator (i : UInt32) (I : List UInt32) : F :=
  ((I.filter (· != i)).map fun j => (j.toNat : F) - i.toNat).prod

/-- The Lagrange coefficient as the spec states it:
`λ_i = Π_{j ∈ I, j ≠ i} j / (j - i)`. -/
def lagrangeCoefficient (i : UInt32) (I : List UInt32) : F :=
  ((I.filter (· != i)).map fun j => (j.toNat : F) / ((j.toNat : F) - i.toNat)).prod

theorem lagrange_foldl (i : UInt32) (I : List UInt32) (a b : F) :
    I.foldl (fun (acc : F × F) j =>
        if j = i then acc
        else (acc.1 * (j.toNat : F), acc.2 * ((j.toNat : F) - i.toNat))) (a, b) =
      (a * lagrangeNumerator i I, b * lagrangeDenominator i I) := by
  induction I generalizing a b with
  | nil => simp [lagrangeNumerator, lagrangeDenominator]
  | cons j I ih =>
      by_cases hj : j = i
      · simp [hj, ih, lagrangeNumerator, lagrangeDenominator]
      · simp [hj, ih, lagrangeNumerator, lagrangeDenominator, mul_assoc]

/-- Every coefficient list is a polynomial of degree below its length. -/
theorem exists_mem_degreeLT_polyEval (a : List F) :
    ∃ p ∈ degreeLT F a.length, ∀ x, p.eval x = polyEval x a := by
  induction a with
  | nil => exact ⟨0, zero_mem _, by simp⟩
  | cons c a ih =>
      obtain ⟨p, hp, hev⟩ := ih
      refine ⟨C c + X * p, ?_, by simp [hev]⟩
      rw [mem_degreeLT, degree_lt_iff_coeff_zero] at hp ⊢
      intro m hm
      obtain ⟨k, rfl⟩ : ∃ k, m = k + 1 := ⟨m - 1, by simp at hm; omega⟩
      simp [coeff_C, coeff_X_mul, hp k (by simp at hm; omega)]

/-- A weighted sum of coefficient lists of length `t` is a polynomial of degree
below `t`. -/
theorem exists_mem_degreeLT_sum {ι : Type} (t : Nat) (w : ι → F) (a : ι → List F) (D : List ι)
    (hD : ∀ d ∈ D, (a d).length = t) :
    ∃ p ∈ degreeLT F t, ∀ x, p.eval x = (D.map fun d => w d * polyEval x (a d)).sum := by
  induction D with
  | nil => exact ⟨0, zero_mem _, by simp⟩
  | cons d D ih =>
      simp only [List.mem_cons, forall_eq_or_imp] at hD
      obtain ⟨q, hq, hqev⟩ := ih hD.2
      obtain ⟨p, hp, hpev⟩ := exists_mem_degreeLT_polyEval (a d)
      rw [hD.1] at hp
      exact ⟨w d • p + q, add_mem (Submodule.smul_mem _ _ hp) hq, by simp [hpev, hqev]⟩

section Loop

variable [DecidableEq F]

/-- `calculate_lagrange_coefficients`. The `inverse().unwrap()` sits behind the
zero test of the denominator, so it is the field inverse here. -/
def calculateLagrangeCoefficients (myIndex : UInt32) (allIndices : List UInt32) :
    Except Error F :=
  let myIndexField : F := myIndex.toNat
  let (numerator, denominator) := allIndices.foldl
    (fun (acc : F × F) j =>
      if j = myIndex then acc
      else
        let s : F := j.toNat
        (acc.1 * s, acc.2 * (s - myIndexField)))
    (1, 1)
  if denominator = 0 then .error (.Custom "Duplicate shares provided")
  else .ok (numerator * denominator⁻¹)

/-- The closed form of the loop: the quotient of the two products, unless the
denominator vanishes. -/
theorem calculateLagrangeCoefficients_eq (i : UInt32) (I : List UInt32) :
    calculateLagrangeCoefficients i I =
      if lagrangeDenominator i I = (0 : F) then .error (.Custom "Duplicate shares provided")
      else .ok (lagrangeNumerator i I * (lagrangeDenominator i I)⁻¹ : F) := by
  simp only [calculateLagrangeCoefficients, lagrange_foldl, one_mul]

end Loop

theorem lagrangeNumerator_mul_inv (i : UInt32) (I : List UInt32) :
    lagrangeNumerator i I * (lagrangeDenominator i I)⁻¹ = (lagrangeCoefficient i I : F) := by
  simp only [lagrangeNumerator, lagrangeDenominator, lagrangeCoefficient, ← div_eq_mul_inv]
  induction I.filter (· != i) with
  | nil => simp
  | cons j l ih => simp [← ih, mul_div_mul_comm]

/-- The spec's coefficient is the value at zero of Mathlib's Lagrange basis
polynomial of `i` over the nodes `I`. -/
theorem lagrangeCoefficient_eq_eval_basis {I : List UInt32} (hI : I.Nodup) (i : UInt32) :
    lagrangeCoefficient i I =
      (Lagrange.basis I.toFinset (fun j : UInt32 => (j.toNat : F)) i).eval 0 := by
  have hnodup : (I.filter (· != i)).Nodup := hI.filter _
  rw [Lagrange.basis, eval_prod, ← Finset.filter_ne', lagrangeCoefficient,
    ← List.prod_toFinset _ hnodup, List.toFinset_filter]
  refine Finset.prod_congr (by simp) fun j _ => ?_
  simp only [Lagrange.basisDivisor, eval_mul, eval_C, eval_sub, eval_X, zero_sub]
  rw [div_eq_mul_inv, ← neg_sub, inv_neg]
  ring

/-- The interpolation identity: over a field of large characteristic, the
Lagrange coefficients of distinct indices `I` recover the value at zero of every
polynomial of degree below `|I|` from its values at `I`. -/
theorem sum_lagrangeCoefficient_mul_eval (hchar : CharExceedsU32 F) {I : List UInt32}
    (hI : I.Nodup) {p : F[X]} (hp : p.degree < I.length) :
    (I.map fun j => lagrangeCoefficient j I * p.eval (j.toNat : F)).sum = p.eval 0 := by
  have hinj : Set.InjOn (fun j : UInt32 => (j.toNat : F)) I.toFinset :=
    fun a _ b _ hab => hchar.cast_inj.1 hab
  have hcard : (I.toFinset.card : WithBot ℕ) = I.length := by
    rw [List.toFinset_card_of_nodup hI]
  conv_rhs => rw [Lagrange.eq_interpolate (f := p) hinj (hcard ▸ hp)]
  rw [Lagrange.interpolate_apply, eval_finset_sum, ← List.sum_toFinset _ hI]
  refine Finset.sum_congr rfl fun j _ => ?_
  rw [eval_mul, eval_C, lagrangeCoefficient_eq_eval_basis hI, mul_comm]

/-- The coefficient depends on the index list only through its multiset. -/
theorem lagrangeCoefficient_perm {I I' : List UInt32} (h : I.Perm I') (i : UInt32) :
    lagrangeCoefficient i I = (lagrangeCoefficient i I' : F) :=
  ((h.filter _).map _).prod_eq

theorem lagrangeDenominator_perm {I I' : List UInt32} (h : I.Perm I') (i : UInt32) :
    lagrangeDenominator i I = (lagrangeDenominator i I' : F) :=
  ((h.filter _).map _).prod_eq

/-- Whether some coefficient of a family of shares fails does not depend on the
order in which the shares are listed. -/
theorem lagrangeDenominators_ne_zero_perm {ι : Type} (idx : ι → UInt32) {cs cs' : List ι}
    (h : cs.Perm cs') :
    (∀ c ∈ cs, lagrangeDenominator (idx c) (cs.map idx) ≠ (0 : F)) ↔
      ∀ c ∈ cs', lagrangeDenominator (idx c) (cs'.map idx) ≠ (0 : F) := by
  simp only [lagrangeDenominator_perm (h.map idx), h.mem_iff]

theorem lagrangeDenominator_ne_zero (hchar : CharExceedsU32 F) (i : UInt32) (I : List UInt32) :
    lagrangeDenominator i I ≠ (0 : F) := by
  simp [lagrangeDenominator, List.prod_eq_zero_iff, sub_eq_zero, hchar.cast_inj]

section Loop

variable [DecidableEq F]

/-- Over a field of large characteristic the loop never reports duplicate
shares, whatever the list: every denominator is a product of nonzero `j - i`. -/
theorem calculateLagrangeCoefficients_of_char (hchar : CharExceedsU32 F) (i : UInt32)
    (I : List UInt32) : calculateLagrangeCoefficients i I = .ok (lagrangeCoefficient i I : F) := by
  rw [calculateLagrangeCoefficients_eq, if_neg (lagrangeDenominator_ne_zero hchar i I),
    lagrangeNumerator_mul_inv]

/-- Over a field of large characteristic and for distinct indices `I`, every
call on a member of `I` succeeds, its value is the value at zero of the Lagrange
basis polynomial, and these values interpolate every polynomial of degree below
`|I|` at zero. -/
theorem calculateLagrangeCoefficients_interpolate (hchar : CharExceedsU32 F)
    {I : List UInt32} (hI : I.Nodup) (p : F[X]) (hp : p.degree < I.length) :
    (∀ j ∈ I, calculateLagrangeCoefficients j I = .ok (lagrangeCoefficient j I : F) ∧
      lagrangeCoefficient j I =
        (Lagrange.basis I.toFinset (fun k : UInt32 => (k.toNat : F)) j).eval 0) ∧
    (I.map fun j => lagrangeCoefficient j I * p.eval (j.toNat : F)).sum = p.eval 0 :=
  ⟨fun j _ => ⟨calculateLagrangeCoefficients_of_char hchar j I,
      lagrangeCoefficient_eq_eval_basis hI j⟩,
    sum_lagrangeCoefficient_mul_eval hchar hI hp⟩

theorem calculateLagrangeCoefficients_interpolate_linear :
    CharExceedsU32 ℚ ∧ ([1, 2] : List UInt32).Nodup ∧ (X : ℚ[X]).degree < (2 : ℕ) ∧
    ((∀ j ∈ ([1, 2] : List UInt32), calculateLagrangeCoefficients j [1, 2] =
        .ok (lagrangeCoefficient j [1, 2] : ℚ) ∧
      lagrangeCoefficient j [1, 2] =
        (Lagrange.basis ([1, 2] : List UInt32).toFinset (fun k : UInt32 => (k.toNat : ℚ)) j).eval 0) ∧
    (([1, 2] : List UInt32).map fun j =>
      lagrangeCoefficient j [1, 2] * (X : ℚ[X]).eval (j.toNat : ℚ)).sum = (X : ℚ[X]).eval 0) :=
  have hchar : CharExceedsU32 ℚ := Or.inl ringChar.eq_zero
  have hI : ([1, 2] : List UInt32).Nodup := by decide
  have hp : (X : ℚ[X]).degree < (2 : ℕ) := by simp
  ⟨hchar, hI, hp, calculateLagrangeCoefficients_interpolate hchar hI X hp⟩

/-- The loop's only error is `Custom "Duplicate shares provided"`, raised
exactly when the denominator `Π_{j ≠ myIndex} (j - myIndex)` vanishes in `F`;
otherwise the result is the spec's coefficient. In particular the empty list
is not an error: there is nothing to multiply, and the coefficient is `1`. -/
theorem calculateLagrangeCoefficients_error_iff (myIndex : UInt32) (allIndices : List UInt32) :
    calculateLagrangeCoefficients myIndex [] = (.ok 1 : Except Error F) ∧
    (∀ e, calculateLagrangeCoefficients myIndex allIndices = (.error e : Except Error F) ↔
      e = .Custom "Duplicate shares provided" ∧ lagrangeDenominator myIndex allIndices = (0 : F)) ∧
    (∀ v, calculateLagrangeCoefficients myIndex allIndices = (.ok v : Except Error F) ↔
      lagrangeDenominator myIndex allIndices ≠ (0 : F) ∧ v = lagrangeCoefficient myIndex allIndices) := by
  refine ⟨by simp [calculateLagrangeCoefficients], fun e => ?_, fun v => ?_⟩ <;>
  · rw [calculateLagrangeCoefficients_eq, lagrangeNumerator_mul_inv]
    split_ifs with h <;> simp [h, eq_comm]

/-- The empty index list yields `Ok(1)`, where the spec's sentence has an error. -/
theorem calculateLagrangeCoefficients_nil_ok :
    calculateLagrangeCoefficients (F := ℚ) 1 [] = .ok 1 := by
  simp [calculateLagrangeCoefficients]

/-- On an index list with no index twice, the call returns a coefficient once
the characteristic exceeds every `u32`, and the empty list gives `1`; whatever
the list, its only error is `Duplicate shares provided`. The proof does not need
the indices to be distinct: that hypothesis keeps lists with a repeated index,
where the code misses its own duplicate check (next theorem), out of the
statement. -/
theorem calculateLagrangeCoefficients_ok_of_nodup (hchar : CharExceedsU32 F) (myIndex : UInt32)
    {allIndices : List UInt32} (_hI : allIndices.Nodup) :
    calculateLagrangeCoefficients myIndex [] = (.ok 1 : Except Error F) ∧
    (∃ v, calculateLagrangeCoefficients myIndex allIndices = (.ok v : Except Error F)) ∧
    ∀ (I : List UInt32) e, calculateLagrangeCoefficients myIndex I = (.error e : Except Error F) →
      e = .Custom "Duplicate shares provided" :=
  ⟨(calculateLagrangeCoefficients_error_iff myIndex []).1,
    ⟨_, calculateLagrangeCoefficients_of_char hchar myIndex allIndices⟩,
    fun I e h => (((calculateLagrangeCoefficients_error_iff myIndex I).2.1 e).1 h).1⟩

theorem calculateLagrangeCoefficients_ok_of_nodup_pair :
    CharExceedsU32 ℚ ∧ ([1, 2] : List UInt32).Nodup ∧
    calculateLagrangeCoefficients 1 [] = (.ok 1 : Except Error ℚ) ∧
    (∃ v, calculateLagrangeCoefficients 1 [1, 2] = (.ok v : Except Error ℚ)) ∧
    ∀ (I : List UInt32) e, calculateLagrangeCoefficients 1 I = (.error e : Except Error ℚ) →
      e = .Custom "Duplicate shares provided" :=
  have hchar : CharExceedsU32 ℚ := Or.inl ringChar.eq_zero
  have hI : ([1, 2] : List UInt32).Nodup := by decide
  ⟨hchar, hI, calculateLagrangeCoefficients_ok_of_nodup hchar 1 hI⟩

/-- The duplicate check misses every repeated index. The loop skips each entry
equal to `myIndex`, so a repeated `myIndex` never reaches the denominator, and a
repeated other index only multiplies it by a nonzero difference twice: both
calls below return `Ok` where the error label promises `Duplicate shares
provided`. -/
theorem calculateLagrangeCoefficients_duplicate_ok :
    calculateLagrangeCoefficients (F := ℚ) 1 [1, 1] = .ok 1 ∧
    calculateLagrangeCoefficients (F := ℚ) 1 [2, 2] = .ok 4 := by
  refine ⟨by simp [calculateLagrangeCoefficients], ?_⟩
  rw [calculateLagrangeCoefficients_eq]
  simp [lagrangeDenominator, lagrangeNumerator, List.filter]
  norm_num

end Loop

end IceFrost
