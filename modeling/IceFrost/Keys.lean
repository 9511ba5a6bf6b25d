import IceFrost.Utils
import IceFrost.Serialize

/-!
# Key types and the reconstruction of verifying keys

`keys.rs` holds the key types of the crate and the two places where a
participant's verifying key is recomputed from the dealers' commitments:
`generateFromCommitments` builds `Y_i = Σ_j λ_j · C_j(i)`, and `verify` compares
a supplied key with the same sum. Each of them carries its own copy of the
inner loop, a Horner evaluation over the reversed points that multiplies by `i`
after every point but the last; the copies are identical, so both call
`evaluateCommitment` here. The loops differ in what a failed Lagrange
coefficient does: `generateFromCommitments` unwraps it and panics, while
`verify` returns `Err(Custom(error.to_string()))`.

Both loops are given a closed form over `combinedEvaluation`. From it the key
facts follow: the Horner loop is exact and never panics, the two functions
agree, neither depends on the order of the commitments, and over a field of
large characteristic no coefficient fails.
-/

namespace IceFrost

/-- A Diffie-Hellman private key wrapper type around a scalar. -/
structure DiffieHellmanPrivateKey (F : Type) where
  key : F
  deriving DecidableEq, Repr

/-- A Diffie-Hellman public key wrapper type around a point. The `PhantomData`
field carries no data. -/
structure DiffieHellmanPublicKey (G : Type) where
  key : G
  deriving DecidableEq, Repr

/-- A public verification share `Y_i` for the participant of index `i`. -/
structure IndividualVerifyingKey (G : Type) where
  index : UInt32
  share : G
  deriving DecidableEq, Repr

/-- A participant's long-lived secret share `s_i`. -/
structure IndividualSigningKey (F : Type) where
  index : UInt32
  key : F
  deriving DecidableEq, Repr

/-- The group's public key. -/
structure GroupKey (G : Type) where
  key : G
  deriving DecidableEq, Repr

section Reconstruction

variable (F : Type) [Field F] {G : Type} [AddCommGroup G] [Module F G]

/-- One pass of the inner loop of `verify` and `generate_from_commitments`:
`tmp += com; if index != (points.len() - 1) { tmp *= term }`. The subtraction is
evaluated on every pass, and panics if the list is empty. -/
def hornerStep (term : F) (len : Nat) (tmp : G) (p : Nat × G) : Option G := do
  let tmp := tmp + p.2
  let last ← usizeSub len 1
  pure (if p.1 ≠ last then term • tmp else tmp)

/-- The inner loop: `for (index, com) in points.iter().rev().enumerate()`,
starting from the identity. -/
def evaluateCommitment (term : F) (points : List G) : Option G :=
  points.reverse.enum.foldlM (hornerStep F term points.length) 0

variable {F}

theorem hornerStep_eq {term : F} {n s : Nat} (hn : 0 < n) (tmp c : G) :
    hornerStep F term n tmp (s, c) = some (if s ≠ n - 1 then term • (tmp + c) else tmp + c) := by
  simp [hornerStep, usizeSub_of_le (Nat.one_le_iff_ne_zero.2 hn.ne')]

/-- The loop from position `s` on, when it ends at the last index `n - 1`: every
point but the last is followed by a multiplication. -/
theorem foldlM_hornerStep (term : F) {n : Nat} (acc : G) (r : List G) (s : Nat) (hr : r ≠ [])
    (hs : s + r.length = n) :
    (r.enumFrom s).foldlM (hornerStep F term n) acc =
      some (term ^ (r.length - 1) • acc + polyEval term r.reverse) := by
  induction r generalizing s acc with
  | nil => exact absurd rfl hr
  | cons c r ih =>
      simp only [List.enumFrom_cons, List.foldlM_cons, List.length_cons] at hs ⊢
      rw [hornerStep_eq (by omega)]
      cases r with
      | nil =>
          simp only [List.length_nil] at hs
          simp [show s = n - 1 by omega]
      | cons d r =>
          simp only [List.length_cons] at hs ih ⊢
          rw [if_pos (by omega), Option.bind_eq_bind, Option.some_bind,
            ih _ _ (List.cons_ne_nil d r) (by omega),
            List.reverse_cons _ (d :: r), polyEval_append]
          congr 1
          simp only [Nat.add_sub_cancel, List.length_reverse, List.length_cons, polyEval_cons,
            polyEval_nil, smul_zero, add_zero, smul_smul, ← pow_succ, smul_add]
          abel

/-- The Horner loop is exact: it returns `Σ_k term^k • points_k`, and it never
reaches the subtraction on an empty list. -/
theorem evaluateCommitment_eq (term : F) (points : List G) :
    evaluateCommitment F term points = some (polyEval term points) := by
  cases points with
  | nil => rfl
  | cons c cs =>
      rw [evaluateCommitment, List.enum, foldlM_hornerStep term 0 _ 0 (by simp) (by simp),
        List.reverse_reverse, smul_zero, zero_add]

/-- `IndividualSigningKey::to_public`: `Y_i = s_i · B`, for the generator `B`. -/
def IndividualSigningKey.toPublic (B : G) (self : IndividualSigningKey F) :
    IndividualVerifyingKey G :=
  ⟨self.index, self.key • B⟩

/-- The sum `Σ_j λ_j(I) • C_j(x)` both loops build: every commitment evaluated
at `x`, weighted by the Lagrange coefficient of its index over `I`. -/
def combinedEvaluation (x : F) (I : List UInt32)
    (commitments : List (VerifiableSecretSharingCommitment G)) : G :=
  (commitments.map fun c => (lagrangeCoefficient c.index I : F) • polyEval x c.points).sum

@[simp] theorem combinedEvaluation_nil (x : F) (I : List UInt32) :
    combinedEvaluation x I ([] : List (VerifiableSecretSharingCommitment G)) = 0 := List.sum_nil

@[simp] theorem combinedEvaluation_cons (x : F) (I : List UInt32)
    (c : VerifiableSecretSharingCommitment G) (cs : List (VerifiableSecretSharingCommitment G)) :
    combinedEvaluation x I (c :: cs) =
      (lagrangeCoefficient c.index I : F) • polyEval x c.points + combinedEvaluation x I cs := rfl

/-- The sum both loops build does not depend on the order of the commitments:
each coefficient depends only on the multiset of indices. -/
theorem combinedEvaluation_perm (x : F) {cs cs' : List (VerifiableSecretSharingCommitment G)}
    (h : cs.Perm cs') :
    combinedEvaluation x (cs.map (·.index)) cs = combinedEvaluation x (cs'.map (·.index)) cs' := by
  have hI := h.map (·.index)
  simp only [combinedEvaluation, lagrangeCoefficient_perm hI]
  exact (h.map _).sum_eq

variable [DecidableEq F]

variable (F)

/-- One pass of the outer loop of `generate_from_commitments`:
`share += tmp * coeff`, with the Lagrange coefficient unwrapped. -/
def generateStep (term : F) (indexVector : List UInt32) (share : G)
    (commitment : VerifiableSecretSharingCommitment G) : Option G := do
  let tmp ← evaluateCommitment F term commitment.points
  let coeff ← (calculateLagrangeCoefficients (F := F) commitment.index indexVector).toOption
  pure (share + coeff • tmp)

/-- `IndividualVerifyingKey::generate_from_commitments`. -/
def IndividualVerifyingKey.generateFromCommitments (participantIndex : UInt32)
    (commitments : List (VerifiableSecretSharingCommitment G)) :
    Option (IndividualVerifyingKey G) := do
  let term : F := participantIndex.toNat
  let indexVector := commitments.map (·.index)
  let share ← commitments.foldlM (generateStep F term indexVector) 0
  pure ⟨participantIndex, share⟩

/-- The outer loop of `verify`: that of `generate_from_commitments`, except that
a failed Lagrange coefficient returns `Err(Custom(error.to_string()))` at once.
`display` is the `Display` of the crate's error type. -/
def verifyLoop (display : Error → String) (term : F) (indexVector : List UInt32) :
    G → List (VerifiableSecretSharingCommitment G) → Option (Except Error G)
  | rhs, [] => some (.ok rhs)
  | rhs, commitment :: commitments => do
      let tmp ← evaluateCommitment F term commitment.points
      match calculateLagrangeCoefficients (F := F) commitment.index indexVector with
      | .ok coeff => verifyLoop display term indexVector (rhs + coeff • tmp) commitments
      | .error error => some (.error (.Custom (display error)))

variable {F}

theorem generateStep_eq (x : F) (I : List UInt32) (share : G)
    (c : VerifiableSecretSharingCommitment G) :
    generateStep F x I share c =
      if lagrangeDenominator c.index I = (0 : F) then none
      else some (share + (lagrangeCoefficient c.index I : F) • polyEval x c.points) := by
  rw [generateStep, evaluateCommitment_eq, calculateLagrangeCoefficients_eq,
    lagrangeNumerator_mul_inv]
  split_ifs <;> rfl

/-- The closed form of the outer loop of `generate_from_commitments`: it panics
exactly when some coefficient has a zero denominator. -/
theorem foldlM_generateStep (x : F) (I : List UInt32) (share : G)
    (cs : List (VerifiableSecretSharingCommitment G)) :
    cs.foldlM (generateStep F x I) share =
      if ∀ c ∈ cs, lagrangeDenominator c.index I ≠ (0 : F) then
        some (share + combinedEvaluation x I cs)
      else none := by
  induction cs generalizing share with
  | nil => simp
  | cons c cs ih =>
      rw [List.foldlM_cons, generateStep_eq]
      by_cases hc : lagrangeDenominator c.index I = (0 : F)
      · simp only [hc, ↓reduceIte, Option.bind_eq_bind, Option.none_bind, List.mem_cons, ne_eq,
          forall_eq_or_imp, not_true_eq_false, false_and]
      · simp only [hc, ↓reduceIte, ih, ne_eq, Option.bind_eq_bind, Option.some_bind, add_assoc,
          List.mem_cons, forall_eq_or_imp, not_false_eq_true, true_and, combinedEvaluation_cons]

/-- The closed form of the outer loop of `verify`: it returns the custom error of
the first failed coefficient, and all of them fail the same way. -/
theorem verifyLoop_eq (display : Error → String) (x : F) (I : List UInt32) (rhs : G)
    (cs : List (VerifiableSecretSharingCommitment G)) :
    verifyLoop F display x I rhs cs =
      if ∀ c ∈ cs, lagrangeDenominator c.index I ≠ (0 : F) then
        some (.ok (rhs + combinedEvaluation x I cs))
      else some (.error (.Custom (display (.Custom "Duplicate shares provided")))) := by
  induction cs generalizing rhs with
  | nil => simp [verifyLoop]
  | cons c cs ih =>
      rw [verifyLoop, evaluateCommitment_eq, Option.bind_eq_bind, Option.some_bind,
        calculateLagrangeCoefficients_eq, lagrangeNumerator_mul_inv]
      by_cases hc : lagrangeDenominator c.index I = (0 : F)
      · simp only [hc, ↓reduceIte, List.mem_cons, ne_eq, forall_eq_or_imp, not_true_eq_false,
          false_and]
      · simp only [hc, ↓reduceIte, ih, ne_eq, add_assoc, List.mem_cons, forall_eq_or_imp,
          not_false_eq_true, true_and, combinedEvaluation_cons]

theorem generateFromCommitments_eq (i : UInt32) (cs : List (VerifiableSecretSharingCommitment G)) :
    IndividualVerifyingKey.generateFromCommitments F i cs =
      if ∀ c ∈ cs, lagrangeDenominator c.index (cs.map (·.index)) ≠ (0 : F) then
        some ⟨i, combinedEvaluation (i.toNat : F) (cs.map (·.index)) cs⟩
      else none := by
  rw [IndividualVerifyingKey.generateFromCommitments, foldlM_generateStep]
  split_ifs <;> simp

/-- For commitments `a_{j,k} · B`, the rebuilt share is `(Σ_j λ_j · f_j(i)) · B`. -/
theorem generateFromCommitments_of_coefficients (hchar : CharExceedsU32 F) {B : G} {i : UInt32}
    (dealers : List (UInt32 × List F)) :
    IndividualVerifyingKey.generateFromCommitments F i
        (dealers.map fun d => ⟨d.1, d.2.map (· • B)⟩) =
      some ⟨i, (dealers.map fun d =>
        lagrangeCoefficient d.1 (dealers.map Prod.fst) * polyEval (i.toNat : F) d.2).sum • B⟩ := by
  rw [generateFromCommitments_eq, if_pos fun c _ => lagrangeDenominator_ne_zero hchar _ _]
  simp [combinedEvaluation, Function.comp_def, polyEval_map_smul, List.sum_smul, mul_smul]

/-- Over a field of large characteristic, `generate_from_commitments` is the
public half of the signing key `Σ_j λ_j · f_j(i)` whenever the points are
commitments `a_{j,k} · B`: the Horner loop is exact and never panics, and no
Lagrange coefficient fails. -/
theorem generateFromCommitments_eq_toPublic (hchar : CharExceedsU32 F) (B : G) (i : UInt32)
    (dealers : List (UInt32 × List F)) :
    (∀ points : List G,
      evaluateCommitment F (i.toNat : F) points = some (polyEval (i.toNat : F) points)) ∧
    (∀ d ∈ dealers, calculateLagrangeCoefficients d.1 (dealers.map Prod.fst) =
      .ok (lagrangeCoefficient d.1 (dealers.map Prod.fst) : F)) ∧
    IndividualVerifyingKey.generateFromCommitments F i
        (dealers.map fun d => ⟨d.1, d.2.map (· • B)⟩) =
      some (IndividualSigningKey.toPublic B ⟨i, (dealers.map fun d =>
        lagrangeCoefficient d.1 (dealers.map Prod.fst) * polyEval (i.toNat : F) d.2).sum⟩) := by
  refine ⟨evaluateCommitment_eq _, fun d _ => calculateLagrangeCoefficients_of_char hchar _ _, ?_⟩
  rw [generateFromCommitments_of_coefficients hchar]
  rfl

theorem generateFromCommitments_eq_toPublic_two_dealers :
    CharExceedsU32 ℚ ∧
    (∀ points : List ℚ, evaluateCommitment ℚ ((3 : UInt32).toNat : ℚ) points =
      some (polyEval ((3 : UInt32).toNat : ℚ) points)) ∧
    (∀ d ∈ ([(1, [2, 3]), (2, [4, 5])] : List (UInt32 × List ℚ)),
      calculateLagrangeCoefficients d.1
          (([(1, [2, 3]), (2, [4, 5])] : List (UInt32 × List ℚ)).map Prod.fst) =
        .ok (lagrangeCoefficient d.1
          (([(1, [2, 3]), (2, [4, 5])] : List (UInt32 × List ℚ)).map Prod.fst) : ℚ)) ∧
    IndividualVerifyingKey.generateFromCommitments ℚ 3
        (([(1, [2, 3]), (2, [4, 5])] : List (UInt32 × List ℚ)).map fun d =>
          (⟨d.1, d.2.map (· • (1 : ℚ))⟩ : VerifiableSecretSharingCommitment ℚ)) =
      some (IndividualSigningKey.toPublic (1 : ℚ) ⟨3,
        (([(1, [2, 3]), (2, [4, 5])] : List (UInt32 × List ℚ)).map fun d =>
          lagrangeCoefficient d.1 (([(1, [2, 3]), (2, [4, 5])] : List (UInt32 × List ℚ)).map Prod.fst) *
            polyEval ((3 : UInt32).toNat : ℚ) d.2).sum⟩) :=
  have hchar : CharExceedsU32 ℚ := Or.inl ringChar.eq_zero
  ⟨hchar, generateFromCommitments_eq_toPublic hchar (1 : ℚ) 3 [(1, [2, 3]), (2, [4, 5])]⟩

variable [DecidableEq G]

variable (F) in
/-- `IndividualVerifyingKey::verify`. The points are compared as group
elements. -/
def IndividualVerifyingKey.verify (display : Error → String) (self : IndividualVerifyingKey G)
    (commitments : List (VerifiableSecretSharingCommitment G)) : Option (Except Error Unit) := do
  let term : F := self.index.toNat
  let indexVector := commitments.map (·.index)
  let rhs ← verifyLoop F display term indexVector 0 commitments
  pure <| match rhs with
    | .ok rhs => if self.share = rhs then .ok () else .error .ShareVerificationError
    | .error error => .error error

theorem verify_eq (display : Error → String) (k : IndividualVerifyingKey G)
    (cs : List (VerifiableSecretSharingCommitment G)) :
    IndividualVerifyingKey.verify F display k cs =
      if ∀ c ∈ cs, lagrangeDenominator c.index (cs.map (·.index)) ≠ (0 : F) then
        some (if k.share = combinedEvaluation (k.index.toNat : F) (cs.map (·.index)) cs then .ok ()
          else .error .ShareVerificationError)
      else some (.error (.Custom (display (.Custom "Duplicate shares provided")))) := by
  rw [IndividualVerifyingKey.verify, verifyLoop_eq]
  by_cases h : ∀ c ∈ cs, lagrangeDenominator c.index (cs.map (·.index)) ≠ (0 : F)
  · rw [if_pos h, if_pos h, zero_add]
    rfl
  · rw [if_neg h, if_neg h]
    rfl

/-- Over a field of large characteristic, `verify` accepts a key exactly when its
share is the one `generate_from_commitments` rebuilds, and otherwise reports
`ShareVerificationError`; its custom error is never raised, and neither function
panics. -/
theorem verify_agrees_with_generateFromCommitments (hchar : CharExceedsU32 F)
    (display : Error → String) (k : IndividualVerifyingKey G)
    (cs : List (VerifiableSecretSharingCommitment G)) :
    ∃ g, IndividualVerifyingKey.generateFromCommitments F k.index cs = some g ∧
      IndividualVerifyingKey.verify F display k cs =
        some (if k.share = g.share then .ok () else .error .ShareVerificationError) := by
  have hden : ∀ c ∈ cs, lagrangeDenominator c.index (cs.map (·.index)) ≠ (0 : F) :=
    fun c _ => lagrangeDenominator_ne_zero hchar _ _
  rw [generateFromCommitments_eq, verify_eq, if_pos hden, if_pos hden]
  exact ⟨_, rfl, rfl⟩

theorem verify_agrees_with_generateFromCommitments_pair :
    CharExceedsU32 ℚ ∧
    ∃ g, IndividualVerifyingKey.generateFromCommitments ℚ (3 : UInt32)
        ([⟨1, [1]⟩, ⟨2, [2]⟩] : List (VerifiableSecretSharingCommitment ℚ)) = some g ∧
      IndividualVerifyingKey.verify ℚ (fun _ => "") (⟨3, 0⟩ : IndividualVerifyingKey ℚ)
          [⟨1, [1]⟩, ⟨2, [2]⟩] =
        some (if (0 : ℚ) = g.share then .ok () else .error .ShareVerificationError) :=
  have hchar : CharExceedsU32 ℚ := Or.inl ringChar.eq_zero
  ⟨hchar, verify_agrees_with_generateFromCommitments hchar (fun _ => "")
    (⟨3, 0⟩ : IndividualVerifyingKey ℚ) [⟨1, [1]⟩, ⟨2, [2]⟩]⟩

/-- Reordering the commitments changes neither the rebuilt verifying key nor the
outcome of `verify`, panics and errors included. -/
theorem reconstruction_perm_invariant (display : Error → String)
    {cs cs' : List (VerifiableSecretSharingCommitment G)} (h : cs.Perm cs') (i : UInt32) :
    IndividualVerifyingKey.generateFromCommitments F i cs =
      IndividualVerifyingKey.generateFromCommitments F i cs' ∧
    ∀ k : IndividualVerifyingKey G,
      IndividualVerifyingKey.verify F display k cs = IndividualVerifyingKey.verify F display k cs' := by
  refine ⟨?_, fun k => ?_⟩
  · rw [generateFromCommitments_eq, generateFromCommitments_eq,
      combinedEvaluation_perm _ h]
    simp only [lagrangeDenominators_ne_zero_perm (F := F) (·.index) h]
  · rw [verify_eq, verify_eq, combinedEvaluation_perm _ h]
    simp only [lagrangeDenominators_ne_zero_perm (F := F) (·.index) h]

theorem reconstruction_perm_invariant_swap :
    ([⟨1, [1]⟩, ⟨2, [2]⟩] : List (VerifiableSecretSharingCommitment ℚ)).Perm
      [⟨2, [2]⟩, ⟨1, [1]⟩] ∧
    (IndividualVerifyingKey.generateFromCommitments ℚ 3
        ([⟨1, [1]⟩, ⟨2, [2]⟩] : List (VerifiableSecretSharingCommitment ℚ)) =
      IndividualVerifyingKey.generateFromCommitments ℚ 3 [⟨2, [2]⟩, ⟨1, [1]⟩] ∧
    ∀ k : IndividualVerifyingKey ℚ,
      IndividualVerifyingKey.verify ℚ (fun _ => "") k [⟨1, [1]⟩, ⟨2, [2]⟩] =
        IndividualVerifyingKey.verify ℚ (fun _ => "") k [⟨2, [2]⟩, ⟨1, [1]⟩]) :=
  have h : ([⟨1, [1]⟩, ⟨2, [2]⟩] : List (VerifiableSecretSharingCommitment ℚ)).Perm
      [⟨2, [2]⟩, ⟨1, [1]⟩] := List.Perm.swap _ _ _
  ⟨h, reconstruction_perm_invariant (fun _ => "") h 3⟩

end Reconstruction

/-! ## Wire encodings -/

section Wire

variable {F G : Type} (scalar : Codec F) (point : Codec G)

/-- Modelled from the spec: the encoding of a dealer's commitment, `index` and
then the `Vec` of its points. -/
def VerifiableSecretSharingCommitment.codec : Codec (VerifiableSecretSharingCommitment G) :=
  (Codec.u32.prod (Codec.vec point)).map (fun p => ⟨p.1, p.2⟩) fun c => (c.index, c.points)

/-- The derived encoding of `DiffieHellmanPrivateKey`: its scalar. -/
def DiffieHellmanPrivateKey.codec : Codec (DiffieHellmanPrivateKey F) :=
  scalar.map (⟨·⟩) (·.key)

/-- `DiffieHellmanPrivateKey::to_bytes`. -/
def DiffieHellmanPrivateKey.toBytes (self : DiffieHellmanPrivateKey F) : Except Error (List UInt8) :=
  toBytesWith .SerialisationError (DiffieHellmanPrivateKey.codec scalar) self

/-- `DiffieHellmanPrivateKey::from_bytes`. -/
def DiffieHellmanPrivateKey.fromBytes (bytes : List UInt8) : Except Error (DiffieHellmanPrivateKey F) :=
  fromBytesWith .DeserialisationError (DiffieHellmanPrivateKey.codec scalar) bytes

/-- The derived encoding of `DiffieHellmanPublicKey`: its point; the
`PhantomData` writes nothing. -/
def DiffieHellmanPublicKey.codec : Codec (DiffieHellmanPublicKey G) :=
  point.map (⟨·⟩) (·.key)

/-- `DiffieHellmanPublicKey::to_bytes`. -/
def DiffieHellmanPublicKey.toBytes (self : DiffieHellmanPublicKey G) : Except Error (List UInt8) :=
  toBytesWith .SerialisationError (DiffieHellmanPublicKey.codec point) self

/-- `DiffieHellmanPublicKey::from_bytes`. -/
def DiffieHellmanPublicKey.fromBytes (bytes : List UInt8) : Except Error (DiffieHellmanPublicKey G) :=
  fromBytesWith .DeserialisationError (DiffieHellmanPublicKey.codec point) bytes

/-- The derived encoding of `IndividualVerifyingKey`: `index`, then `share`. -/
def IndividualVerifyingKey.codec : Codec (IndividualVerifyingKey G) :=
  (Codec.u32.prod point).map (fun p => ⟨p.1, p.2⟩) (fun k => (k.index, k.share))

/-- `IndividualVerifyingKey::to_bytes`. -/
def IndividualVerifyingKey.toBytes (self : IndividualVerifyingKey G) : Except Error (List UInt8) :=
  toBytesWith .SerialisationError (IndividualVerifyingKey.codec point) self

/-- `IndividualVerifyingKey::from_bytes`. -/
def IndividualVerifyingKey.fromBytes (bytes : List UInt8) : Except Error (IndividualVerifyingKey G) :=
  fromBytesWith .DeserialisationError (IndividualVerifyingKey.codec point) bytes

/-- The derived encoding of `IndividualSigningKey`: `index`, then `key`. -/
def IndividualSigningKey.codec : Codec (IndividualSigningKey F) :=
  (Codec.u32.prod scalar).map (fun p => ⟨p.1, p.2⟩) (fun k => (k.index, k.key))

/-- `IndividualSigningKey::to_bytes`. -/
def IndividualSigningKey.toBytes (self : IndividualSigningKey F) : Except Error (List UInt8) :=
  toBytesWith .SerialisationError (IndividualSigningKey.codec scalar) self

/-- `IndividualSigningKey::from_bytes`. -/
def IndividualSigningKey.fromBytes (bytes : List UInt8) : Except Error (IndividualSigningKey F) :=
  fromBytesWith .DeserialisationError (IndividualSigningKey.codec scalar) bytes

/-- The derived encoding of `GroupKey`: its point; the `PhantomData` writes
nothing. -/
def GroupKey.codec : Codec (GroupKey G) :=
  point.map (⟨·⟩) (·.key)

/-- `GroupKey::to_bytes`. -/
def GroupKey.toBytes (self : GroupKey G) : Except Error (List UInt8) :=
  toBytesWith .SerialisationError (GroupKey.codec point) self

/-- `GroupKey::from_bytes`. -/
def GroupKey.fromBytes (bytes : List UInt8) : Except Error (GroupKey G) :=
  fromBytesWith .DeserialisationError (GroupKey.codec point) bytes

end Wire

end IceFrost
