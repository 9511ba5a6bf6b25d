import IceFrost.Dkg.Participant

/-!
# Threshold reconstruction and resharing epochs

The dealers of a key generation are built by `new_internal`, and every party
rebuilds the verifying keys from their commitments with
`generate_from_commitments`. Two results carry the single-function facts of
`IceFrost.Keys` and `IceFrost.Dkg.Participant` to the protocol.

* `generateFromCommitments_threshold`: whatever the dealers' secrets, the
  rebuilt verifying keys are the values `p(i) · B` of one polynomial `p` of
  degree below the threshold, so every threshold of them recombines to the same
  point `p(0) · B`, the Lagrange recombination of the dealers' constant terms.
  The key rebuilt for index `0` is that point.
* `reshare_epochs_preserve_secret`: an epoch is one resharing, in which a
  threshold of the current signers deal their keys and each new key is one that
  `verify` accepts against the dealers' commitments. `IsSharing` (the keys are
  the values of one polynomial of degree below the threshold, with the group
  secret at zero) is kept by every epoch (`isSharing_reshareEpoch`), hence along
  every run of epochs (`isSharing_of_reshareRun`), so the group key never
  changes.
-/

namespace IceFrost

open Polynomial

variable {F G Nizk ρ : Type} [Field F] [AddCommGroup G] [Module F G]
variable {B : G} {rand : ρ → F × ρ} {prove : UInt32 → F → G → ρ → Except Error Nizk × ρ}

/-! ## Any threshold of rebuilt keys -/

section Threshold

/-- The commitments of dealers built by `new_internal` with threshold `t` are
those of nonempty coefficient lists of length `t`, under the dealers' indices. -/
theorem exists_coefficients_of_commitments {parameters : ThresholdParameters}
    {cs : List (VerifiableSecretSharingCommitment G)}
    (hcs : ∀ c ∈ cs, ∃ secretKey rng r, Participant.newInternal B rand prove parameters false
      c.index secretKey rng = some r ∧ r.1.commitments = some c) :
    ∃ D : List (UInt32 × List F), cs = D.map (fun d => ⟨d.1, d.2.map (· • B)⟩) ∧
      ∀ d ∈ D, d.2.length = parameters.t.toNat ∧ d.2 ≠ [] := by
  induction cs with
  | nil => exact ⟨[], rfl, by simp⟩
  | cons c cs ih =>
      simp only [List.mem_cons, forall_eq_or_imp] at hcs
      obtain ⟨D, rfl, hD⟩ := ih hcs.2
      obtain ⟨secretKey, rng, r, hr, hc⟩ := hcs.1
      obtain ⟨a, -, ha, -, hcomm, a₀, -, -, ha₀, -⟩ := (newInternal_eq_some hr).2.2.2.2 rfl
      refine ⟨(c.index, a) :: D, ?_, ?_⟩
      · rw [List.map_cons]
        exact congrArg (· :: _) (Option.some.inj (hcomm.symm.trans hc)).symm
      · simp only [List.mem_cons, forall_eq_or_imp]
        exact ⟨⟨ha, List.ne_nil_of_mem (List.mem_of_mem_head? ha₀)⟩, hD⟩

variable [DecidableEq F]

/-- The keys rebuilt from coefficient lists of length `t` are `p(i) · B` for the
polynomial `p = Σ_j λ_j · f_j` of degree below `t`. -/
theorem exists_poly_generateFromCommitments_of_length (hchar : CharExceedsU32 F) {t : Nat}
    {D : List (UInt32 × List F)} (hD : ∀ d ∈ D, d.2.length = t) :
    ∃ p ∈ degreeLT F t,
      (∀ x, p.eval x =
        (D.map fun d => lagrangeCoefficient d.1 (D.map Prod.fst) * polyEval x d.2).sum) ∧
      ∀ i, IndividualVerifyingKey.generateFromCommitments F i
        (D.map fun d => ⟨d.1, d.2.map (· • B)⟩) = some ⟨i, p.eval (i.toNat : F) • B⟩ := by
  obtain ⟨p, hpdeg, hpeval⟩ :=
    exists_mem_degreeLT_sum t (fun d => lagrangeCoefficient d.1 (D.map Prod.fst)) (·.2) D hD
  exact ⟨p, hpdeg, hpeval, fun i => by rw [generateFromCommitments_of_coefficients hchar, hpeval]⟩

/-- Whatever the dealers' secrets, the verifying keys that
`generate_from_commitments` rebuilds from the commitments of dealers built by
`new_internal` with threshold `t` are `Y_i = p(i) · B` for one polynomial `p` of
degree below `t`. So any `t` of them at distinct indices recombine to the same
point `p(0) · B`, which is the Lagrange recombination of the dealers' constant
terms `φ_{j,0}`: the group key. The key rebuilt for index `0` is that point
itself, and nothing in the code rejects the index `0`. -/
theorem generateFromCommitments_threshold (hchar : CharExceedsU32 F)
    (parameters : ThresholdParameters) (cs : List (VerifiableSecretSharingCommitment G))
    (hcs : ∀ c ∈ cs, ∃ secretKey rng r, Participant.newInternal B rand prove parameters false
      c.index secretKey rng = some r ∧ r.1.commitments = some c) :
    ∃ p ∈ degreeLT F parameters.t.toNat,
      (∀ i, IndividualVerifyingKey.generateFromCommitments F i cs =
        some ⟨i, p.eval (i.toNat : F) • B⟩) ∧
      recombine F (cs.map fun c => (c.index, c.points.head?)) = some (p.eval 0 • B) ∧
      ∀ S : List UInt32, S.Nodup → parameters.t.toNat ≤ S.length →
        recombine F (S.map fun i =>
          (i, (IndividualVerifyingKey.generateFromCommitments F i cs).map (·.share))) =
          some (p.eval 0 • B) := by
  obtain ⟨D, rfl, hD⟩ := exists_coefficients_of_commitments hcs
  obtain ⟨p, hpdeg, hpeval, hgen⟩ :=
    exists_poly_generateFromCommitments_of_length (B := B) hchar fun d hd => (hD d hd).1
  refine ⟨p, hpdeg, hgen, ?_, fun S hS hSt => ?_⟩
  · have hheads : (D.map fun d => (⟨d.1, d.2.map (· • B)⟩ :
          VerifiableSecretSharingCommitment G)).map (fun c => (c.index, c.points.head?)) =
        D.map fun d => (d.1, some (polyEval (0 : F) d.2 • B)) := by
      simp only [List.map_map]
      refine List.map_congr_left fun d hd => ?_
      obtain ⟨a₀, as, hd₂⟩ := List.exists_cons_of_ne_nil (hD d hd).2
      simp [hd₂]
    rw [hheads, recombine_map_smul hchar D Prod.fst fun d => polyEval (0 : F) d.2, hpeval]
  · have hdeg : p.degree < S.length := (mem_degreeLT.1 hpdeg).trans_le (by exact_mod_cast hSt)
    simp only [hgen, Option.map_some']
    rw [recombine_map_smul (B := B) hchar S (fun i => i) fun i => p.eval (i.toNat : F),
      List.map_id', sum_lagrangeCoefficient_mul_eval hchar hS hdeg]

/-- Two dealers of threshold two, committing to `4 + x` and `5 + x`. -/
theorem generateFromCommitments_threshold_two_dealers :
    CharExceedsU32 ℚ ∧
    (∀ c ∈ ([⟨1, [(4 : ℚ) • (1 : ℚ), ((1 : ℕ) : ℚ) • (1 : ℚ)]⟩,
        ⟨2, [(5 : ℚ) • (1 : ℚ), ((1 : ℕ) : ℚ) • (1 : ℚ)]⟩] :
          List (VerifiableSecretSharingCommitment ℚ)),
      ∃ secretKey rng r, Participant.newInternal (1 : ℚ) (fun n : ℕ => ((n : ℚ), n + 1))
        (fun _ _ _ r => (Except.ok (), r)) ⟨2, 2⟩ false c.index secretKey rng = some r ∧
        r.1.commitments = some c) ∧
    ∃ p ∈ degreeLT ℚ (⟨2, 2⟩ : ThresholdParameters).t.toNat,
      (∀ i, IndividualVerifyingKey.generateFromCommitments ℚ i
          [⟨1, [(4 : ℚ) • (1 : ℚ), ((1 : ℕ) : ℚ) • (1 : ℚ)]⟩,
            ⟨2, [(5 : ℚ) • (1 : ℚ), ((1 : ℕ) : ℚ) • (1 : ℚ)]⟩] =
        some ⟨i, p.eval (i.toNat : ℚ) • (1 : ℚ)⟩) ∧
      recombine ℚ (([⟨1, [(4 : ℚ) • (1 : ℚ), ((1 : ℕ) : ℚ) • (1 : ℚ)]⟩,
          ⟨2, [(5 : ℚ) • (1 : ℚ), ((1 : ℕ) : ℚ) • (1 : ℚ)]⟩] :
            List (VerifiableSecretSharingCommitment ℚ)).map
        fun c => (c.index, c.points.head?)) = some (p.eval 0 • (1 : ℚ)) ∧
      ∀ S : List UInt32, S.Nodup → (⟨2, 2⟩ : ThresholdParameters).t.toNat ≤ S.length →
        recombine ℚ (S.map fun i => (i, (IndividualVerifyingKey.generateFromCommitments ℚ i
          [⟨1, [(4 : ℚ) • (1 : ℚ), ((1 : ℕ) : ℚ) • (1 : ℚ)]⟩,
            ⟨2, [(5 : ℚ) • (1 : ℚ), ((1 : ℕ) : ℚ) • (1 : ℚ)]⟩]).map (·.share))) =
          some (p.eval 0 • (1 : ℚ)) :=
  have hchar : CharExceedsU32 ℚ := Or.inl ringChar.eq_zero
  have hcs : ∀ c ∈ ([⟨1, [(4 : ℚ) • (1 : ℚ), ((1 : ℕ) : ℚ) • (1 : ℚ)]⟩,
        ⟨2, [(5 : ℚ) • (1 : ℚ), ((1 : ℕ) : ℚ) • (1 : ℚ)]⟩] :
          List (VerifiableSecretSharingCommitment ℚ)),
      ∃ secretKey rng r, Participant.newInternal (1 : ℚ) (fun n : ℕ => ((n : ℚ), n + 1))
        (fun _ _ _ r => (Except.ok (), r)) ⟨2, 2⟩ false c.index secretKey rng = some r ∧
        r.1.commitments = some c := by
    simp only [List.mem_cons, List.mem_singleton, List.not_mem_nil, or_false]
    rintro c (rfl | rfl)
    · exact ⟨some 4, 0, _, rfl, rfl⟩
    · exact ⟨some 5, 0, _, rfl, rfl⟩
  ⟨hchar, hcs, generateFromCommitments_threshold hchar ⟨2, 2⟩ _ hcs⟩

end Threshold

/-! ## Resharing epochs -/

section Epochs

/-- The keys share `secret` with threshold `t`: they are the values at their
indices of one polynomial of degree below `t` whose value at zero is `secret`. -/
def IsSharing (t : Nat) (secret : F) (keys : List (IndividualSigningKey F)) : Prop :=
  ∃ P : F[X], P.degree < t ∧ P.eval 0 = secret ∧ ∀ k ∈ keys, k.key = P.eval (k.index.toNat : F)

variable [DecidableEq F]

/-- The public halves of any `t` keys of a sharing, at distinct indices,
recombine to the group key `secret · B`. -/
theorem recombine_toPublic_of_isSharing (hchar : CharExceedsU32 F) {t : Nat} {s : F}
    {keys : List (IndividualSigningKey F)} (hs : IsSharing t s keys)
    {S : List (IndividualSigningKey F)} (hS : S ⊆ keys) (hnodup : (S.map (·.index)).Nodup)
    (hlen : t ≤ S.length) :
    recombine F (S.map fun k => (k.index, some (k.toPublic B).share)) = some (s • B) := by
  obtain ⟨P, hPdeg, hP0, hPkeys⟩ := hs
  simp only [IndividualSigningKey.toPublic]
  rw [recombine_map_smul hchar S (·.index) (·.key), ← hP0,
    ← sum_lagrangeCoefficient_mul_eval hchar hnodup (hPdeg.trans_le (by simpa using hlen)),
    List.map_map]
  exact congrArg (fun x => some (List.sum x • B))
    (List.map_congr_left fun k hk => by simp [hPkeys k (hS hk)])

variable [DecidableEq G]

variable (B rand prove) in
/-- One resharing epoch, from the keys `keys` of threshold `t` to the keys
`keys'` of threshold `t'`. Old signers of distinct indices, at least `t` of
them, reshare their keys as dealers built by `new_internal` with the new
parameters, and each new key is one whose public half `verify` accepts against
the dealers' commitments: the check that a new key is the one the commitments
determine. -/
inductive ReshareEpoch (display : Error → String) :
    Nat × List (IndividualSigningKey F) → Nat × List (IndividualSigningKey F) → Prop
  | mk {t : Nat} {keys keys' : List (IndividualSigningKey F)} (parameters : ThresholdParameters)
      (olds : List (IndividualSigningKey F)) (cs : List (VerifiableSecretSharingCommitment G))
      (subset : olds ⊆ keys) (nodup : (olds.map (·.index)).Nodup) (enough : t ≤ olds.length)
      (dealers : List.Forall₂ (fun k c => ∃ rng r, Participant.newInternal B rand prove parameters
        false k.index (some k.key) rng = some r ∧ r.1.commitments = some c) olds cs)
      (accepted : ∀ k ∈ keys', IndividualVerifyingKey.verify F display (k.toPublic B) cs =
        some (.ok ())) :
      ReshareEpoch display (t, keys) (parameters.t.toNat, keys')

/-- The step lemma: an epoch keeps the keys a sharing of the same secret, with
the new threshold. -/
theorem isSharing_reshareEpoch (hchar : CharExceedsU32 F) (hB : B ≠ 0) {display : Error → String}
    {s : F} {e e' : Nat × List (IndividualSigningKey F)} (hs : IsSharing e.1 s e.2)
    (he : ReshareEpoch B rand prove display e e') : IsSharing e'.1 s e'.2 := by
  obtain ⟨parameters, olds, cs, hsub, hnodup, henough, hdealers, haccepted⟩ := he
  obtain ⟨P, hPdeg, hP0, hPkeys⟩ := hs
  obtain ⟨KD, rfl, rfl, hKD⟩ := exists_coefficients_of_dealers hdealers
  obtain ⟨p, hpdeg, hp0, hgen⟩ := exists_poly_generateFromCommitments (B := B) hchar hKD
  have hsum := sum_lagrangeCoefficient_mul_key hchar (by simpa [Function.comp_def] using hnodup)
    (hPdeg.trans_le (by simpa using henough)) fun q hq => hPkeys q.1 (hsub (List.mem_map_of_mem _ hq))
  refine ⟨p, mem_degreeLT.1 hpdeg, hp0.trans (hsum.trans hP0), fun k hk => ?_⟩
  have hden : ∀ c ∈ KD.map (fun q => (⟨q.1.index, q.2.map (· • B)⟩ :
      VerifiableSecretSharingCommitment G)), lagrangeDenominator c.index
        ((KD.map fun q => (⟨q.1.index, q.2.map (· • B)⟩ : VerifiableSecretSharingCommitment G)).map
          (·.index)) ≠ (0 : F) :=
    fun c _ => lagrangeDenominator_ne_zero hchar _ _
  have hcomb := hgen k.index
  rw [generateFromCommitments_eq, if_pos hden, Option.map_some', Option.some_inj] at hcomb
  have hv := haccepted k hk
  rw [verify_eq, if_pos hden] at hv
  split_ifs at hv with hshare
  · exact smul_left_injective F hB (hshare.trans hcomb)
  · cases hv

/-- The run lemma: every run of epochs keeps the keys a sharing of the same
secret. -/
theorem isSharing_of_reshareRun (hchar : CharExceedsU32 F) (hB : B ≠ 0)
    {display : Error → String} {s : F} {e e' : Nat × List (IndividualSigningKey F)}
    (hs : IsSharing e.1 s e.2) (hrun : Relation.ReflTransGen (ReshareEpoch B rand prove display) e e') :
    IsSharing e'.1 s e'.2 := by
  induction hrun with
  | refl => exact hs
  | tail _ hstep ih => exact isSharing_reshareEpoch hchar hB ih hstep

/-- Resharing keeps the group secret over any number of epochs. Start from keys
that share `s` with threshold `t` and run any sequence of resharing epochs: the
keys at the end share `s` with the threshold of the last epoch, and the public
halves of any threshold of them at distinct indices recombine to the group key
`s · B`. -/
theorem reshare_epochs_preserve_secret (hchar : CharExceedsU32 F) (hB : B ≠ 0)
    (display : Error → String) {t t' : Nat} {s : F} {keys keys' : List (IndividualSigningKey F)}
    (hs : IsSharing t s keys)
    (hrun : Relation.ReflTransGen (ReshareEpoch B rand prove display) (t, keys) (t', keys')) :
    IsSharing t' s keys' ∧ ∀ S ⊆ keys', (S.map (·.index)).Nodup → t' ≤ S.length →
      recombine F (S.map fun k => (k.index, some (k.toPublic B).share)) = some (s • B) :=
  have h := isSharing_of_reshareRun hchar hB hs hrun
  ⟨h, fun _ hS hnodup hlen => recombine_toPublic_of_isSharing hchar h hS hnodup hlen⟩

/-- One epoch at threshold two: the keys `4` and `5` of `X + 3` at `1` and `2`
are reshared as `4 + x` and `5 + x`, and the new keys `6` and `7` at `3` and `4`
are those of `X + 3` again. -/
theorem reshare_epochs_preserve_secret_two_dealers :
    CharExceedsU32 ℚ ∧ (1 : ℚ) ≠ 0 ∧
    IsSharing 2 (3 : ℚ) ([⟨1, 4⟩, ⟨2, 5⟩] : List (IndividualSigningKey ℚ)) ∧
    Relation.ReflTransGen (ReshareEpoch (1 : ℚ) (fun n : ℕ => ((n : ℚ), n + 1))
      (fun _ _ _ r => (Except.ok (), r)) fun _ => "")
      (2, ([⟨1, 4⟩, ⟨2, 5⟩] : List (IndividualSigningKey ℚ)))
      (2, ([⟨3, 6⟩, ⟨4, 7⟩] : List (IndividualSigningKey ℚ))) ∧
    (IsSharing 2 (3 : ℚ) ([⟨3, 6⟩, ⟨4, 7⟩] : List (IndividualSigningKey ℚ)) ∧
      ∀ S ⊆ ([⟨3, 6⟩, ⟨4, 7⟩] : List (IndividualSigningKey ℚ)),
      (S.map (·.index)).Nodup → 2 ≤ S.length →
      recombine ℚ (S.map fun k => (k.index, some (k.toPublic (1 : ℚ)).share)) =
        some ((3 : ℚ) • (1 : ℚ))) :=
  have hchar : CharExceedsU32 ℚ := Or.inl ringChar.eq_zero
  have hs : IsSharing 2 (3 : ℚ) ([⟨1, 4⟩, ⟨2, 5⟩] : List (IndividualSigningKey ℚ)) := by
    refine ⟨X + C 3, by rw [degree_X_add_C]; decide, by simp, ?_⟩
    norm_num
  have hrun : Relation.ReflTransGen (ReshareEpoch (1 : ℚ) (fun n : ℕ => ((n : ℚ), n + 1))
      (fun _ _ _ r => (Except.ok (), r)) fun _ => "")
      (2, ([⟨1, 4⟩, ⟨2, 5⟩] : List (IndividualSigningKey ℚ)))
      (2, ([⟨3, 6⟩, ⟨4, 7⟩] : List (IndividualSigningKey ℚ))) :=
    .single <| .mk ⟨2, 2⟩ [⟨1, 4⟩, ⟨2, 5⟩]
      [⟨1, [(4 : ℚ) • (1 : ℚ), ((1 : ℕ) : ℚ) • (1 : ℚ)]⟩,
        ⟨2, [(5 : ℚ) • (1 : ℚ), ((1 : ℕ) : ℚ) • (1 : ℚ)]⟩] (fun _ h => h) (by decide) le_rfl
      (.cons ⟨0, _, rfl, rfl⟩ (.cons ⟨0, _, rfl, rfl⟩ .nil)) (by
        simp only [List.mem_cons, List.mem_singleton, List.not_mem_nil, or_false]
        rintro k (rfl | rfl) <;>
        · rw [verify_eq, if_pos fun _ _ => lagrangeDenominator_ne_zero hchar _ _]
          simp [IndividualSigningKey.toPublic, lagrangeCoefficient, combinedEvaluation, List.filter]
          norm_num)
  ⟨hchar, one_ne_zero, hs, hrun,
    reshare_epochs_preserve_secret hchar one_ne_zero (fun _ => "") hs hrun⟩

end Epochs

end IceFrost
