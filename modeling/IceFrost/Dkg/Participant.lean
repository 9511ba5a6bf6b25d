import IceFrost.Keys

/-!
# Participants of the key generation

`newInternal` is the constructor behind `new_dealer`, `new_signer` and
`reshare`. It draws the Diffie-Hellman key, proves knowledge of it and, for a
dealer, draws the polynomial `(a₀, …, a_{t-1})` (with `a₀` the given secret key
when there is one), commits to it as `φ_k = a_k · B` and proves knowledge of
`a₀`. Randomness is a state `ρ` with a draw `rand`; the proof of knowledge and
the round-one step of the key generation are defined outside the modelled files
and come as parameters. Every `unwrap` and every index that can panic is an
`Option`. The Schnorr proof of knowledge is also modelled from the spec, with
the challenge hash as a parameter, and it never fails.

`newInternal_eq_some` says everything a call that does not panic returns, and
`newInternal_isSome` that it does not panic when the proofs never fail and a
dealer has a threshold of at least one. With the Schnorr proofs,
`newInternal_spec` describes dealers and signers, and `newInternal_proofs_verify`
says that their proofs verify. `newInternal_eq_draws` gives the whole result as
a function of the random stream, which shows that no draw serves twice, and
`reshare_dealer_toPublic` that a resharing dealer stands for the verifying key
of the key it reshares. The main result is the correctness of resharing: if
every old signer reshares its key `s_j = P(j)`, the new verifying keys
recombine at zero to the old group key `P(0) · B`. Participants are compared by
index alone.
-/

namespace IceFrost

open Polynomial

/-- A participant in a threshold signing. `Nizk` is the type of the proofs of
knowledge of a secret key. -/
structure Participant (G Nizk : Type) where
  index : UInt32
  dhPublicKey : DiffieHellmanPublicKey G
  commitments : Option (VerifiableSecretSharingCommitment G)
  proofOfSecretKey : Option Nizk
  proofOfDhPrivateKey : Nizk
  deriving DecidableEq, Repr

section Draws

variable {F ρ : Type} (rand : ρ → F × ρ)

/-- The dealer's coefficients: `a₀` is the secret key when one is given and a
fresh draw otherwise, followed by the `t - 1` draws of the loop. -/
def drawCoefficients (t : Nat) (secretKey : Option F) (rng : ρ) : List F × ρ :=
  let (a₀, rng) := match secretKey with
    | some sk => (sk, rng)
    | none => rand rng
  let (rest, rng) := drawScalars rand (t - 1) rng
  (a₀ :: rest, rng)

theorem length_drawCoefficients (t : Nat) (secretKey : Option F) (rng : ρ) :
    (drawCoefficients rand t secretKey rng).1.length = t - 1 + 1 := by
  simp [drawCoefficients, length_drawScalars]

theorem drawCoefficients_head (t : Nat) (sk : F) (rng : ρ) :
    (drawCoefficients rand t (some sk) rng).1.head? = some sk := rfl

end Draws

/-- The commitment loop `for j in 0..t { points.push(B * coefficients[j]) }` reads
each of the `t` coefficients once. -/
theorem mapM_range'_getElem? {α β : Type} (f : α → β) (l : List α) (s : Nat)
    (g : Nat → Option β) (hg : ∀ j, g (s + j) = l[j]?.map f) :
    (List.range' s l.length).mapM g = some (l.map f) := by
  induction l generalizing s g with
  | nil => rfl
  | cons a l ih =>
      have h0 : g s = some (f a) := by simpa using hg 0
      have hs : ∀ j, g (s + 1 + j) = l[j]?.map f := fun j => by
        rw [Nat.add_assoc, Nat.add_comm 1 j, hg (j + 1), List.getElem?_cons_succ]
      rw [List.length_cons, List.range'_succ, List.mapM_cons, h0, ih (s + 1) g hs]
      rfl

theorem mapM_range_getElem? {α β : Type} (f : α → β) (l : List α) {n : Nat} (hn : l.length = n) :
    (List.range n).mapM (fun j => l[j]?.map f) = some (l.map f) := by
  subst hn
  rw [List.range_eq_range']
  exact mapM_range'_getElem? f l 0 _ fun j => by rw [Nat.zero_add]

/-! ## Proofs of knowledge -/

/-- Modelled from the spec: `NizkPokOfSecretKey`, a Schnorr proof of knowledge of
a discrete log, the commitment `R = k · B` and the response `z = k + c · secret`. -/
structure NizkPokOfSecretKey (F G : Type) where
  commitment : G
  response : F
  deriving DecidableEq, Repr

section Nizk

variable {F G ρ : Type} [Field F] [AddCommGroup G] [Module F G]
variable (B : G) (rand : ρ → F × ρ) (H : UInt32 → G → G → F)

/-- Modelled from the spec: `NizkPokOfSecretKey::prove`. The nonce `k` is drawn
from the caller's random source, and `H index publicKey R` is the challenge
`c = H(ctx, index ∥ publicKey ∥ R)` for the fixed context string. -/
def NizkPokOfSecretKey.prove (index : UInt32) (secret : F) (publicKey : G) (rng : ρ) :
    Except Error (NizkPokOfSecretKey F G) × ρ :=
  let (k, rng) := rand rng
  let commitment := k • B
  (.ok ⟨commitment, k + H index publicKey commitment * secret⟩, rng)

/-- Modelled from the spec: `NizkPokOfSecretKey::verify` recomputes the challenge
and checks `z · B = R + c · publicKey`. -/
def NizkPokOfSecretKey.verify [DecidableEq G] (index : UInt32) (publicKey : G)
    (self : NizkPokOfSecretKey F G) : Bool :=
  self.response • B = self.commitment + H index publicKey self.commitment • publicKey

/-- Proving never fails. -/
theorem NizkPokOfSecretKey.prove_ok (index : UInt32) (secret : F) (publicKey : G) (rng : ρ) :
    ∃ π, (NizkPokOfSecretKey.prove B rand H index secret publicKey rng).1 = .ok π :=
  ⟨_, rfl⟩

/-- Completeness, for every challenge function: a proof made with the secret of
`secret · B` verifies against it. -/
theorem NizkPokOfSecretKey.verify_prove [DecidableEq G] {index : UInt32} {secret : F} {rng : ρ}
    {π : NizkPokOfSecretKey F G}
    (h : (NizkPokOfSecretKey.prove B rand H index secret (secret • B) rng).1 = .ok π) :
    π.verify B H index (secret • B) = true := by
  cases h
  simp [NizkPokOfSecretKey.verify, add_smul, mul_smul]

end Nizk

section Construction

variable {F G Nizk ρ : Type} [Field F] [AddCommGroup G] [Module F G]
variable (B : G) (rand : ρ → F × ρ) (prove : UInt32 → F → G → ρ → Except Error Nizk × ρ)

/-- `Participant::new_internal`. The random source is threaded through and
returned, as the caller's `&mut rng` is advanced. -/
def Participant.newInternal (parameters : ThresholdParameters) (isSigner : Bool) (index : UInt32)
    (secretKey : Option F) (rng : ρ) :
    Option (Participant G Nizk × Option (Coefficients F) × DiffieHellmanPrivateKey F × ρ) := do
  let t := parameters.t.toNat
  let (dh, rng) := rand rng
  let dhPrivateKey : DiffieHellmanPrivateKey F := ⟨dh⟩
  let dhPublicKey : DiffieHellmanPublicKey G := ⟨dhPrivateKey.key • B⟩
  let (proof, rng) := prove index dhPrivateKey.key dhPublicKey.key rng
  let proofOfDhPrivateKey ← proof.toOption
  if isSigner then
    pure (⟨index, dhPublicKey, none, none, proofOfDhPrivateKey⟩, none, dhPrivateKey, rng)
  else
    let (coefficients, rng) := drawCoefficients rand t secretKey rng
    let coefficients : Coefficients F := ⟨coefficients⟩
    let points ← (List.range t).mapM fun j => coefficients.coefficients[j]?.map (· • B)
    let commitments : VerifiableSecretSharingCommitment G := ⟨index, points⟩
    let publicKey ← commitments.publicKey
    let secret ← coefficients.coefficients[0]?
    let (proof, rng) := prove index secret publicKey rng
    let proofOfSecretKey ← proof.toOption
    pure (⟨index, dhPublicKey, some commitments, some proofOfSecretKey, proofOfDhPrivateKey⟩,
      some coefficients, dhPrivateKey, rng)

/-- `Participant::new_dealer`: the coefficients are unwrapped. -/
def Participant.newDealer (parameters : ThresholdParameters) (index : UInt32) (rng : ρ) :
    Option (Participant G Nizk × Coefficients F × DiffieHellmanPrivateKey F) := do
  let (dealer, coeffOption, dhPrivateKey, _) ←
    Participant.newInternal B rand prove parameters false index none rng
  let coefficients ← coeffOption
  pure (dealer, coefficients, dhPrivateKey)

/-- `Participant::new_signer`. -/
def Participant.newSigner (parameters : ThresholdParameters) (index : UInt32) (rng : ρ) :
    Option (Participant G Nizk × DiffieHellmanPrivateKey F) := do
  let (signer, _, dhPrivateKey, _) ←
    Participant.newInternal B rand prove parameters true index none rng
  pure (signer, dhPrivateKey)

section Reshare

variable {RoundOne EncryptedSecretShare DKGParticipantList : Type}
variable (newStateInternal : ThresholdParameters → DiffieHellmanPrivateKey F → UInt32 →
  Option (Coefficients F) → List (Participant G Nizk) → Bool → Bool → ρ →
  Except Error (RoundOne × DKGParticipantList) × ρ)
variable (theirEncryptedSecretShares : RoundOne → Option (List EncryptedSecretShare))

/-- `Participant::reshare`: a dealer whose constant term is the old signing key,
then round one of the key generation toward the new signers.
`DistributedKeyGeneration::new_state_internal` and
`their_encrypted_secret_shares` are defined outside the modelled files. -/
def Participant.reshare (parameters : ThresholdParameters) (secretKey : IndividualSigningKey F)
    (signers : List (Participant G Nizk)) (rng : ρ) :
    Option (Except Error (Participant G Nizk × List EncryptedSecretShare × DKGParticipantList)) := do
  let (dealer, coeffOption, dhPrivateKey, rng) ←
    Participant.newInternal B rand prove parameters false secretKey.index (some secretKey.key) rng
  let coefficients ← coeffOption
  match (newStateInternal parameters dhPrivateKey secretKey.index (some coefficients) signers
      true false rng).1 with
  | .error error => pure (.error error)
  | .ok (participantState, participantLists) => do
      let encryptedShares ← theirEncryptedSecretShares participantState
      pure (.ok (dealer, encryptedShares, participantLists))

/-- The dealer `reshare` returns is the one `new_internal` builds from the old
signing key. -/
theorem reshare_dealer {parameters : ThresholdParameters} {secretKey : IndividualSigningKey F}
    {signers : List (Participant G Nizk)} {rng : ρ} {dealer : Participant G Nizk}
    {shares : List EncryptedSecretShare} {lists : DKGParticipantList}
    (h : Participant.reshare B rand prove newStateInternal theirEncryptedSecretShares parameters
      secretKey signers rng = some (.ok (dealer, shares, lists))) :
    ∃ r, Participant.newInternal B rand prove parameters false secretKey.index (some secretKey.key)
      rng = some r ∧ r.1 = dealer := by
  obtain ⟨r, hr, h⟩ := Option.bind_eq_some.1 h
  obtain ⟨coefficients, -, h⟩ := Option.bind_eq_some.1 h
  refine ⟨r, hr, ?_⟩
  split at h
  · cases h
  · obtain ⟨_, -, h⟩ := Option.bind_eq_some.1 h
    cases h
    rfl

/-- Past `new_internal`, `reshare` is round one of the key generation: the
unwrap of the dealer's coefficients cannot panic once they are there. -/
theorem reshare_eq {parameters : ThresholdParameters} {secretKey : IndividualSigningKey F}
    {signers : List (Participant G Nizk)} {rng : ρ}
    {r : Participant G Nizk × Option (Coefficients F) × DiffieHellmanPrivateKey F × ρ}
    {coefficients : Coefficients F}
    (h : Participant.newInternal B rand prove parameters false secretKey.index (some secretKey.key)
      rng = some r) (hc : r.2.1 = some coefficients) :
    Participant.reshare B rand prove newStateInternal theirEncryptedSecretShares parameters
        secretKey signers rng =
      match (newStateInternal parameters r.2.2.1 secretKey.index (some coefficients) signers true
          false r.2.2.2).1 with
      | .error error => some (.error error)
      | .ok (state, lists) => (theirEncryptedSecretShares state).map fun shares =>
          .ok (r.1, shares, lists) := by
  obtain ⟨dealer, coeffOption, dh, rng'⟩ := r
  cases hc
  simp only [Participant.reshare, h, Option.bind_eq_bind, Option.some_bind]
  split <;> simp [Option.bind_eq_bind, Option.map_eq_bind]

end Reshare

/-- `Participant::public_key`: `φ₀` of the commitments, if there are any. -/
def Participant.publicKey (self : Participant G Nizk) : Option G :=
  match self.commitments with
  | some commitments => commitments.publicKey
  | none => none

variable {B rand prove}

/-- What a call of `new_internal` that does not panic returns: the index, the
Diffie-Hellman key pair and the proof of knowledge of its private half; for a
signer no coefficients, commitments or second proof; for a dealer `t`
coefficients headed by the secret key when one is given, their commitments, and
a proof of knowledge of the first of them. -/
theorem newInternal_eq_some {parameters : ThresholdParameters} {isSigner : Bool}
    {index : UInt32} {secretKey : Option F} {rng : ρ}
    {r : Participant G Nizk × Option (Coefficients F) × DiffieHellmanPrivateKey F × ρ}
    (h : Participant.newInternal B rand prove parameters isSigner index secretKey rng = some r) :
    r.1.index = index ∧ r.1.dhPublicKey.key = r.2.2.1.key • B ∧
    (∃ rng', (prove index r.2.2.1.key (r.2.2.1.key • B) rng').1 = .ok r.1.proofOfDhPrivateKey) ∧
    (isSigner = true → r.2.1 = none ∧ r.1.commitments = none ∧ r.1.proofOfSecretKey = none) ∧
    (isSigner = false → ∃ a : List F, r.2.1 = some ⟨a⟩ ∧ a.length = parameters.t.toNat ∧
      (∀ sk, secretKey = some sk → a.head? = some sk) ∧
      r.1.commitments = some ⟨index, a.map (· • B)⟩ ∧
      ∃ a₀ π rng', a.head? = some a₀ ∧ r.1.proofOfSecretKey = some π ∧
        (prove index a₀ (a₀ • B) rng').1 = .ok π) := by
  unfold Participant.newInternal at h
  obtain ⟨π₁, hπ₁, h⟩ := Option.bind_eq_some.1 h
  have hdh := except_toOption_eq_some.1 hπ₁
  cases isSigner with
  | true =>
      cases h
      exact ⟨rfl, rfl, ⟨_, hdh⟩, fun _ => ⟨rfl, rfl, rfl⟩, nofun⟩
  | false =>
      simp only [Bool.false_eq_true, ↓reduceIte] at h
      obtain ⟨points, hpoints, h⟩ := Option.bind_eq_some.1 h
      obtain ⟨publicKey, hpublicKey, h⟩ := Option.bind_eq_some.1 h
      obtain ⟨secret, hsecret, h⟩ := Option.bind_eq_some.1 h
      obtain ⟨π₂, hπ₂, h⟩ := Option.bind_eq_some.1 h
      cases h
      refine ⟨rfl, rfl, ⟨_, hdh⟩, nofun, fun _ => ?_⟩
      rcases Nat.eq_zero_or_pos parameters.t.toNat with ht | ht
      · obtain rfl : points = [] := by
          rw [ht, List.range_zero, List.mapM_nil] at hpoints
          exact (Option.some.inj hpoints).symm
        simp [VerifiableSecretSharingCommitment.publicKey] at hpublicKey
      · have hlen : ∀ rng', (drawCoefficients rand parameters.t.toNat secretKey rng').1.length =
            parameters.t.toNat := fun _ => (length_drawCoefficients rand _ _ _).trans (by omega)
        rw [mapM_range_getElem? _ _ (hlen _)] at hpoints
        cases hpoints
        rw [← List.head?_eq_getElem?] at hsecret
        simp only [VerifiableSecretSharingCommitment.publicKey, List.head?_map, hsecret,
          Option.map_some', Option.some.injEq] at hpublicKey
        subst hpublicKey
        refine ⟨_, rfl, hlen _, fun sk hsk => ?_, rfl, secret, π₂, _, hsecret, rfl,
          except_toOption_eq_some.1 hπ₂⟩
        subst hsk
        exact drawCoefficients_head rand _ sk _

/-- A dealer built by `new_internal` commits to `t` coefficients, the first of
which is the given secret key, and the commitment carries its own index. -/
theorem newInternal_dealer {parameters : ThresholdParameters} {index : UInt32}
    {secretKey : Option F} {rng : ρ}
    {r : Participant G Nizk × Option (Coefficients F) × DiffieHellmanPrivateKey F × ρ}
    (h : Participant.newInternal B rand prove parameters false index secretKey rng = some r) :
    ∃ a : List F, r.2.1 = some ⟨a⟩ ∧ a.length = parameters.t.toNat ∧
      (∀ sk, secretKey = some sk → a.head? = some sk) ∧
      r.1.commitments = some ⟨index, a.map (· • B)⟩ := by
  obtain ⟨a, hc, hlen, hhead, hcomm, -⟩ := (newInternal_eq_some h).2.2.2.2 rfl
  exact ⟨a, hc, hlen, hhead, hcomm⟩

/-- `new_internal` never panics when the proof of knowledge never fails, and a
dealer has at least one coefficient. -/
theorem newInternal_isSome (hprove : ∀ i s P r, ∃ π, (prove i s P r).1 = .ok π)
    {parameters : ThresholdParameters} {isSigner : Bool} {index : UInt32}
    {secretKey : Option F} {rng : ρ} (ht : isSigner = false → 1 ≤ parameters.t.toNat) :
    ∃ r, Participant.newInternal B rand prove parameters isSigner index secretKey rng = some r := by
  rw [← Option.isSome_iff_exists]
  rcases hr : rand rng with ⟨dh, rng₁⟩
  rcases hp₁ : prove index dh (dh • B) rng₁ with ⟨proof₁, rng₂⟩
  obtain ⟨π₁, rfl⟩ : ∃ π, proof₁ = .ok π := by simpa [hp₁] using hprove index dh (dh • B) rng₁
  cases isSigner with
  | true =>
      simp only [Participant.newInternal, Except.toOption, hr, hp₁, ↓reduceIte, Option.pure_def,
        Option.bind_eq_bind, Option.some_bind, Option.isSome_some]
  | false =>
      rcases hd : drawCoefficients rand parameters.t.toNat secretKey rng₂ with ⟨coeffs, rng₃⟩
      have hlen : coeffs.length = parameters.t.toNat := by
        have := length_drawCoefficients rand parameters.t.toNat secretKey rng₂
        rw [hd] at this
        exact this.trans (Nat.sub_add_cancel (ht rfl))
      obtain ⟨a₀, as, rfl⟩ : ∃ a₀ as, coeffs = a₀ :: as := by
        cases coeffs with
        | nil => exact absurd hlen (by have := ht rfl; simp; omega)
        | cons a₀ as => exact ⟨_, _, rfl⟩
      rcases hp₂ : prove index a₀ (a₀ • B) rng₃ with ⟨proof₂, rng₄⟩
      obtain ⟨π₂, rfl⟩ : ∃ π, proof₂ = .ok π := by simpa [hp₂] using hprove index a₀ (a₀ • B) rng₃
      simp only [Participant.newInternal, hr, hp₁, hd, Bool.false_eq_true, ↓reduceIte]
      rw [mapM_range_getElem? _ _ hlen]
      simp only [Except.toOption, List.map_cons, VerifiableSecretSharingCommitment.publicKey,
        List.head?_cons, List.getElem?_cons_zero, Option.pure_def, Option.bind_eq_bind,
        Option.some_bind, hp₂, Option.isSome_some]

end Construction

/-! ## Dealers and signers -/

section Roles

variable {F G ρ : Type} [Field F] [AddCommGroup G] [Module F G]
variable (B : G) (rand : ρ → F × ρ) (H : UInt32 → G → G → F)
variable {RoundOne EncryptedSecretShare DKGParticipantList : Type}
variable (newStateInternal : ThresholdParameters → DiffieHellmanPrivateKey F → UInt32 →
  Option (Coefficients F) → List (Participant G (NizkPokOfSecretKey F G)) → Bool → Bool → ρ →
  Except Error (RoundOne × DKGParticipantList) × ρ)
variable (theirEncryptedSecretShares : RoundOne → Option (List EncryptedSecretShare))

/-- With its Schnorr proofs of knowledge, `new_internal` never panics for a
threshold `t ≥ 1`, whatever the random stream. A dealer gets `t` coefficients,
headed by the secret key when one is given, a commitment of its own index to
them, a proof of knowledge of the first, and `dh_public_key = dh_private_key · B`;
so the unwraps of `new_dealer` and of the coefficients in `reshare` never panic.
A signer gets no coefficients, no commitment and no proof, and no public key. -/
theorem newInternal_spec (parameters : ThresholdParameters) (ht : 1 ≤ parameters.t.toNat)
    (index : UInt32) (secretKey : Option F) (rng : ρ) :
    (∃ p a dh rng', Participant.newInternal B rand (NizkPokOfSecretKey.prove B rand H) parameters
        false index secretKey rng = some (p, some ⟨a⟩, dh, rng') ∧
      a.length = parameters.t.toNat ∧ (∀ sk, secretKey = some sk → a.head? = some sk) ∧
      p.commitments = some ⟨index, a.map (· • B)⟩ ∧ p.proofOfSecretKey.isSome ∧
      p.dhPublicKey.key = dh.key • B) ∧
    (∃ d, Participant.newDealer B rand (NizkPokOfSecretKey.prove B rand H) parameters index rng =
      some d) ∧
    (∀ (sk : IndividualSigningKey F) (signers : List (Participant G (NizkPokOfSecretKey F G))),
      ∃ p coefficients dh rng', Participant.newInternal B rand (NizkPokOfSecretKey.prove B rand H)
          parameters false sk.index (some sk.key) rng = some (p, some coefficients, dh, rng') ∧
        Participant.reshare B rand (NizkPokOfSecretKey.prove B rand H) newStateInternal
            theirEncryptedSecretShares parameters sk signers rng =
          match (newStateInternal parameters dh sk.index (some coefficients) signers true false
              rng').1 with
          | .error error => some (.error error)
          | .ok (state, lists) => (theirEncryptedSecretShares state).map fun shares =>
              .ok (p, shares, lists)) ∧
    (∃ p dh rng', Participant.newInternal B rand (NizkPokOfSecretKey.prove B rand H) parameters
        true index secretKey rng = some (p, none, dh, rng') ∧
      p.commitments = none ∧ p.proofOfSecretKey = none ∧ p.publicKey = none) := by
  have hprove := NizkPokOfSecretKey.prove_ok B rand H
  have hdealer : ∀ (i : UInt32) (s : Option F), ∃ p a dh rng',
      Participant.newInternal B rand (NizkPokOfSecretKey.prove B rand H) parameters false i s rng =
        some (p, some ⟨a⟩, dh, rng') ∧
      a.length = parameters.t.toNat ∧ (∀ sk, s = some sk → a.head? = some sk) ∧
      p.commitments = some ⟨i, a.map (· • B)⟩ ∧ p.proofOfSecretKey.isSome ∧
      p.dhPublicKey.key = dh.key • B := fun i s => by
    obtain ⟨⟨p, c, dh, rng'⟩, hr⟩ : ∃ r, Participant.newInternal B rand
        (NizkPokOfSecretKey.prove B rand H) parameters false i s rng = some r :=
      newInternal_isSome hprove fun _ => ht
    obtain ⟨-, hdh, -, -, hd⟩ := newInternal_eq_some hr
    obtain ⟨a, rfl, hlen, hhead, hcomm, -, π, -, -, hπ, -⟩ := hd rfl
    exact ⟨p, a, dh, rng', hr, hlen, hhead, hcomm, Option.isSome_iff_exists.2 ⟨π, hπ⟩, hdh⟩
  obtain ⟨_, _, _, _, hnone, -⟩ := hdealer index none
  refine ⟨hdealer index secretKey, Option.isSome_iff_exists.1 (by simp [Participant.newDealer, hnone]),
    fun sk signers => ?_, ?_⟩
  · obtain ⟨p, a, dh, rng', hr, -⟩ := hdealer sk.index (some sk.key)
    exact ⟨p, ⟨a⟩, dh, rng', hr,
      reshare_eq B rand _ newStateInternal theirEncryptedSecretShares hr rfl⟩
  · obtain ⟨⟨p, c, dh, rng'⟩, hr⟩ : ∃ r, Participant.newInternal B rand
        (NizkPokOfSecretKey.prove B rand H) parameters true index secretKey rng = some r :=
      newInternal_isSome hprove nofun
    obtain ⟨-, -, -, hsigner, -⟩ := newInternal_eq_some hr
    obtain ⟨rfl, hcomm, hproof⟩ := hsigner rfl
    dsimp only at hcomm
    exact ⟨p, dh, rng', hr, hcomm, hproof, by rw [Participant.publicKey, hcomm]⟩

/-- Threshold three, so the coefficient loop runs twice, with a secret key. -/
theorem newInternal_spec_threshold_three :
    1 ≤ (⟨3, 3⟩ : ThresholdParameters).t.toNat ∧
    (∃ p a dh rng', Participant.newInternal (1 : ℚ) (fun n : ℕ => ((n : ℚ), n + 1))
        (NizkPokOfSecretKey.prove (1 : ℚ) (fun n : ℕ => ((n : ℚ), n + 1)) fun _ _ _ => 2)
        ⟨3, 3⟩ false 2 (some 7) 0 = some (p, some ⟨a⟩, dh, rng') ∧
      a.length = (⟨3, 3⟩ : ThresholdParameters).t.toNat ∧
      (∀ sk, (some 7 : Option ℚ) = some sk → a.head? = some sk) ∧
      p.commitments = some ⟨2, a.map (· • (1 : ℚ))⟩ ∧ p.proofOfSecretKey.isSome ∧
      p.dhPublicKey.key = dh.key • (1 : ℚ)) ∧
    (∃ d, Participant.newDealer (1 : ℚ) (fun n : ℕ => ((n : ℚ), n + 1))
        (NizkPokOfSecretKey.prove (1 : ℚ) (fun n : ℕ => ((n : ℚ), n + 1)) fun _ _ _ => 2)
        ⟨3, 3⟩ 2 0 = some d) ∧
    (∀ (sk : IndividualSigningKey ℚ) (signers : List (Participant ℚ (NizkPokOfSecretKey ℚ ℚ))),
      ∃ p coefficients dh rng', Participant.newInternal (1 : ℚ) (fun n : ℕ => ((n : ℚ), n + 1))
          (NizkPokOfSecretKey.prove (1 : ℚ) (fun n : ℕ => ((n : ℚ), n + 1)) fun _ _ _ => 2)
          ⟨3, 3⟩ false sk.index (some sk.key) 0 = some (p, some coefficients, dh, rng') ∧
        Participant.reshare (1 : ℚ) (fun n : ℕ => ((n : ℚ), n + 1))
            (NizkPokOfSecretKey.prove (1 : ℚ) (fun n : ℕ => ((n : ℚ), n + 1)) fun _ _ _ => 2)
            (fun _ _ _ _ _ _ _ r => (Except.ok ((), ()), r)) (fun _ : Unit => some ([] : List Unit))
            ⟨3, 3⟩ sk signers 0 =
          match (Except.ok ((), ()) : Except Error (Unit × Unit)) with
          | .error error => some (.error error)
          | .ok (state, lists) => ((fun _ : Unit => some ([] : List Unit)) state).map fun shares =>
              .ok (p, shares, lists)) ∧
    (∃ p dh rng', Participant.newInternal (1 : ℚ) (fun n : ℕ => ((n : ℚ), n + 1))
        (NizkPokOfSecretKey.prove (1 : ℚ) (fun n : ℕ => ((n : ℚ), n + 1)) fun _ _ _ => 2)
        ⟨3, 3⟩ true 2 (some 7) 0 = some (p, none, dh, rng') ∧
      p.commitments = none ∧ p.proofOfSecretKey = none ∧ p.publicKey = none) :=
  ⟨by decide, newInternal_spec (1 : ℚ) (fun n : ℕ => ((n : ℚ), n + 1)) (fun _ _ _ => 2)
    (fun _ _ _ _ _ _ _ r => (Except.ok ((), ()), r)) (fun _ : Unit => some ([] : List Unit))
    ⟨3, 3⟩ (by decide) 2 (some 7) 0⟩

/-- Every participant `new_internal` builds carries proofs that verify: the proof
of its Diffie-Hellman key against `dh_public_key`, and a dealer's proof of its
first coefficient against its public key `φ₀`. -/
theorem newInternal_proofs_verify [DecidableEq G] {parameters : ThresholdParameters}
    {isSigner : Bool} {index : UInt32} {secretKey : Option F} {rng : ρ}
    {r : Participant G (NizkPokOfSecretKey F G) × Option (Coefficients F) ×
      DiffieHellmanPrivateKey F × ρ}
    (h : Participant.newInternal B rand (NizkPokOfSecretKey.prove B rand H) parameters isSigner
      index secretKey rng = some r) :
    r.1.proofOfDhPrivateKey.verify B H index r.1.dhPublicKey.key = true ∧
    ∀ π ∈ r.1.proofOfSecretKey, ∃ φ₀, r.1.publicKey = some φ₀ ∧ π.verify B H index φ₀ = true := by
  obtain ⟨-, hdh, ⟨_, hπ₁⟩, hsigner, hdealer⟩ := newInternal_eq_some h
  refine ⟨by rw [hdh]; exact NizkPokOfSecretKey.verify_prove B rand H hπ₁, fun π hπ => ?_⟩
  cases isSigner with
  | true => simp [(hsigner rfl).2.2] at hπ
  | false =>
      obtain ⟨a, -, -, -, hcomm, a₀, π', _, ha₀, hπ', hprove⟩ := hdealer rfl
      obtain rfl : π' = π := Option.some.inj (hπ'.symm.trans hπ)
      refine ⟨a₀ • B, ?_, NizkPokOfSecretKey.verify_prove B rand H hprove⟩
      simp [Participant.publicKey, hcomm, VerifiableSecretSharingCommitment.publicKey, ha₀]

/-- A dealer's result once its coefficients are drawn, in terms of the draws:
the Diffie-Hellman key `d`, the nonce `k₁` of its proof, the coefficients and
the nonce `k₂` of the proof of `a₀`. -/
theorem newInternal_dealer_eq {parameters : ThresholdParameters} {index : UInt32}
    {secretKey : Option F} {rng rng₁ rng₂ rng₄ rng₅ : ρ} {d k₁ a₀ k₂ : F} {as : List F}
    (h₁ : rand rng = (d, rng₁)) (h₂ : rand rng₁ = (k₁, rng₂))
    (hc : drawCoefficients rand parameters.t.toNat secretKey rng₂ = (a₀ :: as, rng₄))
    (hlen : (a₀ :: as).length = parameters.t.toNat) (h₅ : rand rng₄ = (k₂, rng₅)) :
    Participant.newInternal B rand (NizkPokOfSecretKey.prove B rand H) parameters false index
        secretKey rng =
      some (⟨index, ⟨d • B⟩, some ⟨index, (a₀ :: as).map (· • B)⟩,
          some ⟨k₂ • B, k₂ + H index (a₀ • B) (k₂ • B) * a₀⟩,
          ⟨k₁ • B, k₁ + H index (d • B) (k₁ • B) * d⟩⟩, some ⟨a₀ :: as⟩, ⟨d⟩, rng₅) := by
  simp only [Participant.newInternal, NizkPokOfSecretKey.prove, h₁, h₂, hc, Bool.false_eq_true,
    ↓reduceIte]
  rw [mapM_range_getElem? _ (a₀ :: as) hlen]
  simp only [Except.toOption, List.map_cons, VerifiableSecretSharingCommitment.publicKey,
    List.head?_cons, List.getElem?_cons_zero, Option.pure_def, Option.bind_eq_bind,
    Option.some_bind, h₅]

/-- With the Schnorr proofs, `new_internal` is a straight-line function of the
random stream. A signer takes two draws: its Diffie-Hellman key `d` and the
nonce `k₁` of its proof. A dealer of threshold `t ≥ 1` then takes its `t`
coefficients, the first replaced by the secret key when one is given, and the
nonce `k₂` of the proof of `a₀`. Every field of the result is the one these
draws determine, and the source comes back advanced past exactly them, so no
draw serves twice: the key, the two nonces and the coefficients are all
distinct draws. -/
theorem newInternal_eq_draws (parameters : ThresholdParameters) (index : UInt32) (rng : ρ) :
    (∃ d k₁ rng', drawScalars rand 2 rng = ([d, k₁], rng') ∧ ∀ secretKey : Option F,
      Participant.newInternal B rand (NizkPokOfSecretKey.prove B rand H) parameters true index
          secretKey rng =
        some (⟨index, ⟨d • B⟩, none, none, ⟨k₁ • B, k₁ + H index (d • B) (k₁ • B) * d⟩⟩, none,
          ⟨d⟩, rng')) ∧
    (1 ≤ parameters.t.toNat →
      (∃ d k₁ a₀ as k₂ rng', drawScalars rand (parameters.t.toNat + 3) rng =
          (d :: k₁ :: a₀ :: as ++ [k₂], rng') ∧ as.length = parameters.t.toNat - 1 ∧
        Participant.newInternal B rand (NizkPokOfSecretKey.prove B rand H) parameters false index
            none rng =
          some (⟨index, ⟨d • B⟩, some ⟨index, (a₀ :: as).map (· • B)⟩,
            some ⟨k₂ • B, k₂ + H index (a₀ • B) (k₂ • B) * a₀⟩,
            ⟨k₁ • B, k₁ + H index (d • B) (k₁ • B) * d⟩⟩, some ⟨a₀ :: as⟩, ⟨d⟩, rng')) ∧
      ∀ sk : F, ∃ d k₁ as k₂ rng', drawScalars rand (parameters.t.toNat + 2) rng =
          (d :: k₁ :: as ++ [k₂], rng') ∧ as.length = parameters.t.toNat - 1 ∧
        Participant.newInternal B rand (NizkPokOfSecretKey.prove B rand H) parameters false index
            (some sk) rng =
          some (⟨index, ⟨d • B⟩, some ⟨index, (sk :: as).map (· • B)⟩,
            some ⟨k₂ • B, k₂ + H index (sk • B) (k₂ • B) * sk⟩,
            ⟨k₁ • B, k₁ + H index (d • B) (k₁ • B) * d⟩⟩, some ⟨sk :: as⟩, ⟨d⟩, rng')) := by
  rcases h₁ : rand rng with ⟨d, rng₁⟩
  rcases h₂ : rand rng₁ with ⟨k₁, rng₂⟩
  refine ⟨⟨d, k₁, rng₂, by rw [drawScalars_succ, h₁, drawScalars_succ, h₂]; rfl, fun _ => ?_⟩,
    fun ht => ?_⟩
  · simp only [Participant.newInternal, NizkPokOfSecretKey.prove, h₁, h₂, ↓reduceIte,
      Except.toOption, Option.pure_def, Option.bind_eq_bind, Option.some_bind]
  obtain ⟨s, hs⟩ : ∃ s, parameters.t.toNat = s + 1 := ⟨_, (Nat.sub_add_cancel ht).symm⟩
  constructor
  · rcases h₃ : rand rng₂ with ⟨a₀, rng₃⟩
    rcases h₄ : drawScalars rand s rng₃ with ⟨as, rng₄⟩
    rcases h₅ : rand rng₄ with ⟨k₂, rng₅⟩
    have has : as.length = s := by simpa [h₄] using length_drawScalars rand s rng₃
    refine ⟨d, k₁, a₀, as, k₂, rng₅, ?_, by rw [has, hs, Nat.add_sub_cancel],
      newInternal_dealer_eq B rand H h₁ h₂ ?_ (by rw [List.length_cons, has, hs]) h₅⟩
    · rw [hs, drawScalars_succ, h₁, drawScalars_succ, h₂, drawScalars_succ, h₃,
        drawScalars_succ_right, h₄, h₅]
      rfl
    · simp only [drawCoefficients, h₃, hs, Nat.add_sub_cancel, h₄]
  · intro sk
    rcases h₄ : drawScalars rand s rng₂ with ⟨as, rng₄⟩
    rcases h₅ : rand rng₄ with ⟨k₂, rng₅⟩
    have has : as.length = s := by simpa [h₄] using length_drawScalars rand s rng₂
    refine ⟨d, k₁, as, k₂, rng₅, ?_, by rw [has, hs, Nat.add_sub_cancel],
      newInternal_dealer_eq B rand H h₁ h₂ ?_ (by rw [List.length_cons, has, hs]) h₅⟩
    · rw [hs, drawScalars_succ, h₁, drawScalars_succ, h₂, drawScalars_succ_right, h₄, h₅]
      rfl
    · simp only [drawCoefficients, hs, Nat.add_sub_cancel, h₄]

/-- The dealer that a successful `reshare` returns stands for the signing key it
reshares: it has the key's index, its public key `φ₀` is the key's verifying
share `to_public` (`s · B`), and its proof of knowledge of the secret verifies
against that share. So the new signers can check a resharing dealer against
the old verifying keys. -/
theorem reshare_dealer_toPublic [DecidableEq G] {parameters : ThresholdParameters}
    {sk : IndividualSigningKey F} {signers : List (Participant G (NizkPokOfSecretKey F G))}
    {rng : ρ} {dealer : Participant G (NizkPokOfSecretKey F G)}
    {shares : List EncryptedSecretShare} {lists : DKGParticipantList}
    (h : Participant.reshare B rand (NizkPokOfSecretKey.prove B rand H) newStateInternal
      theirEncryptedSecretShares parameters sk signers rng = some (.ok (dealer, shares, lists))) :
    dealer.index = sk.index ∧ dealer.publicKey = some (sk.toPublic B).share ∧
    ∃ π, dealer.proofOfSecretKey = some π ∧
      π.verify B H dealer.index (sk.toPublic B).share = true := by
  obtain ⟨r, hr, rfl⟩ := reshare_dealer B rand _ newStateInternal theirEncryptedSecretShares h
  obtain ⟨hidx, -, -, -, hd⟩ := newInternal_eq_some hr
  obtain ⟨a, -, -, hhead, hcomm, -, π, -, -, hπ, -⟩ := hd rfl
  have hpk : r.1.publicKey = some (sk.key • B) := by
    simp [Participant.publicKey, hcomm, VerifiableSecretSharingCommitment.publicKey,
      hhead sk.key rfl]
  obtain ⟨φ₀, hφ₀, hv⟩ := (newInternal_proofs_verify B rand H hr).2 π hπ
  obtain rfl : sk.key • B = φ₀ := Option.some.inj (hpk.symm.trans hφ₀)
  exact ⟨hidx, hpk, π, hπ, by rw [hidx]; exact hv⟩

theorem reshare_dealer_toPublic_single :
    Participant.reshare (1 : ℚ) (fun _ : Unit => ((0 : ℚ), ()))
        (NizkPokOfSecretKey.prove (1 : ℚ) (fun _ : Unit => ((0 : ℚ), ())) fun _ _ _ => 0)
        (fun _ _ _ _ _ _ _ r => (Except.ok ((), ()), r)) (fun _ : Unit => some ([] : List Unit))
        ⟨1, 1⟩ ⟨1, 5⟩ [] () =
      some (.ok (⟨1, ⟨(0 : ℚ) • (1 : ℚ)⟩, some ⟨1, [(5 : ℚ) • (1 : ℚ)]⟩,
        some ⟨(0 : ℚ) • (1 : ℚ), 0 + 0 * 5⟩, ⟨(0 : ℚ) • (1 : ℚ), 0 + 0 * 0⟩⟩, [], ())) ∧
    (⟨1, ⟨(0 : ℚ) • (1 : ℚ)⟩, some ⟨1, [(5 : ℚ) • (1 : ℚ)]⟩, some ⟨(0 : ℚ) • (1 : ℚ), 0 + 0 * 5⟩,
        ⟨(0 : ℚ) • (1 : ℚ), 0 + 0 * 0⟩⟩ : Participant ℚ (NizkPokOfSecretKey ℚ ℚ)).index =
      (⟨1, 5⟩ : IndividualSigningKey ℚ).index ∧
    (⟨1, ⟨(0 : ℚ) • (1 : ℚ)⟩, some ⟨1, [(5 : ℚ) • (1 : ℚ)]⟩, some ⟨(0 : ℚ) • (1 : ℚ), 0 + 0 * 5⟩,
        ⟨(0 : ℚ) • (1 : ℚ), 0 + 0 * 0⟩⟩ : Participant ℚ (NizkPokOfSecretKey ℚ ℚ)).publicKey =
      some ((⟨1, 5⟩ : IndividualSigningKey ℚ).toPublic (1 : ℚ)).share ∧
    ∃ π, (⟨1, ⟨(0 : ℚ) • (1 : ℚ)⟩, some ⟨1, [(5 : ℚ) • (1 : ℚ)]⟩,
        some ⟨(0 : ℚ) • (1 : ℚ), 0 + 0 * 5⟩, ⟨(0 : ℚ) • (1 : ℚ), 0 + 0 * 0⟩⟩ :
        Participant ℚ (NizkPokOfSecretKey ℚ ℚ)).proofOfSecretKey = some π ∧
      π.verify (1 : ℚ) (fun _ _ _ => 0) 1
        ((⟨1, 5⟩ : IndividualSigningKey ℚ).toPublic (1 : ℚ)).share = true :=
  have h : Participant.reshare (1 : ℚ) (fun _ : Unit => ((0 : ℚ), ()))
      (NizkPokOfSecretKey.prove (1 : ℚ) (fun _ : Unit => ((0 : ℚ), ())) fun _ _ _ => 0)
      (fun _ _ _ _ _ _ _ r => (Except.ok ((), ()), r)) (fun _ : Unit => some ([] : List Unit))
      ⟨1, 1⟩ ⟨1, 5⟩ [] () =
        some (.ok (⟨1, ⟨(0 : ℚ) • (1 : ℚ)⟩, some ⟨1, [(5 : ℚ) • (1 : ℚ)]⟩,
          some ⟨(0 : ℚ) • (1 : ℚ), 0 + 0 * 5⟩, ⟨(0 : ℚ) • (1 : ℚ), 0 + 0 * 0⟩⟩, [], ())) :=
    rfl
  ⟨h, reshare_dealer_toPublic (1 : ℚ) (fun _ => (0, ())) (fun _ _ _ => 0)
    (fun _ _ _ _ _ _ _ r => (Except.ok ((), ()), r)) (fun _ : Unit => some ([] : List Unit)) h⟩

end Roles

/-! ## Ordering -/

section Ordering

variable {G Nizk : Type}

/-- `PartialOrd for Participant`: participants are ordered by index, and two
with the same index are incomparable. -/
def Participant.partialCmp (self other : Participant G Nizk) : Option Ordering :=
  match compare self.index other.index with
  | .lt => some .lt
  | .eq => none
  | .gt => some .gt

/-- `PartialEq for Participant`: participants with the same index are equal,
whatever their keys and proofs. -/
def Participant.eq (self other : Participant G Nizk) : Bool :=
  self.index == other.index

end Ordering

/-! ## Resharing preserves the group key -/

section Resharing

variable {F G Nizk ρ : Type} [Field F] [AddCommGroup G] [Module F G]
variable {B : G} {rand : ρ → F × ρ} {prove : UInt32 → F → G → ρ → Except Error Nizk × ρ}

/-- The dealers of a resharing, each built by `new_internal` from an old signing
key, commit to coefficient lists of length `t` headed by those keys. -/
theorem exists_coefficients_of_dealers {parameters : ThresholdParameters}
    {keys : List (IndividualSigningKey F)} {cs : List (VerifiableSecretSharingCommitment G)}
    (hcs : List.Forall₂ (fun k c => ∃ rng r, Participant.newInternal B rand prove parameters false
      k.index (some k.key) rng = some r ∧ r.1.commitments = some c) keys cs) :
    ∃ KD : List (IndividualSigningKey F × List F), KD.map Prod.fst = keys ∧
      cs = KD.map (fun p => ⟨p.1.index, p.2.map (· • B)⟩) ∧
      ∀ p ∈ KD, p.2.length = parameters.t.toNat ∧ p.2.head? = some p.1.key := by
  induction hcs with
  | nil => exact ⟨[], rfl, rfl, by simp⟩
  | @cons k c keys cs hkc _ ih =>
      obtain ⟨KD, hK, hC, hKD⟩ := ih
      obtain ⟨rng, r, hr, hc⟩ := hkc
      obtain ⟨a, -, ha, hhead, hcomm⟩ := newInternal_dealer hr
      refine ⟨(k, a) :: KD, by simp [hK], ?_, ?_⟩
      · rw [hcomm] at hc
        simp [← Option.some.inj hc, hC]
      · simp only [List.mem_cons, forall_eq_or_imp]
        exact ⟨⟨ha, hhead k.key rfl⟩, hKD⟩

theorem sum_lagrangeCoefficient_mul_key (hchar : CharExceedsU32 F)
    {KD : List (IndividualSigningKey F × List F)} (hJ : (KD.map (·.1.index)).Nodup)
    {P : F[X]} (hP : P.degree < KD.length) (hkeys : ∀ p ∈ KD, p.1.key = P.eval (p.1.index.toNat : F)) :
    (KD.map fun p => lagrangeCoefficient p.1.index (KD.map (·.1.index)) * p.1.key).sum = P.eval 0 := by
  rw [← sum_lagrangeCoefficient_mul_eval hchar hJ (by simpa using hP), List.map_map]
  exact congrArg List.sum (List.map_congr_left fun p hp => by simp [hkeys p hp])

variable [DecidableEq F]

variable (F) in
/-- `Σ_i λ_i(I) · y_i` over pairs `(i, y_i)`, where `I` lists their indices and
each `λ_i(I)` is computed by `calculate_lagrange_coefficients`: how any
threshold of shares recombines at zero. `none` when a coefficient fails or a
value is missing. -/
def recombine (shares : List (UInt32 × Option G)) : Option G :=
  (shares.mapM fun (s : UInt32 × Option G) => do
      let l ← (calculateLagrangeCoefficients (F := F) s.1 (shares.map Prod.fst)).toOption
      let y ← s.2
      pure (l • y)).map List.sum

theorem recombine_map_smul (hchar : CharExceedsU32 F) {ι : Type} (xs : List ι) (idx : ι → UInt32)
    (w : ι → F) :
    recombine F (xs.map fun x => (idx x, some (w x • B))) =
      some ((xs.map fun x => lagrangeCoefficient (idx x) (xs.map idx) * w x).sum • B) := by
  rw [recombine, mapM_eq_some_of_forall (fun s => (lagrangeCoefficient s.1
    ((xs.map fun x => (idx x, some (w x • B))).map Prod.fst) : F) • s.2.getD 0)]
  · simp [Function.comp_def, List.sum_smul, mul_smul]
  · simp only [List.mem_map]
    rintro _ ⟨x, -, rfl⟩
    simp [calculateLagrangeCoefficients_of_char hchar, Except.toOption]

/-- The verifying keys rebuilt from the dealers' commitments are `p(i) · B` for
one polynomial `p` of degree below `t`: the new sharing polynomial, whose
constant term combines the dealers' constant terms. -/
theorem exists_poly_generateFromCommitments (hchar : CharExceedsU32 F) {t : Nat}
    {KD : List (IndividualSigningKey F × List F)}
    (hKD : ∀ q ∈ KD, q.2.length = t ∧ q.2.head? = some q.1.key) :
    ∃ p ∈ degreeLT F t,
      p.eval 0 = (KD.map fun q => lagrangeCoefficient q.1.index (KD.map (·.1.index)) * q.1.key).sum ∧
      ∀ i, (IndividualVerifyingKey.generateFromCommitments F i
        (KD.map fun q => ⟨q.1.index, q.2.map (· • B)⟩)).map (·.share) =
          some (p.eval (i.toNat : F) • B) := by
  obtain ⟨p, hpdeg, hpeval⟩ := exists_mem_degreeLT_sum t
    (fun q => lagrangeCoefficient q.1.index (KD.map (·.1.index))) (·.2) KD fun q hq => (hKD q hq).1
  refine ⟨p, hpdeg, ?_, fun i => ?_⟩
  · rw [hpeval]
    exact congrArg List.sum (List.map_congr_left fun q hq => by
      rw [polyEval_zero_of_head? (hKD q hq).2])
  · have hgen := generateFromCommitments_of_coefficients hchar (B := B) (i := i)
      (KD.map fun q => (q.1.index, q.2))
    simp only [List.map_map, Function.comp_def] at hgen
    simp [hgen, hpeval]

/-- Resharing keeps the group key. Let every old signer `j` reshare its key
`s_j = P(j)` (distinct indices, `deg P < |J|`) as a dealer built by
`new_internal` with the new threshold `t`. Then the dealers' constant
commitments recombine to the old group key `P(0) · B`, and so do the verifying
keys that `generate_from_commitments` rebuilds for any `t` distinct new
indices. -/
theorem reshare_preserves_group_key (hchar : CharExceedsU32 F) (parameters : ThresholdParameters)
    (keys : List (IndividualSigningKey F))
    (hJ : (keys.map (·.index)).Nodup) (P : F[X]) (hP : P.degree < keys.length)
    (hkeys : ∀ k ∈ keys, k.key = P.eval (k.index.toNat : F))
    (cs : List (VerifiableSecretSharingCommitment G))
    (hcs : List.Forall₂ (fun k c => ∃ rng r, Participant.newInternal B rand prove parameters false
      k.index (some k.key) rng = some r ∧ r.1.commitments = some c) keys cs) :
    recombine F (cs.map fun c => (c.index, c.points.head?)) = some (P.eval 0 • B) ∧
    ∀ S : List UInt32, S.Nodup → parameters.t.toNat ≤ S.length →
      recombine F (S.map fun i =>
        (i, (IndividualVerifyingKey.generateFromCommitments F i cs).map (·.share))) =
        some (P.eval 0 • B) := by
  obtain ⟨KD, rfl, rfl, hKD⟩ := exists_coefficients_of_dealers hcs
  have hsum := sum_lagrangeCoefficient_mul_key hchar (by simpa [Function.comp_def] using hJ)
    (by simpa using hP) fun q hq => hkeys q.1 (List.mem_map_of_mem _ hq)
  obtain ⟨p, hpdeg, hp0, hgen⟩ := exists_poly_generateFromCommitments (B := B) hchar hKD
  constructor
  · have hheads : (KD.map fun q => (⟨q.1.index, q.2.map (· • B)⟩ :
          VerifiableSecretSharingCommitment G)).map (fun c => (c.index, c.points.head?)) =
        KD.map fun q => (q.1.index, some (q.1.key • B)) := by
      simp only [List.map_map]
      exact List.map_congr_left fun q hq => by simp [List.head?_map, (hKD q hq).2]
    rw [hheads, recombine_map_smul hchar KD (·.1.index) (·.1.key), hsum]
  · intro S hS hSt
    have hdeg : p.degree < S.length := (mem_degreeLT.1 hpdeg).trans_le (by exact_mod_cast hSt)
    have hrec := recombine_map_smul (B := B) hchar S (fun i => i) fun i => p.eval (i.toNat : F)
    simp only [List.map_id'] at hrec
    simp only [hgen]
    rw [hrec, sum_lagrangeCoefficient_mul_eval hchar hS hdeg, hp0, hsum]

/-- Two old signers with the keys `P(1) = 4` and `P(2) = 5` of `P = X + 3`
reshare with threshold two. -/
theorem reshare_preserves_group_key_two_dealers :
    CharExceedsU32 ℚ ∧ (([⟨1, 4⟩, ⟨2, 5⟩] : List (IndividualSigningKey ℚ)).map (·.index)).Nodup ∧
    (X + C 3 : ℚ[X]).degree <
      (([⟨1, 4⟩, ⟨2, 5⟩] : List (IndividualSigningKey ℚ)).length : WithBot ℕ) ∧
    (∀ k ∈ ([⟨1, 4⟩, ⟨2, 5⟩] : List (IndividualSigningKey ℚ)),
      k.key = (X + C 3 : ℚ[X]).eval (k.index.toNat : ℚ)) ∧
    List.Forall₂ (fun k c => ∃ rng r, Participant.newInternal (1 : ℚ)
        (fun n : ℕ => ((n : ℚ), n + 1)) (fun _ _ _ r => (Except.ok (), r)) ⟨2, 2⟩ false k.index
        (some k.key) rng = some r ∧ r.1.commitments = some c)
      ([⟨1, 4⟩, ⟨2, 5⟩] : List (IndividualSigningKey ℚ))
      [⟨1, [(4 : ℚ) • (1 : ℚ), ((1 : ℕ) : ℚ) • (1 : ℚ)]⟩,
        ⟨2, [(5 : ℚ) • (1 : ℚ), ((1 : ℕ) : ℚ) • (1 : ℚ)]⟩] ∧
    recombine ℚ (([⟨1, [(4 : ℚ) • (1 : ℚ), ((1 : ℕ) : ℚ) • (1 : ℚ)]⟩,
        ⟨2, [(5 : ℚ) • (1 : ℚ), ((1 : ℕ) : ℚ) • (1 : ℚ)]⟩] :
          List (VerifiableSecretSharingCommitment ℚ)).map fun c => (c.index, c.points.head?)) =
      some ((X + C 3 : ℚ[X]).eval 0 • (1 : ℚ)) ∧
    ∀ S : List UInt32, S.Nodup → (2 : UInt32).toNat ≤ S.length →
      recombine ℚ (S.map fun i => (i, (IndividualVerifyingKey.generateFromCommitments ℚ i
        [⟨1, [(4 : ℚ) • (1 : ℚ), ((1 : ℕ) : ℚ) • (1 : ℚ)]⟩,
          ⟨2, [(5 : ℚ) • (1 : ℚ), ((1 : ℕ) : ℚ) • (1 : ℚ)]⟩]).map (·.share))) =
        some ((X + C 3 : ℚ[X]).eval 0 • (1 : ℚ)) :=
  have hchar : CharExceedsU32 ℚ := Or.inl ringChar.eq_zero
  have hJ : (([⟨1, 4⟩, ⟨2, 5⟩] : List (IndividualSigningKey ℚ)).map (·.index)).Nodup := by decide
  have hP : (X + C 3 : ℚ[X]).degree <
      (([⟨1, 4⟩, ⟨2, 5⟩] : List (IndividualSigningKey ℚ)).length : WithBot ℕ) := by
    rw [degree_X_add_C]
    decide
  have hkeys : ∀ k ∈ ([⟨1, 4⟩, ⟨2, 5⟩] : List (IndividualSigningKey ℚ)),
      k.key = (X + C 3 : ℚ[X]).eval (k.index.toNat : ℚ) := by norm_num
  have hcs : List.Forall₂ (fun k c => ∃ rng r, Participant.newInternal (1 : ℚ)
      (fun n : ℕ => ((n : ℚ), n + 1)) (fun _ _ _ r => (Except.ok (), r)) ⟨2, 2⟩ false k.index
      (some k.key) rng = some r ∧ r.1.commitments = some c)
      ([⟨1, 4⟩, ⟨2, 5⟩] : List (IndividualSigningKey ℚ))
      [⟨1, [(4 : ℚ) • (1 : ℚ), ((1 : ℕ) : ℚ) • (1 : ℚ)]⟩,
        ⟨2, [(5 : ℚ) • (1 : ℚ), ((1 : ℕ) : ℚ) • (1 : ℚ)]⟩] :=
    .cons ⟨0, _, rfl, rfl⟩ (.cons ⟨0, _, rfl, rfl⟩ .nil)
  ⟨hchar, hJ, hP, hkeys, hcs,
    reshare_preserves_group_key hchar ⟨2, 2⟩ _ hJ (X + C 3) hP hkeys _ hcs⟩

end Resharing

/-! ## Wire encoding -/

section Wire

variable {G Nizk : Type} (point : Codec G) (nizk : Codec Nizk)

/-- The derived encoding of `Participant`: its five fields in order. The proofs
are encoded by a codec defined outside the modelled files. -/
def Participant.codec : Codec (Participant G Nizk) :=
  (Codec.u32.prod ((DiffieHellmanPublicKey.codec point).prod
      ((Codec.option (VerifiableSecretSharingCommitment.codec point)).prod
        ((Codec.option nizk).prod nizk)))).map
    (fun p => ⟨p.1, p.2.1, p.2.2.1, p.2.2.2.1, p.2.2.2.2⟩)
    (fun x => (x.index, x.dhPublicKey, x.commitments, x.proofOfSecretKey, x.proofOfDhPrivateKey))

/-- `Participant::to_bytes`. -/
def Participant.toBytes (self : Participant G Nizk) : Except Error (List UInt8) :=
  toBytesWith .SerializationError (Participant.codec point nizk) self

/-- `Participant::from_bytes`. -/
def Participant.fromBytes (bytes : List UInt8) : Except Error (Participant G Nizk) :=
  fromBytesWith .DeserializationError (Participant.codec point nizk) bytes

end Wire

end IceFrost
