import Mathlib

/-!
# What the modelled files take from the rest of the crate

The four modelled files (`utils.rs`, `keys.rs`, `sign/precomputation.rs` and
`dkg/participant.rs`) are generic over a ciphersuite: a prime-order group `G`
with scalar field `F`. Here `G` is any `F`-module and the generator is passed
explicitly where the code calls `G::generator()`. Participant indices are `u32`
and enter the field through `ScalarField::from`, that is through the cast of
`UInt32.toNat`.

The declarations of the crate that these files use but do not contain (the
error type, the threshold parameters, the dealer's commitment and coefficient
types) are modelled from the spec. Two pieces of the Rust semantics are made
explicit: a panic is `none`, and `usize` subtraction is checked, as in a debug
build.
-/

namespace IceFrost

/-- Modelled from the spec: the crate's error type, with the constructors the
modelled files raise. -/
inductive Error
  | Custom (message : String)
  | ShareVerificationError
  | SerialisationError
  | DeserialisationError
  | SerializationError
  | DeserializationError
  deriving DecidableEq, Repr

/-- Modelled from the spec: the threshold parameters `(n, t)` of one protocol
instance. -/
structure ThresholdParameters where
  n : UInt32
  t : UInt32
  deriving DecidableEq, Repr

/-- Modelled from the spec: a dealer's Feldman commitment
`{ index, points = (φ₀, …, φ_{t-1}) }` with `φ_k = a_k·B`. -/
structure VerifiableSecretSharingCommitment (G : Type) where
  index : UInt32
  points : List G
  deriving DecidableEq, Repr

/-- Modelled from the spec: `φ₀`, the dealer's public key contribution, when the
commitment has one. -/
def VerifiableSecretSharingCommitment.publicKey {G : Type}
    (c : VerifiableSecretSharingCommitment G) : Option G :=
  c.points.head?

/-- Modelled from the spec: a dealer's secret polynomial coefficients
`(a₀, …, a_{t-1})`. -/
structure Coefficients (F : Type) where
  coefficients : List F
  deriving DecidableEq, Repr

/-- `a - b` on `usize` as a debug build computes it: an underflow panics. -/
def usizeSub (a b : Nat) : Option Nat :=
  if b ≤ a then some (a - b) else none

theorem usizeSub_of_le {a b : Nat} (h : b ≤ a) : usizeSub a b = some (a - b) := if_pos h

/-- `Vec::remove`: panics when the index is out of bounds. -/
def vecRemove {α : Type} (l : List α) (i : Nat) : Option (List α) :=
  if i < l.length then some (l.eraseIdx i) else none

theorem vecRemove_of_lt {α : Type} {l : List α} {i : Nat} (h : i < l.length) :
    vecRemove l i = some (l.eraseIdx i) := if_pos h

/-- A `mapM` in `Option` whose every call succeeds. -/
theorem mapM_eq_some_of_forall {α β : Type} {f : α → Option β} (g : α → β) {l : List α}
    (h : ∀ a ∈ l, f a = some (g a)) : l.mapM f = some (l.map g) := by
  induction l with
  | nil => rfl
  | cons a l ih =>
      simp only [List.mem_cons, forall_eq_or_imp] at h
      rw [List.mapM_cons, h.1, ih h.2]
      rfl

theorem except_toOption_eq_some {ε α : Type} {e : Except ε α} {a : α} :
    e.toOption = some a ↔ e = .ok a := by
  cases e <;> simp [Except.toOption]

section Randomness

variable {F ρ : Type} (rand : ρ → F × ρ)

/-- `n` scalars drawn one after the other from the random source `rand`: the
loop `for _ in 1..t { coefficients.push(F::rand(&mut rng)) }` of `new_internal`,
run `n = t - 1` times. -/
def drawScalars : Nat → ρ → List F × ρ
  | 0, rng => ([], rng)
  | n + 1, rng =>
      let (a, rng) := rand rng
      let (as, rng) := drawScalars n rng
      (a :: as, rng)

theorem length_drawScalars (n : Nat) (rng : ρ) : (drawScalars rand n rng).1.length = n := by
  induction n generalizing rng with
  | zero => rfl
  | succ n ih => simp [drawScalars, ih]

theorem drawScalars_succ (n : Nat) (rng : ρ) :
    drawScalars rand (n + 1) rng =
      ((rand rng).1 :: (drawScalars rand n (rand rng).2).1, (drawScalars rand n (rand rng).2).2) :=
  rfl

/-- The last of `n + 1` draws is one more draw after the first `n`. -/
theorem drawScalars_succ_right (n : Nat) (rng : ρ) :
    drawScalars rand (n + 1) rng =
      ((drawScalars rand n rng).1 ++ [(rand (drawScalars rand n rng).2).1],
        (rand (drawScalars rand n rng).2).2) := by
  induction n generalizing rng with
  | zero => rfl
  | succ n ih =>
      rw [drawScalars_succ, ih, drawScalars_succ rand n rng]
      rfl

end Randomness

section Characteristic

variable (F : Type) [Field F]

/-- The scalar field's characteristic is zero or exceeds `2^32`. This holds for
every supported ciphersuite, and it is what keeps distinct `u32` indices distinct
in `F`. -/
def CharExceedsU32 : Prop :=
  ringChar F = 0 ∨ 2 ^ 32 < ringChar F

variable {F}

theorem CharExceedsU32.natCast_ne_zero (h : CharExceedsU32 F) {n : Nat}
    (hn : n ≠ 0) (hlt : n < 2 ^ 32) : (n : F) ≠ 0 := by
  intro hz
  have hdvd := (ringChar.spec F n).1 hz
  rcases h with h | h
  · rw [h, zero_dvd_iff] at hdvd
    exact hn hdvd
  · exact absurd (Nat.le_of_dvd (Nat.pos_of_ne_zero hn) hdvd) (by omega)

/-- Distinct `u32` indices have distinct images in a field of large
characteristic. -/
theorem CharExceedsU32.cast_inj (h : CharExceedsU32 F) {a b : UInt32} :
    (a.toNat : F) = b.toNat ↔ a = b := by
  refine ⟨fun hab => ?_, fun hab => hab ▸ rfl⟩
  have ha : a.toNat < 2 ^ 32 := a.toNat_lt_size
  have hb : b.toNat < 2 ^ 32 := b.toNat_lt_size
  apply UInt32.toNat.inj
  by_contra hne
  rcases Nat.lt_or_gt_of_ne hne with hlt | hlt
  · apply h.natCast_ne_zero (n := b.toNat - a.toNat) (by omega) (by omega)
    rw [Nat.cast_sub hlt.le, hab, sub_self]
  · apply h.natCast_ne_zero (n := a.toNat - b.toNat) (by omega) (by omega)
    rw [Nat.cast_sub hlt.le, hab, sub_self]

end Characteristic

section PolyEval

variable {F : Type} [Field F] {M : Type} [AddCommGroup M] [Module F M]

/-- The value `Σ_k x^k • a_k` of the coefficient list `(a₀, a₁, …)` at `x`, with
coefficients in any `F`-module: scalars for a dealer's polynomial, group
elements for its commitment. -/
def polyEval (x : F) : List M → M
  | [] => 0
  | a :: as => a + x • polyEval x as

@[simp] theorem polyEval_nil (x : F) : polyEval x ([] : List M) = 0 := rfl

@[simp] theorem polyEval_cons (x : F) (a : M) (as : List M) :
    polyEval x (a :: as) = a + x • polyEval x as := rfl

theorem polyEval_append (x : F) (as bs : List M) :
    polyEval x (as ++ bs) = polyEval x as + x ^ as.length • polyEval x bs := by
  induction as with
  | nil => simp
  | cons a as ih => simp [ih, smul_add, pow_succ', mul_smul, add_assoc]

theorem polyEval_zero_of_head? {a : M} {as : List M} (h : as.head? = some a) :
    polyEval (0 : F) as = a := by
  cases as with
  | nil => cases h
  | cons b bs => simpa using h

/-- Committing to the coefficients commutes with evaluation:
`Σ_k x^k • (a_k • B) = (Σ_k a_k x^k) • B`. -/
theorem polyEval_map_smul (x : F) (as : List F) (B : M) :
    polyEval x (as.map (· • B)) = polyEval x as • B := by
  induction as with
  | nil => simp
  | cons a as ih => simp [ih, add_smul, mul_smul]

end PolyEval

end IceFrost
