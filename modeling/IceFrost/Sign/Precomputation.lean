import IceFrost.Serialize

/-!
# Precomputed nonce commitments

`generateCommitmentShareLists` draws `n` nonce pairs `(d, e)` and commits to
them as `(d·B, e·B)`; the public list keeps the commitments only. The secret
list is then consumed by `dropShare`, which scans for shares equal to the used
one, remembers the position of the last match and removes that element.

`dropShare_eq_of_not_mem` and `dropShare_eq_of_last` say what one call does. The
run lemma `dropShares_inv` carries the invariant `ShareListInv` (a sublist of
the generated list, of well-formed shares, each published in the public list)
through any sequence of drops. Abstractly a secret list is the multiset of its
unused shares: one drop erases the last copy of the share, which is
`List.erase` on the reversed list, so a run of drops is multiset subtraction
and does not depend on the order of the drops (`dropShares_refines_sub`). The
nonces themselves are consecutive draws of the random source
(`generateCommitmentShareLists_nonces`).
-/

namespace IceFrost

/-- A pair of a secret and a commitment to it. -/
structure Commitment (F G : Type) where
  secret : F
  commit : G
  deriving DecidableEq, Repr

/-- A precomputed commitment share: the hiding pair `(d, D)` and the binding
pair `(e, E)`. -/
structure CommitmentShare (F G : Type) where
  «hiding» : Commitment F G
  binding : Commitment F G
  deriving DecidableEq, Repr

/-- The two scalars `(d, e)` of a nonce. -/
structure NoncePair (F : Type) where
  d : F
  e : F
  deriving DecidableEq, Repr

/-- A secret commitment share list. -/
structure SecretCommitmentShareList (F G : Type) where
  commitments : List (CommitmentShare F G)
  deriving DecidableEq, Repr

/-- A public commitment share list: the owner's index and the published
commitments. -/
structure PublicCommitmentShareList (G : Type) where
  participantIndex : UInt32
  commitments : List (G × G)
  deriving DecidableEq, Repr

section Shares

variable {F G ρ : Type} [Field F] [AddCommGroup G] [Module F G]

/-- `NoncePair::new`: two scalars drawn one after the other from the random
source `rand`. -/
def NoncePair.new (rand : ρ → F × ρ) (csprng : ρ) : NoncePair F × ρ :=
  let (d, csprng) := rand csprng
  let (e, csprng) := rand csprng
  (⟨d, e⟩, csprng)

/-- `From<NoncePair> for CommitmentShare`, for the generator `B`. -/
def CommitmentShare.ofNoncePair (B : G) (other : NoncePair F) : CommitmentShare F G :=
  ⟨⟨other.d, other.d • B⟩, ⟨other.e, other.e • B⟩⟩

/-- `CommitmentShare::publish`. -/
def CommitmentShare.publish (self : CommitmentShare F G) : G × G :=
  (self.hiding.commit, self.binding.commit)

/-- A share whose two commitments commit to its two secrets. -/
def CommitmentShare.WellFormed (B : G) (s : CommitmentShare F G) : Prop :=
  s.hiding.commit = s.hiding.secret • B ∧ s.binding.commit = s.binding.secret • B

theorem CommitmentShare.wellFormed_ofNoncePair (B : G) (p : NoncePair F) :
    (CommitmentShare.ofNoncePair B p).WellFormed B :=
  ⟨rfl, rfl⟩

/-- The loop `for _ in 0..number_of_shares { commitments.push(..) }`. -/
def drawCommitmentShares (B : G) (rand : ρ → F × ρ) : Nat → ρ → List (CommitmentShare F G)
  | 0, _ => []
  | n + 1, csprng =>
      let (pair, csprng) := NoncePair.new rand csprng
      CommitmentShare.ofNoncePair B pair :: drawCommitmentShares B rand n csprng

/-- `generate_commitment_share_lists`. -/
def generateCommitmentShareLists (B : G) (rand : ρ → F × ρ) (csprng : ρ)
    (participantIndex : UInt32) (numberOfShares : Nat) :
    PublicCommitmentShareList G × SecretCommitmentShareList F G :=
  let commitments := drawCommitmentShares B rand numberOfShares csprng
  let published := commitments.map CommitmentShare.publish
  (⟨participantIndex, published⟩, ⟨commitments⟩)

theorem length_drawCommitmentShares (B : G) (rand : ρ → F × ρ) (n : Nat) (csprng : ρ) :
    (drawCommitmentShares B rand n csprng).length = n := by
  induction n generalizing csprng with
  | zero => rfl
  | succ n ih => simp [drawCommitmentShares, ih]

theorem wellFormed_drawCommitmentShares (B : G) (rand : ρ → F × ρ) (n : Nat) (csprng : ρ) :
    ∀ s ∈ drawCommitmentShares B rand n csprng, s.WellFormed B := by
  induction n generalizing csprng with
  | zero => simp [drawCommitmentShares]
  | succ n ih =>
      simp only [drawCommitmentShares, List.mem_cons, forall_eq_or_imp]
      exact ⟨CommitmentShare.wellFormed_ofNoncePair _ _, ih _⟩

/-- Every nonce is a fresh draw: listed share by share, hiding then binding, the
`2n` nonce scalars of the secret list are the first `2n` draws of the random
source, in order, so no draw serves two nonces. -/
theorem generateCommitmentShareLists_nonces (B : G) (rand : ρ → F × ρ) (csprng : ρ)
    (participantIndex : UInt32) (n : Nat) :
    (generateCommitmentShareLists B rand csprng participantIndex n).2.commitments.flatMap
      (fun s => [s.hiding.secret, s.binding.secret]) = (drawScalars rand (2 * n) csprng).1 := by
  show (drawCommitmentShares B rand n csprng).flatMap _ = _
  induction n generalizing csprng with
  | zero => rfl
  | succ n ih =>
      rcases h₁ : rand csprng with ⟨d, csprng₁⟩
      rcases h₂ : rand csprng₁ with ⟨e, csprng₂⟩
      rw [Nat.mul_succ]
      simp only [drawCommitmentShares, NoncePair.new, drawScalars, h₁, h₂, List.flatMap_cons, ih]
      rfl

/-- What holds of a secret list at every point of its life: it is a sublist of
the generated list `gen`, and each of its shares is well formed and published
in `pub`. -/
def ShareListInv (B : G) (pub : PublicCommitmentShareList G) (gen : List (CommitmentShare F G))
    (L : SecretCommitmentShareList F G) : Prop :=
  L.commitments.Sublist gen ∧ ∀ s ∈ L.commitments, s.WellFormed B ∧ s.publish ∈ pub.commitments

theorem generateCommitmentShareLists_inv (B : G) (rand : ρ → F × ρ) (csprng : ρ)
    (participantIndex : UInt32) (n : Nat) :
    ShareListInv B (generateCommitmentShareLists B rand csprng participantIndex n).1
      (generateCommitmentShareLists B rand csprng participantIndex n).2.commitments
      (generateCommitmentShareLists B rand csprng participantIndex n).2 :=
  ⟨List.Sublist.refl _, fun s hs =>
    ⟨wellFormed_drawCommitmentShares B rand n csprng s hs, List.mem_map_of_mem _ hs⟩⟩

end Shares

section Drop

variable {F G : Type} [DecidableEq F] [DecidableEq G]

/-- `PartialEq for Commitment`: the secrets agree and the commitments agree as
group elements. -/
def Commitment.eq (self other : Commitment F G) : Bool :=
  (self.secret == other.secret) && (self.commit == other.commit)

/-- `PartialEq for CommitmentShare`. -/
def CommitmentShare.eq (self other : CommitmentShare F G) : Bool :=
  self.hiding.eq other.hiding && self.binding.eq other.binding

@[simp] theorem CommitmentShare.eq_iff (s t : CommitmentShare F G) : s.eq t = true ↔ s = t := by
  obtain ⟨⟨a, b⟩, ⟨c, d⟩⟩ := s
  obtain ⟨⟨a', b'⟩, ⟨c', d'⟩⟩ := t
  simp [CommitmentShare.eq, Commitment.eq, and_assoc]

/-- One pass of the scan in `drop_share`: a match overwrites the remembered
position, so the last match wins. -/
def dropShareStep (share : CommitmentShare F G) (index : Int) (p : Nat × CommitmentShare F G) :
    Int :=
  if p.2.eq share then p.1 else index

/-- `SecretCommitmentShareList::drop_share`: the position of the last share equal
to `share`, `-1` if there is none, then `remove` at that position. -/
def SecretCommitmentShareList.dropShare (self : SecretCommitmentShareList F G)
    (share : CommitmentShare F G) : Option (SecretCommitmentShareList F G) :=
  let index := self.commitments.enum.foldl (dropShareStep share) (-1)
  if index ≥ 0 then (vecRemove self.commitments index.toNat).map (⟨·⟩) else some self

/-- The list after a sequence of `drop_share` calls, `none` if one of them
panics. -/
def SecretCommitmentShareList.dropShares (self : SecretCommitmentShareList F G)
    (shares : List (CommitmentShare F G)) : Option (SecretCommitmentShareList F G) :=
  shares.foldlM SecretCommitmentShareList.dropShare self

theorem foldl_dropShareStep_of_not_mem {c : CommitmentShare F G} {l : List (CommitmentShare F G)}
    (h : c ∉ l) (s : Nat) (i : Int) : (l.enumFrom s).foldl (dropShareStep c) i = i := by
  induction l generalizing s i with
  | nil => rfl
  | cons x l ih =>
      simp only [List.mem_cons, not_or] at h
      simp [dropShareStep, Ne.symm h.1, ih h.2]

theorem foldl_dropShareStep_last {c : CommitmentShare F G} (l₁ l₂ : List (CommitmentShare F G))
    (h : c ∉ l₂) (i : Int) : (l₁ ++ c :: l₂).enum.foldl (dropShareStep c) i = l₁.length := by
  rw [List.enum_append, List.foldl_append, List.enumFrom_cons, List.foldl_cons,
    foldl_dropShareStep_of_not_mem h]
  simp [dropShareStep]

/-- Every member has a last occurrence. -/
theorem exists_last_occurrence {c : CommitmentShare F G} {l : List (CommitmentShare F G)}
    (h : c ∈ l) : ∃ l₁ l₂, l = l₁ ++ c :: l₂ ∧ c ∉ l₂ := by
  induction l with
  | nil => simp at h
  | cons x l ih =>
      by_cases hl : c ∈ l
      · obtain ⟨l₁, l₂, rfl, h₂⟩ := ih hl
        exact ⟨x :: l₁, l₂, rfl, h₂⟩
      · exact ⟨[], l, by simpa [hl, eq_comm] using h, hl⟩

theorem dropShare_eq_of_not_mem {L : SecretCommitmentShareList F G} {c : CommitmentShare F G}
    (h : c ∉ L.commitments) : L.dropShare c = some L := by
  simp [SecretCommitmentShareList.dropShare, List.enum, foldl_dropShareStep_of_not_mem h]

theorem dropShare_eq_of_last {L : SecretCommitmentShareList F G} {c : CommitmentShare F G}
    {l₁ l₂ : List (CommitmentShare F G)} (h : L.commitments = l₁ ++ c :: l₂) (h₂ : c ∉ l₂) :
    L.dropShare c = some ⟨l₁ ++ l₂⟩ := by
  have hlt : l₁.length < L.commitments.length := by simp [h]
  simp only [SecretCommitmentShareList.dropShare, h, foldl_dropShareStep_last l₁ l₂ h₂]
  rw [if_pos (by omega), Int.toNat_ofNat, vecRemove_of_lt (h ▸ hlt),
    List.eraseIdx_append_of_length_le le_rfl, Nat.sub_self]
  rfl

theorem dropShare_sublist (L : SecretCommitmentShareList F G) (c : CommitmentShare F G) :
    ∃ L', L.dropShare c = some L' ∧ L'.commitments.Sublist L.commitments := by
  by_cases hc : c ∈ L.commitments
  · obtain ⟨l₁, l₂, h, h₂⟩ := exists_last_occurrence hc
    refine ⟨_, dropShare_eq_of_last h h₂, ?_⟩
    rw [h]
    exact (List.sublist_cons_self c l₂).append_left l₁
  · exact ⟨L, dropShare_eq_of_not_mem hc, List.Sublist.refl _⟩

/-- `drop_share` never panics. If no share equals `c` the list is unchanged;
otherwise the last share equal to `c` is removed and the others keep their
order. Either way one copy of `c` fewer remains, so a share that occurred twice
is still there after it has been dropped once. -/
theorem dropShare_removes_last_match (L : SecretCommitmentShareList F G)
    (c : CommitmentShare F G) :
    ∃ L', L.dropShare c = some L' ∧
      ((c ∉ L.commitments ∧ L' = L) ∨
        ∃ l₁ l₂, L.commitments = l₁ ++ c :: l₂ ∧ c ∉ l₂ ∧ L'.commitments = l₁ ++ l₂) ∧
      L'.commitments.count c = L.commitments.count c - 1 := by
  by_cases hc : c ∈ L.commitments
  · obtain ⟨l₁, l₂, h, h₂⟩ := exists_last_occurrence hc
    refine ⟨_, dropShare_eq_of_last h h₂, .inr ⟨l₁, l₂, h, h₂, rfl⟩, ?_⟩
    simp [h]
  · refine ⟨L, dropShare_eq_of_not_mem hc, .inl ⟨hc, rfl⟩, ?_⟩
    simp [List.count_eq_zero_of_not_mem hc]

/-- Dropping a share that the list holds twice leaves one copy of it. -/
theorem dropShare_keeps_duplicate :
    (⟨[⟨⟨0, 0⟩, ⟨0, 0⟩⟩, ⟨⟨0, 0⟩, ⟨0, 0⟩⟩]⟩ : SecretCommitmentShareList ℚ ℚ).dropShare
      ⟨⟨0, 0⟩, ⟨0, 0⟩⟩ = some ⟨[⟨⟨0, 0⟩, ⟨0, 0⟩⟩]⟩ :=
  have h : ([⟨⟨0, 0⟩, ⟨0, 0⟩⟩, ⟨⟨0, 0⟩, ⟨0, 0⟩⟩] : List (CommitmentShare ℚ ℚ)) =
      [⟨⟨0, 0⟩, ⟨0, 0⟩⟩] ++ [⟨⟨0, 0⟩, ⟨0, 0⟩⟩] := rfl
  dropShare_eq_of_last h (List.not_mem_nil _)

end Drop

section Lifecycle

variable {F G ρ : Type} [Field F] [AddCommGroup G] [Module F G] [DecidableEq F] [DecidableEq G]

/-- The step lemma: one `drop_share` keeps the invariant. -/
theorem dropShare_inv {B : G} {pub : PublicCommitmentShareList G} {gen : List (CommitmentShare F G)}
    {L : SecretCommitmentShareList F G} (h : ShareListInv B pub gen L) (c : CommitmentShare F G) :
    ∃ L', L.dropShare c = some L' ∧ ShareListInv B pub gen L' := by
  obtain ⟨L', hL', hsub⟩ := dropShare_sublist L c
  exact ⟨L', hL', hsub.trans h.1, fun s hs => h.2 s (hsub.subset hs)⟩

/-- The run lemma: any sequence of drops keeps the invariant and never panics. -/
theorem dropShares_inv {B : G} {pub : PublicCommitmentShareList G}
    {gen : List (CommitmentShare F G)} {L : SecretCommitmentShareList F G}
    (h : ShareListInv B pub gen L) (drops : List (CommitmentShare F G)) :
    ∃ L', L.dropShares drops = some L' ∧ ShareListInv B pub gen L' := by
  induction drops generalizing L with
  | nil => exact ⟨L, rfl, h⟩
  | cons c drops ih =>
      obtain ⟨L', hL', h'⟩ := dropShare_inv h c
      obtain ⟨L'', hL'', h''⟩ := ih h'
      exact ⟨L'', by rw [SecretCommitmentShareList.dropShares, List.foldlM_cons, hL']; exact hL'', h''⟩

/-- `generate_commitment_share_lists` returns two lists of length `n`, the public
one publishing exactly the commitments `(d·B, e·B)` of the secret one, and after
any sequence of `drop_share` calls the secret list is still an order-preserving
sublist of the generated one whose shares are well formed and published. -/
theorem generateCommitmentShareLists_spec (B : G) (rand : ρ → F × ρ) (csprng : ρ)
    (participantIndex : UInt32) (n : Nat) (drops : List (CommitmentShare F G)) :
    let lists := generateCommitmentShareLists B rand csprng participantIndex n
    lists.1.commitments.length = n ∧ lists.2.commitments.length = n ∧
    lists.1.participantIndex = participantIndex ∧
    lists.1.commitments = lists.2.commitments.map CommitmentShare.publish ∧
    (∀ s ∈ lists.2.commitments, s.publish = (s.hiding.secret • B, s.binding.secret • B)) ∧
    ∃ L, lists.2.dropShares drops = some L ∧ L.commitments.Sublist lists.2.commitments ∧
      ∀ s ∈ L.commitments, s.WellFormed B ∧ s.publish ∈ lists.1.commitments := by
  have hgen := generateCommitmentShareLists_inv B rand csprng participantIndex n
  obtain ⟨L, hL, hsub, hmem⟩ := dropShares_inv hgen drops
  refine ⟨by simp [generateCommitmentShareLists, length_drawCommitmentShares],
    length_drawCommitmentShares B rand n csprng, rfl, rfl, fun s hs => ?_, L, hL, hsub, hmem⟩
  obtain ⟨h1, h2⟩ := (hgen.2 s hs).1
  simp [CommitmentShare.publish, h1, h2]

end Lifecycle

/-! ## The secret list as a multiset of unused shares -/

section Refinement

variable {F G : Type} [DecidableEq F] [DecidableEq G]

/-- The abstract state of a secret list: the multiset of its unused shares. -/
def SecretCommitmentShareList.unused (L : SecretCommitmentShareList F G) :
    Multiset (CommitmentShare F G) :=
  L.commitments

/-- Removing the last share equal to `c` is erasing the first one of the reversed
list. -/
theorem dropShare_eq_erase_reverse (L : SecretCommitmentShareList F G) (c : CommitmentShare F G) :
    L.dropShare c = some ⟨(L.commitments.reverse.erase c).reverse⟩ := by
  by_cases hc : c ∈ L.commitments
  · obtain ⟨l₁, l₂, h, h₂⟩ := exists_last_occurrence hc
    rw [dropShare_eq_of_last h h₂, h, List.reverse_append, List.reverse_cons, List.append_assoc,
      List.erase_append_right _ (List.mem_reverse.not.2 h₂), List.singleton_append,
      List.erase_cons_head]
    simp
  · rw [dropShare_eq_of_not_mem hc, List.erase_of_not_mem (List.mem_reverse.not.2 hc),
      List.reverse_reverse]

/-- The run of drops in closed form: the multiset difference, taken from the end
of the list. -/
theorem dropShares_eq_diff (L : SecretCommitmentShareList F G) (drops : List (CommitmentShare F G)) :
    L.dropShares drops = some ⟨(L.commitments.reverse.diff drops).reverse⟩ := by
  induction drops generalizing L with
  | nil => simp [SecretCommitmentShareList.dropShares]
  | cons c drops ih =>
      rw [SecretCommitmentShareList.dropShares, List.foldlM_cons, dropShare_eq_erase_reverse,
        Option.bind_eq_bind, Option.some_bind, ← SecretCommitmentShareList.dropShares, ih,
        List.reverse_reverse, List.diff_cons]

/-- A run of `drop_share` calls refines multiset subtraction. It never panics;
the shares left are the list's shares minus the dropped ones, counted with
multiplicity, where a share the list does not hold is ignored; they keep their
order; and the order in which the shares are dropped does not matter. -/
theorem dropShares_refines_sub (L : SecretCommitmentShareList F G)
    (drops : List (CommitmentShare F G)) :
    ∃ L', L.dropShares drops = some L' ∧ L'.unused = L.unused - drops ∧
      L'.commitments.Sublist L.commitments ∧
      ∀ drops', drops'.Perm drops → L.dropShares drops' = some L' := by
  refine ⟨_, dropShares_eq_diff L drops, ?_, ?_, fun drops' h => ?_⟩
  · rw [SecretCommitmentShareList.unused, SecretCommitmentShareList.unused, Multiset.coe_reverse,
      ← Multiset.coe_sub, Multiset.coe_reverse]
  · simpa only [List.reverse_reverse] using (List.diff_sublist L.commitments.reverse drops).reverse
  · rw [dropShares_eq_diff, h.diff_left]

end Refinement

/-! ## Wire encodings -/

section Wire

variable {F G : Type} (scalar : Codec F) (point : Codec G)

/-- The derived encoding of `Commitment`: `secret`, then `commit`. -/
def Commitment.codec : Codec (Commitment F G) :=
  (scalar.prod point).map (fun p => ⟨p.1, p.2⟩) (fun c => (c.secret, c.commit))

/-- The derived encoding of `CommitmentShare`: `hiding`, then `binding`. -/
def CommitmentShare.codec : Codec (CommitmentShare F G) :=
  ((Commitment.codec scalar point).prod (Commitment.codec scalar point)).map
    (fun p => ⟨p.1, p.2⟩) (fun c => (c.hiding, c.binding))

/-- `CommitmentShare::to_bytes`. -/
def CommitmentShare.toBytes (self : CommitmentShare F G) : Except Error (List UInt8) :=
  toBytesWith .SerialisationError (CommitmentShare.codec scalar point) self

/-- `CommitmentShare::from_bytes`. -/
def CommitmentShare.fromBytes (bytes : List UInt8) : Except Error (CommitmentShare F G) :=
  fromBytesWith .DeserialisationError (CommitmentShare.codec scalar point) bytes

/-- The derived encoding of `SecretCommitmentShareList`: its `Vec` of shares. -/
def SecretCommitmentShareList.codec : Codec (SecretCommitmentShareList F G) :=
  (Codec.vec (CommitmentShare.codec scalar point)).map (⟨·⟩) (·.commitments)

/-- `SecretCommitmentShareList::to_bytes`. -/
def SecretCommitmentShareList.toBytes (self : SecretCommitmentShareList F G) :
    Except Error (List UInt8) :=
  toBytesWith .SerialisationError (SecretCommitmentShareList.codec scalar point) self

/-- `SecretCommitmentShareList::from_bytes`. -/
def SecretCommitmentShareList.fromBytes (bytes : List UInt8) :
    Except Error (SecretCommitmentShareList F G) :=
  fromBytesWith .DeserialisationError (SecretCommitmentShareList.codec scalar point) bytes

/-- The derived encoding of `PublicCommitmentShareList`: `participant_index`, then
the `Vec` of commitment pairs. -/
def PublicCommitmentShareList.codec : Codec (PublicCommitmentShareList G) :=
  (Codec.u32.prod (Codec.vec (point.prod point))).map (fun p => ⟨p.1, p.2⟩)
    (fun l => (l.participantIndex, l.commitments))

/-- `PublicCommitmentShareList::to_bytes`. -/
def PublicCommitmentShareList.toBytes (self : PublicCommitmentShareList G) :
    Except Error (List UInt8) :=
  toBytesWith .SerialisationError (PublicCommitmentShareList.codec point) self

/-- `PublicCommitmentShareList::from_bytes`. -/
def PublicCommitmentShareList.fromBytes (bytes : List UInt8) :
    Except Error (PublicCommitmentShareList G) :=
  fromBytesWith .DeserialisationError (PublicCommitmentShareList.codec point) bytes

end Wire

end IceFrost
