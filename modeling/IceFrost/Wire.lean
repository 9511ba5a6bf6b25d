import IceFrost.Sign.Precomputation
import IceFrost.Dkg.Participant

/-!
# What the wire types read back

Every wire type writes its derived encoding in `to_bytes` and reads one from the
front of the slice in `from_bytes`. The combinators of `IceFrost.Serialize` give
each codec its properties, one type at a time: it reads back every value (a list
when its length fits in a `u64`), it is canonical when the scalar, point and
proof codecs are, it never looks past the bytes it consumes, and what it reads
depends on those bytes alone.

So `from_bytes` after `to_bytes` gives the value back, and what `from_bytes`
accepts is exactly a complete encoding of the value it returns followed by any
bytes at all. Neither half of that is canonical: the bytes after the encoding
are never looked at, and an encoding of a point that the point reader accepts
without writing it, as the compressed reader of `ark_ec` does at the point at
infinity, is accepted inside every type that holds a point. A strict prefix of
an encoding, on the other hand, is refused on every wire type, and every
participant `new_internal` builds goes through the round trip with no length
condition left.
-/

namespace IceFrost

open Codec

section Codecs

variable {F G Nizk : Type} {scalar : Codec F} {point : Codec G}

theorem DiffieHellmanPrivateKey.codec_canonical (hs : scalar.Canonical) :
    (DiffieHellmanPrivateKey.codec scalar).Canonical :=
  map_canonical hs fun _ => rfl

theorem DiffieHellmanPrivateKey.codec_readsBack (hs : scalar.RoundTrip)
    (x : DiffieHellmanPrivateKey F) : (DiffieHellmanPrivateKey.codec scalar).ReadsBack x :=
  map_readsBack (hs _) rfl

theorem DiffieHellmanPublicKey.codec_canonical (hp : point.Canonical) :
    (DiffieHellmanPublicKey.codec point).Canonical :=
  map_canonical hp fun _ => rfl

theorem DiffieHellmanPublicKey.codec_readsBack (hp : point.RoundTrip)
    (x : DiffieHellmanPublicKey G) : (DiffieHellmanPublicKey.codec point).ReadsBack x :=
  map_readsBack (hp _) rfl

theorem IndividualVerifyingKey.codec_canonical (hp : point.Canonical) :
    (IndividualVerifyingKey.codec point).Canonical :=
  map_canonical (prod_canonical u32_canonical hp) fun _ => rfl

theorem IndividualVerifyingKey.codec_readsBack (hp : point.RoundTrip)
    (x : IndividualVerifyingKey G) : (IndividualVerifyingKey.codec point).ReadsBack x :=
  map_readsBack (prod_readsBack (u32_roundTrip _) (hp _)) rfl

theorem IndividualSigningKey.codec_canonical (hs : scalar.Canonical) :
    (IndividualSigningKey.codec scalar).Canonical :=
  map_canonical (prod_canonical u32_canonical hs) fun _ => rfl

theorem IndividualSigningKey.codec_readsBack (hs : scalar.RoundTrip)
    (x : IndividualSigningKey F) : (IndividualSigningKey.codec scalar).ReadsBack x :=
  map_readsBack (prod_readsBack (u32_roundTrip _) (hs _)) rfl

theorem GroupKey.codec_canonical (hp : point.Canonical) : (GroupKey.codec point).Canonical :=
  map_canonical hp fun _ => rfl

theorem GroupKey.codec_readsBack (hp : point.RoundTrip) (x : GroupKey G) :
    (GroupKey.codec point).ReadsBack x :=
  map_readsBack (hp _) rfl

theorem Commitment.codec_canonical (hs : scalar.Canonical) (hp : point.Canonical) :
    (Commitment.codec scalar point).Canonical :=
  map_canonical (prod_canonical hs hp) fun _ => rfl

theorem Commitment.codec_readsBack (hs : scalar.RoundTrip) (hp : point.RoundTrip)
    (x : Commitment F G) : (Commitment.codec scalar point).ReadsBack x :=
  map_readsBack (prod_readsBack (hs _) (hp _)) rfl

theorem CommitmentShare.codec_canonical (hs : scalar.Canonical) (hp : point.Canonical) :
    (CommitmentShare.codec scalar point).Canonical :=
  map_canonical (prod_canonical (Commitment.codec_canonical hs hp)
    (Commitment.codec_canonical hs hp)) fun _ => rfl

theorem CommitmentShare.codec_readsBack (hs : scalar.RoundTrip) (hp : point.RoundTrip)
    (x : CommitmentShare F G) : (CommitmentShare.codec scalar point).ReadsBack x :=
  map_readsBack (prod_readsBack (Commitment.codec_readsBack hs hp _)
    (Commitment.codec_readsBack hs hp _)) rfl

theorem SecretCommitmentShareList.codec_canonical (hs : scalar.Canonical)
    (hp : point.Canonical) : (SecretCommitmentShareList.codec scalar point).Canonical :=
  map_canonical (vec_canonical (CommitmentShare.codec_canonical hs hp)) fun _ => rfl

theorem SecretCommitmentShareList.codec_readsBack (hs : scalar.RoundTrip) (hp : point.RoundTrip)
    {x : SecretCommitmentShareList F G} (hx : x.commitments.length < 2 ^ 64) :
    (SecretCommitmentShareList.codec scalar point).ReadsBack x :=
  map_readsBack (vec_readsBack (fun a _ => CommitmentShare.codec_readsBack hs hp a) hx) rfl

theorem PublicCommitmentShareList.codec_canonical (hp : point.Canonical) :
    (PublicCommitmentShareList.codec point).Canonical :=
  map_canonical (prod_canonical u32_canonical (vec_canonical (prod_canonical hp hp))) fun _ => rfl

theorem PublicCommitmentShareList.codec_readsBack (hp : point.RoundTrip)
    {x : PublicCommitmentShareList G} (hx : x.commitments.length < 2 ^ 64) :
    (PublicCommitmentShareList.codec point).ReadsBack x :=
  map_readsBack (prod_readsBack (u32_roundTrip _)
    (vec_readsBack (fun _ _ => prod_readsBack (hp _) (hp _)) hx)) rfl

theorem VerifiableSecretSharingCommitment.codec_canonical (hp : point.Canonical) :
    (VerifiableSecretSharingCommitment.codec point).Canonical :=
  map_canonical (prod_canonical u32_canonical (vec_canonical hp)) fun _ => rfl

theorem VerifiableSecretSharingCommitment.codec_readsBack (hp : point.RoundTrip)
    {x : VerifiableSecretSharingCommitment G} (hx : x.points.length < 2 ^ 64) :
    (VerifiableSecretSharingCommitment.codec point).ReadsBack x :=
  map_readsBack (prod_readsBack (u32_roundTrip _) (vec_readsBack (fun _ _ => hp _) hx)) rfl

variable {nizk : Codec Nizk}

theorem Participant.codec_canonical (hp : point.Canonical) (hn : nizk.Canonical) :
    (Participant.codec point nizk).Canonical :=
  map_canonical (prod_canonical u32_canonical (prod_canonical
    (DiffieHellmanPublicKey.codec_canonical hp)
    (prod_canonical (option_canonical (VerifiableSecretSharingCommitment.codec_canonical hp))
      (prod_canonical (option_canonical hn) hn)))) fun _ => rfl

theorem Participant.codec_readsBack (hp : point.RoundTrip) (hn : nizk.RoundTrip)
    {x : Participant G Nizk} (hx : ∀ c ∈ x.commitments, c.points.length < 2 ^ 64) :
    (Participant.codec point nizk).ReadsBack x :=
  map_readsBack (prod_readsBack (u32_roundTrip _) (prod_readsBack
    (DiffieHellmanPublicKey.codec_readsBack hp _)
    (prod_readsBack (option_readsBack fun c hc =>
        VerifiableSecretSharingCommitment.codec_readsBack hp (hx c hc))
      (prod_readsBack (option_readsBack fun a _ => hn a) (hn _))))) rfl

theorem Participant.codec_streaming (hp : point.Streaming) (hn : nizk.Streaming) :
    (Participant.codec point nizk).Streaming :=
  map_streaming (prod_streaming u32_streaming (prod_streaming (map_streaming hp)
    (prod_streaming (option_streaming (map_streaming (prod_streaming u32_streaming
      (vec_streaming hp)))) (prod_streaming (option_streaming hn) hn))))

end Codecs

section Streams

variable {F G : Type} {scalar : Codec F} {point : Codec G}

theorem CommitmentShare.codec_streaming (hs : scalar.Streaming) (hp : point.Streaming) :
    (CommitmentShare.codec scalar point).Streaming :=
  map_streaming (prod_streaming (map_streaming (prod_streaming hs hp))
    (map_streaming (prod_streaming hs hp)))

theorem SecretCommitmentShareList.codec_streaming (hs : scalar.Streaming) (hp : point.Streaming) :
    (SecretCommitmentShareList.codec scalar point).Streaming :=
  map_streaming (vec_streaming (CommitmentShare.codec_streaming hs hp))

theorem PublicCommitmentShareList.codec_streaming (hp : point.Streaming) :
    (PublicCommitmentShareList.codec point).Streaming :=
  map_streaming (prod_streaming u32_streaming (vec_streaming (prod_streaming hp hp)))

theorem IndividualSigningKey.codec_streaming (hs : scalar.Streaming) :
    (IndividualSigningKey.codec scalar).Streaming :=
  map_streaming (prod_streaming u32_streaming hs)

theorem IndividualVerifyingKey.codec_streaming (hp : point.Streaming) :
    (IndividualVerifyingKey.codec point).Streaming :=
  map_streaming (prod_streaming u32_streaming hp)

end Streams

section Prefixes

variable {F G Nizk : Type} {scalar : Codec F} {point : Codec G} {nizk : Codec Nizk}

theorem CommitmentShare.codec_readsPrefix (hs : scalar.ReadsPrefix) (hp : point.ReadsPrefix) :
    (CommitmentShare.codec scalar point).ReadsPrefix :=
  map_readsPrefix (prod_readsPrefix (map_readsPrefix (prod_readsPrefix hs hp))
    (map_readsPrefix (prod_readsPrefix hs hp)))

theorem SecretCommitmentShareList.codec_readsPrefix (hs : scalar.ReadsPrefix)
    (hp : point.ReadsPrefix) : (SecretCommitmentShareList.codec scalar point).ReadsPrefix :=
  map_readsPrefix (vec_readsPrefix (CommitmentShare.codec_readsPrefix hs hp))

theorem PublicCommitmentShareList.codec_readsPrefix (hp : point.ReadsPrefix) :
    (PublicCommitmentShareList.codec point).ReadsPrefix :=
  map_readsPrefix (prod_readsPrefix u32_readsPrefix (vec_readsPrefix (prod_readsPrefix hp hp)))

theorem IndividualSigningKey.codec_readsPrefix (hs : scalar.ReadsPrefix) :
    (IndividualSigningKey.codec scalar).ReadsPrefix :=
  map_readsPrefix (prod_readsPrefix u32_readsPrefix hs)

theorem IndividualVerifyingKey.codec_readsPrefix (hp : point.ReadsPrefix) :
    (IndividualVerifyingKey.codec point).ReadsPrefix :=
  map_readsPrefix (prod_readsPrefix u32_readsPrefix hp)

theorem Participant.codec_readsPrefix (hp : point.ReadsPrefix) (hn : nizk.ReadsPrefix) :
    (Participant.codec point nizk).ReadsPrefix :=
  map_readsPrefix (prod_readsPrefix u32_readsPrefix (prod_readsPrefix (map_readsPrefix hp)
    (prod_readsPrefix (option_readsPrefix (map_readsPrefix (prod_readsPrefix u32_readsPrefix
      (vec_readsPrefix hp)))) (prod_readsPrefix (option_readsPrefix hn) hn))))

end Prefixes

section Bytes

variable {F G Nizk : Type} (scalar : Codec F) (point : Codec G) (nizk : Codec Nizk)

/-- `from_bytes` inverts `to_bytes` on every wire type, with lists of any
length a `u64` holds and a participant's optional fields present or absent,
when the scalar, point and proof codecs read back. -/
theorem wire_types_round_trip (hscalar : scalar.RoundTrip) (hpoint : point.RoundTrip)
    (hnizk : nizk.RoundTrip) :
    (∀ x : CommitmentShare F G, ∃ b, x.toBytes scalar point = .ok b ∧
      CommitmentShare.fromBytes scalar point b = .ok x) ∧
    (∀ x : SecretCommitmentShareList F G, x.commitments.length < 2 ^ 64 → ∃ b,
      x.toBytes scalar point = .ok b ∧ SecretCommitmentShareList.fromBytes scalar point b = .ok x) ∧
    (∀ x : PublicCommitmentShareList G, x.commitments.length < 2 ^ 64 → ∃ b,
      x.toBytes point = .ok b ∧ PublicCommitmentShareList.fromBytes point b = .ok x) ∧
    (∀ x : IndividualSigningKey F, ∃ b, x.toBytes scalar = .ok b ∧
      IndividualSigningKey.fromBytes scalar b = .ok x) ∧
    (∀ x : IndividualVerifyingKey G, ∃ b, x.toBytes point = .ok b ∧
      IndividualVerifyingKey.fromBytes point b = .ok x) ∧
    (∀ x : GroupKey G, ∃ b, x.toBytes point = .ok b ∧ GroupKey.fromBytes point b = .ok x) ∧
    (∀ x : DiffieHellmanPublicKey G, ∃ b, x.toBytes point = .ok b ∧
      DiffieHellmanPublicKey.fromBytes point b = .ok x) ∧
    (∀ x : DiffieHellmanPrivateKey F, ∃ b, x.toBytes scalar = .ok b ∧
      DiffieHellmanPrivateKey.fromBytes scalar b = .ok x) ∧
    (∀ x : Participant G Nizk, (∀ c ∈ x.commitments, c.points.length < 2 ^ 64) → ∃ b,
      x.toBytes point nizk = .ok b ∧ Participant.fromBytes point nizk b = .ok x) :=
  ⟨fun x => fromBytesWith_toBytesWith (CommitmentShare.codec_readsBack hscalar hpoint x),
    fun _ hx => fromBytesWith_toBytesWith (SecretCommitmentShareList.codec_readsBack hscalar hpoint hx),
    fun _ hx => fromBytesWith_toBytesWith (PublicCommitmentShareList.codec_readsBack hpoint hx),
    fun x => fromBytesWith_toBytesWith (IndividualSigningKey.codec_readsBack hscalar x),
    fun x => fromBytesWith_toBytesWith (IndividualVerifyingKey.codec_readsBack hpoint x),
    fun x => fromBytesWith_toBytesWith (GroupKey.codec_readsBack hpoint x),
    fun x => fromBytesWith_toBytesWith (DiffieHellmanPublicKey.codec_readsBack hpoint x),
    fun x => fromBytesWith_toBytesWith (DiffieHellmanPrivateKey.codec_readsBack hscalar x),
    fun _ hx => fromBytesWith_toBytesWith (Participant.codec_readsBack hpoint hnizk hx)⟩

theorem wire_types_round_trip_u32 :
    u32.RoundTrip ∧
    (∀ x : CommitmentShare UInt32 UInt32, ∃ b, x.toBytes u32 u32 = .ok b ∧
      CommitmentShare.fromBytes u32 u32 b = .ok x) ∧
    (∀ x : SecretCommitmentShareList UInt32 UInt32, x.commitments.length < 2 ^ 64 → ∃ b,
      x.toBytes u32 u32 = .ok b ∧ SecretCommitmentShareList.fromBytes u32 u32 b = .ok x) ∧
    (∀ x : PublicCommitmentShareList UInt32, x.commitments.length < 2 ^ 64 → ∃ b,
      x.toBytes u32 = .ok b ∧ PublicCommitmentShareList.fromBytes u32 b = .ok x) ∧
    (∀ x : IndividualSigningKey UInt32, ∃ b, x.toBytes u32 = .ok b ∧
      IndividualSigningKey.fromBytes u32 b = .ok x) ∧
    (∀ x : IndividualVerifyingKey UInt32, ∃ b, x.toBytes u32 = .ok b ∧
      IndividualVerifyingKey.fromBytes u32 b = .ok x) ∧
    (∀ x : GroupKey UInt32, ∃ b, x.toBytes u32 = .ok b ∧ GroupKey.fromBytes u32 b = .ok x) ∧
    (∀ x : DiffieHellmanPublicKey UInt32, ∃ b, x.toBytes u32 = .ok b ∧
      DiffieHellmanPublicKey.fromBytes u32 b = .ok x) ∧
    (∀ x : DiffieHellmanPrivateKey UInt32, ∃ b, x.toBytes u32 = .ok b ∧
      DiffieHellmanPrivateKey.fromBytes u32 b = .ok x) ∧
    (∀ x : Participant UInt32 UInt32, (∀ c ∈ x.commitments, c.points.length < 2 ^ 64) → ∃ b,
      x.toBytes u32 u32 = .ok b ∧ Participant.fromBytes u32 u32 b = .ok x) :=
  ⟨u32_roundTrip, wire_types_round_trip u32 u32 u32 u32_roundTrip u32_roundTrip u32_roundTrip⟩

/-- What `from_bytes` accepts, on every wire type: a complete encoding of the
value it returns, as the type's derived reader reads it, followed by any bytes
at all. So an encoding of a scalar, point or proof that its own reader accepts
without writing it is accepted inside every type that holds one. The derived
layers add no such encodings of their own: when the scalar, point and proof
readers are canonical, so is the reader of every wire type. -/
theorem fromBytes_eq_ok_iff_encoding (hscalar : scalar.ReadsPrefix) (hpoint : point.ReadsPrefix)
    (hnizk : nizk.ReadsPrefix) (b : List UInt8) :
    (∀ x : CommitmentShare F G, CommitmentShare.fromBytes scalar point b = .ok x ↔
      ∃ e rest, b = e ++ rest ∧ (CommitmentShare.codec scalar point).deserialize e = some (x, [])) ∧
    (∀ x : SecretCommitmentShareList F G, SecretCommitmentShareList.fromBytes scalar point b = .ok x ↔
      ∃ e rest, b = e ++ rest ∧
        (SecretCommitmentShareList.codec scalar point).deserialize e = some (x, [])) ∧
    (∀ x : PublicCommitmentShareList G, PublicCommitmentShareList.fromBytes point b = .ok x ↔
      ∃ e rest, b = e ++ rest ∧ (PublicCommitmentShareList.codec point).deserialize e = some (x, [])) ∧
    (∀ x : IndividualSigningKey F, IndividualSigningKey.fromBytes scalar b = .ok x ↔
      ∃ e rest, b = e ++ rest ∧ (IndividualSigningKey.codec scalar).deserialize e = some (x, [])) ∧
    (∀ x : IndividualVerifyingKey G, IndividualVerifyingKey.fromBytes point b = .ok x ↔
      ∃ e rest, b = e ++ rest ∧ (IndividualVerifyingKey.codec point).deserialize e = some (x, [])) ∧
    (∀ x : GroupKey G, GroupKey.fromBytes point b = .ok x ↔
      ∃ e rest, b = e ++ rest ∧ (GroupKey.codec point).deserialize e = some (x, [])) ∧
    (∀ x : DiffieHellmanPublicKey G, DiffieHellmanPublicKey.fromBytes point b = .ok x ↔
      ∃ e rest, b = e ++ rest ∧ (DiffieHellmanPublicKey.codec point).deserialize e = some (x, [])) ∧
    (∀ x : DiffieHellmanPrivateKey F, DiffieHellmanPrivateKey.fromBytes scalar b = .ok x ↔
      ∃ e rest, b = e ++ rest ∧ (DiffieHellmanPrivateKey.codec scalar).deserialize e = some (x, [])) ∧
    (∀ x : Participant G Nizk, Participant.fromBytes point nizk b = .ok x ↔
      ∃ e rest, b = e ++ rest ∧ (Participant.codec point nizk).deserialize e = some (x, [])) ∧
    (scalar.Canonical → point.Canonical → nizk.Canonical →
      (CommitmentShare.codec scalar point).Canonical ∧
      (SecretCommitmentShareList.codec scalar point).Canonical ∧
      (PublicCommitmentShareList.codec point).Canonical ∧
      (IndividualSigningKey.codec scalar).Canonical ∧ (IndividualVerifyingKey.codec point).Canonical ∧
      (GroupKey.codec point).Canonical ∧ (DiffieHellmanPublicKey.codec point).Canonical ∧
      (DiffieHellmanPrivateKey.codec scalar).Canonical ∧ (Participant.codec point nizk).Canonical) :=
  ⟨fromBytesWith_eq_ok_iff (CommitmentShare.codec_readsPrefix hscalar hpoint) b,
    fromBytesWith_eq_ok_iff (SecretCommitmentShareList.codec_readsPrefix hscalar hpoint) b,
    fromBytesWith_eq_ok_iff (PublicCommitmentShareList.codec_readsPrefix hpoint) b,
    fromBytesWith_eq_ok_iff (IndividualSigningKey.codec_readsPrefix hscalar) b,
    fromBytesWith_eq_ok_iff (IndividualVerifyingKey.codec_readsPrefix hpoint) b,
    fromBytesWith_eq_ok_iff (map_readsPrefix hpoint) b,
    fromBytesWith_eq_ok_iff (map_readsPrefix hpoint) b,
    fromBytesWith_eq_ok_iff (map_readsPrefix hscalar) b,
    fromBytesWith_eq_ok_iff (Participant.codec_readsPrefix hpoint hnizk) b,
    fun hs hp hn => ⟨CommitmentShare.codec_canonical hs hp,
      SecretCommitmentShareList.codec_canonical hs hp, PublicCommitmentShareList.codec_canonical hp,
      IndividualSigningKey.codec_canonical hs, IndividualVerifyingKey.codec_canonical hp,
      GroupKey.codec_canonical hp, DiffieHellmanPublicKey.codec_canonical hp,
      DiffieHellmanPrivateKey.codec_canonical hs, Participant.codec_canonical hp hn⟩⟩

/-- A point reader that behaves as the compressed reader of `ark_ec` does at the
point at infinity: a byte with the infinity flag (bit 6) set reads as the
identity whatever its other bits, and the identity is written with that bit
alone. -/
def infinityFlagPoint : Codec Unit where
  serialize _ := [64]
  deserialize
    | y :: r => if y / 64 % 2 = 1 then some ((), r) else none
    | [] => none

/-- With that point reader, `from_bytes` reads the verifying key of participant
`7` from bytes whose point byte is not the one `to_bytes` writes and which run
on past the key. -/
theorem fromBytes_eq_ok_iff_encoding_infinity_flag :
    u32.ReadsPrefix ∧ infinityFlagPoint.ReadsPrefix ∧
    IndividualVerifyingKey.fromBytes infinityFlagPoint [7, 0, 0, 0, 65, 9] = .ok ⟨7, ()⟩ ∧
    IndividualVerifyingKey.toBytes infinityFlagPoint ⟨7, ()⟩ = .ok [7, 0, 0, 0, 64] :=
  have hflag : infinityFlagPoint.ReadsPrefix := by
    rintro (_ | ⟨y, r⟩) x rest h
    · cases h
    · simp only [infinityFlagPoint] at h
      split_ifs at h with hy
      cases h
      exact ⟨[y], rfl, fun more => by simp [infinityFlagPoint, hy]⟩
  ⟨u32_readsPrefix, hflag,
    ((fromBytes_eq_ok_iff_encoding u32 infinityFlagPoint u32 u32_readsPrefix hflag u32_readsPrefix
      [7, 0, 0, 0, 65, 9]).2.2.2.2.1 ⟨7, ()⟩).2 ⟨[7, 0, 0, 0, 65], [9], rfl, rfl⟩, rfl⟩

/-- The twelve bytes of an empty public share list of participant `0`, followed
by one more byte, are read as that list: `from_bytes` does not reject trailing
bytes. The point codec is never reached. -/
theorem fromBytes_ignores_trailing_bytes :
    PublicCommitmentShareList.toBytes u32 ⟨0, []⟩ = .ok (List.replicate 12 0) ∧
    PublicCommitmentShareList.fromBytes u32 (List.replicate 12 0 ++ [1]) = .ok ⟨0, []⟩ ∧
    PublicCommitmentShareList.toBytes u32 ⟨0, []⟩ ≠ .ok (List.replicate 12 0 ++ [1]) :=
  have he : PublicCommitmentShareList.toBytes u32 ⟨0, []⟩ = .ok (List.replicate 12 0) := rfl
  ⟨he, rfl, fun h => by simpa using congrArg List.length (Except.ok.inj (he.symm.trans h))⟩

/-- `from_bytes` refuses every truncated encoding: on every wire type, a strict
prefix of what `to_bytes` writes for a value is rejected with the type's
deserialisation error, when the scalar, point and proof codecs read back every
value and never look past the bytes they consume. -/
theorem fromBytes_rejects_truncated (hscalar : scalar.RoundTrip) (hpoint : point.RoundTrip)
    (hnizk : nizk.RoundTrip) (hs : scalar.Streaming) (hp : point.Streaming)
    (hn : nizk.Streaming) (b more : List UInt8) (hmore : more ≠ []) :
    (∀ x : CommitmentShare F G, x.toBytes scalar point = .ok (b ++ more) →
      CommitmentShare.fromBytes scalar point b = .error .DeserialisationError) ∧
    (∀ x : SecretCommitmentShareList F G, x.commitments.length < 2 ^ 64 →
      x.toBytes scalar point = .ok (b ++ more) →
      SecretCommitmentShareList.fromBytes scalar point b = .error .DeserialisationError) ∧
    (∀ x : PublicCommitmentShareList G, x.commitments.length < 2 ^ 64 →
      x.toBytes point = .ok (b ++ more) →
      PublicCommitmentShareList.fromBytes point b = .error .DeserialisationError) ∧
    (∀ x : IndividualSigningKey F, x.toBytes scalar = .ok (b ++ more) →
      IndividualSigningKey.fromBytes scalar b = .error .DeserialisationError) ∧
    (∀ x : IndividualVerifyingKey G, x.toBytes point = .ok (b ++ more) →
      IndividualVerifyingKey.fromBytes point b = .error .DeserialisationError) ∧
    (∀ x : GroupKey G, x.toBytes point = .ok (b ++ more) →
      GroupKey.fromBytes point b = .error .DeserialisationError) ∧
    (∀ x : DiffieHellmanPublicKey G, x.toBytes point = .ok (b ++ more) →
      DiffieHellmanPublicKey.fromBytes point b = .error .DeserialisationError) ∧
    (∀ x : DiffieHellmanPrivateKey F, x.toBytes scalar = .ok (b ++ more) →
      DiffieHellmanPrivateKey.fromBytes scalar b = .error .DeserialisationError) ∧
    (∀ x : Participant G Nizk, (∀ c ∈ x.commitments, c.points.length < 2 ^ 64) →
      x.toBytes point nizk = .ok (b ++ more) →
      Participant.fromBytes point nizk b = .error .DeserializationError) :=
  ⟨fun x h => fromBytesWith_truncated (CommitmentShare.codec_streaming hs hp)
      (CommitmentShare.codec_readsBack hscalar hpoint x) h hmore,
    fun _ hx h => fromBytesWith_truncated (SecretCommitmentShareList.codec_streaming hs hp)
      (SecretCommitmentShareList.codec_readsBack hscalar hpoint hx) h hmore,
    fun _ hx h => fromBytesWith_truncated (PublicCommitmentShareList.codec_streaming hp)
      (PublicCommitmentShareList.codec_readsBack hpoint hx) h hmore,
    fun x h => fromBytesWith_truncated (IndividualSigningKey.codec_streaming hs)
      (IndividualSigningKey.codec_readsBack hscalar x) h hmore,
    fun x h => fromBytesWith_truncated (IndividualVerifyingKey.codec_streaming hp)
      (IndividualVerifyingKey.codec_readsBack hpoint x) h hmore,
    fun x h => fromBytesWith_truncated (map_streaming hp) (GroupKey.codec_readsBack hpoint x) h hmore,
    fun x h => fromBytesWith_truncated (map_streaming hp)
      (DiffieHellmanPublicKey.codec_readsBack hpoint x) h hmore,
    fun x h => fromBytesWith_truncated (map_streaming hs)
      (DiffieHellmanPrivateKey.codec_readsBack hscalar x) h hmore,
    fun _ hx h => fromBytesWith_truncated (Participant.codec_streaming hp hn)
      (Participant.codec_readsBack hpoint hnizk hx) h hmore⟩

/-- The eight bytes of the signing key `⟨7, 5⟩` with the last one cut off are
refused. -/
theorem fromBytes_rejects_truncated_signing_key :
    u32.RoundTrip ∧ u32.Streaming ∧ ([0] : List UInt8) ≠ [] ∧
    IndividualSigningKey.toBytes u32 ⟨7, 5⟩ = .ok ([7, 0, 0, 0, 5, 0, 0] ++ [0]) ∧
    IndividualSigningKey.fromBytes u32 [7, 0, 0, 0, 5, 0, 0] = .error .DeserialisationError :=
  have htrunc : IndividualSigningKey.toBytes u32 ⟨7, 5⟩ = .ok ([7, 0, 0, 0, 5, 0, 0] ++ [0]) := rfl
  ⟨u32_roundTrip, u32_streaming, List.cons_ne_nil 0 [], htrunc,
    (fromBytes_rejects_truncated u32 u32 u32 u32_roundTrip u32_roundTrip u32_roundTrip
      u32_streaming u32_streaming u32_streaming _ _ (List.cons_ne_nil 0 [])).2.2.2.1 _ htrunc⟩

end Bytes

section Construction

variable {F G Nizk ρ : Type} [Field F] [AddCommGroup G] [Module F G] (point : Codec G)
  (nizk : Codec Nizk)

/-- Every participant `new_internal` builds goes through `to_bytes` and
`from_bytes` unchanged, with no bound to check: its commitment has `t` points,
and `t` is a `u32`. -/
theorem newInternal_round_trip (hpoint : point.RoundTrip) (hnizk : nizk.RoundTrip) {B : G}
    {rand : ρ → F × ρ} {prove : UInt32 → F → G → ρ → Except Error Nizk × ρ}
    {parameters : ThresholdParameters} {isSigner : Bool} {index : UInt32} {secretKey : Option F}
    {rng : ρ} {r : Participant G Nizk × Option (Coefficients F) × DiffieHellmanPrivateKey F × ρ}
    (h : Participant.newInternal B rand prove parameters isSigner index secretKey rng = some r) :
    ∃ b, r.1.toBytes point nizk = .ok b ∧ Participant.fromBytes point nizk b = .ok r.1 := by
  have hbound : ∀ c ∈ r.1.commitments, c.points.length < 2 ^ 64 := by
    obtain ⟨-, -, -, hsigner, hdealer⟩ := newInternal_eq_some h
    intro c hc
    cases isSigner with
    | true => simp [(hsigner rfl).2.1] at hc
    | false =>
        obtain ⟨a, -, hlen, -, hcomm, -⟩ := hdealer rfl
        rw [hcomm, Option.mem_some_iff] at hc
        subst hc
        have ht : parameters.t.toNat < 2 ^ 32 := parameters.t.toNat_lt_size
        simp only [List.length_map, hlen]
        omega
  exact fromBytesWith_toBytesWith (Participant.codec_readsBack hpoint hnizk hbound)

/-- Points of `ZMod 3` written as `u32`s, for the round trip below. -/
theorem newInternal_round_trip_zmod :
    (Codec.map u32 (fun n => (n.toNat : ZMod 3)) fun z => UInt32.ofNat z.val).RoundTrip ∧
    u32.RoundTrip ∧
    Participant.newInternal (1 : ZMod 3) (fun _ : Unit => ((2 : ZMod 3), ()))
        (fun _ _ _ r => (.ok (5 : UInt32), r)) ⟨2, 2⟩ false 1 none () =
      some (⟨1, ⟨(2 : ZMod 3) • (1 : ZMod 3)⟩, some ⟨1, [(2 : ZMod 3) • (1 : ZMod 3), (2 : ZMod 3) • 1]⟩,
        some 5, 5⟩, some ⟨[2, 2]⟩, ⟨2⟩, ()) ∧
    ∃ b, (⟨1, ⟨(2 : ZMod 3) • (1 : ZMod 3)⟩, some ⟨1, [(2 : ZMod 3) • (1 : ZMod 3), (2 : ZMod 3) • 1]⟩,
        some 5, 5⟩ : Participant (ZMod 3) UInt32).toBytes
        (Codec.map u32 (fun n => (n.toNat : ZMod 3)) fun z => UInt32.ofNat z.val) u32 = .ok b ∧
      Participant.fromBytes (Codec.map u32 (fun n => (n.toNat : ZMod 3)) fun z => UInt32.ofNat z.val)
        u32 b = .ok ⟨1, ⟨(2 : ZMod 3) • (1 : ZMod 3)⟩,
          some ⟨1, [(2 : ZMod 3) • (1 : ZMod 3), (2 : ZMod 3) • 1]⟩, some 5, 5⟩ :=
  have hpoint : (Codec.map u32 (fun n => (n.toNat : ZMod 3)) fun z => UInt32.ofNat z.val).RoundTrip :=
    fun z => map_readsBack (u32_roundTrip _) (by revert z; decide)
  have h : Participant.newInternal (1 : ZMod 3) (fun _ : Unit => ((2 : ZMod 3), ()))
      (fun _ _ _ r => (.ok (5 : UInt32), r)) ⟨2, 2⟩ false 1 none () =
        some (⟨1, ⟨(2 : ZMod 3) • (1 : ZMod 3)⟩,
          some ⟨1, [(2 : ZMod 3) • (1 : ZMod 3), (2 : ZMod 3) • 1]⟩, some 5, 5⟩, some ⟨[2, 2]⟩, ⟨2⟩, ()) :=
    rfl
  have hround := newInternal_round_trip _ _ hpoint u32_roundTrip h
  ⟨hpoint, u32_roundTrip, h, hround⟩

end Construction

end IceFrost
