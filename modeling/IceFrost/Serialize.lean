import IceFrost.Basic

/-!
# The derived `CanonicalSerialize` and `CanonicalDeserialize` encodings

Every wire type of the crate derives its encoding from `ark_serialize`, and
every `from_bytes` hands the whole byte slice to `deserialize_compressed`. A
`Codec` is such an encoding: `serialize` writes a value, and `deserialize` reads
one value from the front of a byte string and returns the bytes it did not
read. `ark_serialize` never looks at those: a slice that continues past a valid
encoding is still accepted.

The encoders follow `ark_serialize`: a structure writes its fields in order, a
`u32` is four little-endian bytes, a `bool` is one byte `0` or `1`, an `Option`
is that byte followed by the value when present, and a `Vec` is its length as
eight little-endian bytes followed by its elements. Scalars, points and the
types defined outside the modelled files come as parameters. Each combinator
keeps four properties of its parts: `ReadsBack` (what is written for a value
reads back, with any trailing bytes left over; a `Vec` also needs its length to
fit in a `u64`), `Canonical` (what is read is exactly what would be written for
it), `Streaming` (a read never looks past the bytes it consumes) and
`ReadsPrefix` (what is read depends on the consumed bytes alone). A streaming
reader refuses every truncated encoding (`fromBytesWith_truncated`), and a
reader of a prefix makes `from_bytes` accept exactly the encodings it reads,
followed by anything (`fromBytesWith_eq_ok_iff`).
-/

namespace IceFrost

/-- The compressed encoding of a type. Writing into a `Vec<u8>` cannot fail,
so `serialize` is total; `none` is any `SerializationError` of the reader. -/
structure Codec (α : Type) where
  serialize : α → List UInt8
  deserialize : List UInt8 → Option (α × List UInt8)

namespace Codec

variable {α β : Type}

/-- What is written for `x` reads back as `x`, whatever follows it. -/
def ReadsBack (c : Codec α) (x : α) : Prop :=
  ∀ rest, c.deserialize (c.serialize x ++ rest) = some (x, rest)

/-- Every value reads back. -/
def RoundTrip (c : Codec α) : Prop :=
  ∀ x, c.ReadsBack x

/-- The bytes a successful read consumes are the encoding of the value read. -/
def Canonical (c : Codec α) : Prop :=
  ∀ b x rest, c.deserialize b = some (x, rest) → b = c.serialize x ++ rest

/-- A read never looks past the bytes it consumes: more bytes after the input
are left over after the bytes it left before. `ark_serialize` reads from a
`Read` stream, which gives every reader this property. -/
def Streaming (c : Codec α) : Prop :=
  ∀ b x rest more, c.deserialize b = some (x, rest) →
    c.deserialize (b ++ more) = some (x, rest ++ more)

/-- A read consumes a prefix of its input and looks at nothing else: that prefix
followed by any bytes reads the same value, with those bytes left over. Every
reader of a `Read` stream has this property, canonical or not. -/
def ReadsPrefix (c : Codec α) : Prop :=
  ∀ b x rest, c.deserialize b = some (x, rest) →
    ∃ e, b = e ++ rest ∧ ∀ more, c.deserialize (e ++ more) = some (x, more)

/-- A canonical reader that reads back consumes exactly the encoding it returns. -/
theorem readsPrefix_of_canonical {c : Codec α} (hc : c.Canonical) (hr : c.RoundTrip) :
    c.ReadsPrefix :=
  fun b x rest h => ⟨c.serialize x, hc b x rest h, hr x⟩

/-! ## Fixed-width integers -/

/-- The `n` little-endian bytes of `v mod 256^n`. -/
def leBytes : Nat → Nat → List UInt8
  | 0, _ => []
  | n + 1, v => UInt8.ofNat (v % 256) :: leBytes n (v / 256)

/-- Read an `n`-byte little-endian number. -/
def readLe : Nat → List UInt8 → Option (Nat × List UInt8)
  | 0, b => some (0, b)
  | _ + 1, [] => none
  | n + 1, x :: b => (readLe n b).map fun r => (x.toNat + 256 * r.1, r.2)

theorem toNat_byte (v : Nat) : (UInt8.ofNat v).toNat = v % 256 := rfl

theorem byte_toNat (x : UInt8) : UInt8.ofNat x.toNat = x :=
  UInt8.toNat.inj (by rw [toNat_byte]; exact Nat.mod_eq_of_lt x.toNat_lt_size)

theorem readLe_leBytes (n v : Nat) (rest : List UInt8) :
    readLe n (leBytes n v ++ rest) = some (v % 256 ^ n, rest) := by
  induction n generalizing v with
  | zero => simp [readLe, leBytes, Nat.mod_one]
  | succ n ih =>
      rw [leBytes, List.cons_append, readLe, ih, Option.map_some', toNat_byte, Nat.mod_mod,
        pow_succ', Nat.mod_mul]

theorem readLe_spec {n : Nat} {b : List UInt8} {v : Nat} {rest : List UInt8}
    (h : readLe n b = some (v, rest)) : v < 256 ^ n ∧ b = leBytes n v ++ rest := by
  induction n generalizing b v with
  | zero =>
      simp only [readLe, Option.some.injEq, Prod.mk.injEq] at h
      simp [← h.1, ← h.2, leBytes]
  | succ n ih =>
      match b, h with
      | x :: b, h =>
          obtain ⟨⟨w, r⟩, hr, hv⟩ := Option.map_eq_some'.1 h
          simp only [Prod.mk.injEq] at hv
          obtain ⟨rfl, rfl⟩ := hv
          obtain ⟨hw, rfl⟩ := ih hr
          have hx : x.toNat < 256 := x.toNat_lt_size
          have hlo : (x.toNat + 256 * w) % 256 = x.toNat := by omega
          have hhi : (x.toNat + 256 * w) / 256 = w := by omega
          refine ⟨by rw [pow_succ']; omega, ?_⟩
          rw [leBytes, hlo, hhi, byte_toNat, List.cons_append]

theorem readLe_append {n : Nat} {b : List UInt8} {v : Nat} {rest : List UInt8}
    (h : readLe n b = some (v, rest)) (more : List UInt8) :
    readLe n (b ++ more) = some (v, rest ++ more) := by
  induction n generalizing b v rest with
  | zero =>
      simp only [readLe, Option.some.injEq, Prod.mk.injEq] at h
      obtain ⟨rfl, rfl⟩ := h
      rfl
  | succ n ih =>
      match b, h with
      | x :: b, h =>
          obtain ⟨⟨w, r⟩, hr, hv⟩ := Option.map_eq_some'.1 h
          simp only [Prod.mk.injEq] at hv
          obtain ⟨rfl, rfl⟩ := hv
          rw [List.cons_append, readLe, ih hr]
          rfl

/-- A `u32`: four little-endian bytes. -/
def u32 : Codec UInt32 where
  serialize x := leBytes 4 x.toNat
  deserialize b := (readLe 4 b).map fun r => (UInt32.ofNat r.1, r.2)

theorem u32_roundTrip : u32.RoundTrip := by
  intro x rest
  have hx : x.toNat < 256 ^ 4 := x.toNat_lt_size
  simp only [u32, readLe_leBytes, Nat.mod_eq_of_lt hx, Option.map_some']
  rw [UInt32.toNat.inj (UInt32.toNat_ofNat_of_lt hx)]

theorem u32_canonical : u32.Canonical := by
  intro b x rest h
  obtain ⟨⟨v, r⟩, hr, hx⟩ := Option.map_eq_some'.1 h
  simp only [Prod.mk.injEq] at hx
  obtain ⟨hv, hb⟩ := readLe_spec hr
  rw [hb, ← hx.1, ← hx.2]
  simp only [u32]
  rw [UInt32.toNat_ofNat_of_lt hv]

theorem u32_streaming : u32.Streaming := by
  intro b x rest more h
  obtain ⟨⟨v, r⟩, hr, hx⟩ := Option.map_eq_some'.1 h
  simp only [Prod.mk.injEq] at hx
  obtain ⟨rfl, rfl⟩ := hx
  simp only [u32, readLe_append hr, Option.map_some']

theorem u32_readsPrefix : u32.ReadsPrefix :=
  readsPrefix_of_canonical u32_canonical u32_roundTrip

/-- A `bool`: one byte, `0` or `1`; any other byte is `InvalidData`. -/
def bool : Codec Bool where
  serialize b := [if b then 1 else 0]
  deserialize
    | x :: r => if x = 0 then some (false, r) else if x = 1 then some (true, r) else none
    | [] => none

theorem bool_roundTrip : bool.RoundTrip := by
  intro x rest
  cases x <;> rfl

theorem bool_canonical : bool.Canonical := by
  intro b x rest h
  match b, h with
  | y :: r, h =>
      simp only [bool] at h
      split_ifs at h with h0 h1 <;> simp only [Option.some.injEq, Prod.mk.injEq] at h
      · simp [bool, h0, ← h.1, h.2]
      · simp [bool, h1, ← h.1, h.2]

theorem bool_streaming : bool.Streaming := by
  intro b x rest more h
  match b, h with
  | y :: r, h =>
      simp only [bool] at h
      split_ifs at h with h0 h1 <;> simp only [Option.some.injEq, Prod.mk.injEq, reduceCtorEq] at h
      · obtain ⟨rfl, rfl⟩ := h
        simp [bool, h0]
      · obtain ⟨rfl, rfl⟩ := h
        simp [bool, h0, h1]

/-! ## Structures, options and vectors -/

/-- Two fields written one after the other. -/
def prod (ca : Codec α) (cb : Codec β) : Codec (α × β) where
  serialize x := ca.serialize x.1 ++ cb.serialize x.2
  deserialize b := (ca.deserialize b).bind fun r =>
    (cb.deserialize r.2).map fun s => ((r.1, s.1), s.2)

theorem prod_readsBack {ca : Codec α} {cb : Codec β} {a : α} {b : β} (ha : ca.ReadsBack a)
    (hb : cb.ReadsBack b) : (prod ca cb).ReadsBack (a, b) := by
  intro rest
  simp [prod, List.append_assoc, ha _, hb _]

theorem prod_canonical {ca : Codec α} {cb : Codec β} (ha : ca.Canonical) (hb : cb.Canonical) :
    (prod ca cb).Canonical := by
  intro b x rest h
  obtain ⟨⟨a, r⟩, hr, h⟩ := Option.bind_eq_some.1 h
  obtain ⟨⟨c, s⟩, hs, h⟩ := Option.map_eq_some'.1 h
  simp only [Prod.mk.injEq] at h
  obtain ⟨rfl, rfl⟩ := h
  rw [ha _ _ _ hr, hb r c s hs]
  simp [prod]

theorem prod_streaming {ca : Codec α} {cb : Codec β} (ha : ca.Streaming) (hb : cb.Streaming) :
    (prod ca cb).Streaming := by
  intro b x rest more h
  obtain ⟨⟨a, r⟩, hr, h⟩ := Option.bind_eq_some.1 h
  obtain ⟨⟨c, s⟩, hs, h⟩ := Option.map_eq_some'.1 h
  simp only [Prod.mk.injEq] at h
  obtain ⟨rfl, rfl⟩ := h
  simp only [prod, ha _ _ _ more hr, Option.some_bind, hb _ _ _ more hs, Option.map_some']

theorem prod_readsPrefix {ca : Codec α} {cb : Codec β} (ha : ca.ReadsPrefix)
    (hb : cb.ReadsPrefix) : (prod ca cb).ReadsPrefix := by
  intro b x rest h
  obtain ⟨⟨a, r⟩, hr, h⟩ := Option.bind_eq_some.1 h
  obtain ⟨⟨c, s⟩, hs, h⟩ := Option.map_eq_some'.1 h
  simp only [Prod.mk.injEq] at h
  obtain ⟨rfl, rfl⟩ := h
  obtain ⟨e₁, rfl, he₁⟩ := ha _ _ _ hr
  obtain ⟨e₂, rfl, he₂⟩ := hb _ _ _ hs
  refine ⟨e₁ ++ e₂, (List.append_assoc _ _ _).symm, fun more => ?_⟩
  simp only [prod, List.append_assoc, he₁, Option.some_bind, he₂, Option.map_some']

/-- A value read through a codec of another type: the derived encoding of a
structure is that of the tuple of its fields. -/
def map (c : Codec α) (f : α → β) (g : β → α) : Codec β where
  serialize y := c.serialize (g y)
  deserialize b := (c.deserialize b).map fun r => (f r.1, r.2)

theorem map_readsBack {c : Codec α} {f : α → β} {g : β → α} {y : β} (hc : c.ReadsBack (g y))
    (hfg : f (g y) = y) : (map c f g).ReadsBack y := by
  intro rest
  simp [map, hc rest, hfg]

theorem map_canonical {c : Codec α} {f : α → β} {g : β → α} (hc : c.Canonical)
    (hgf : ∀ x, g (f x) = x) : (map c f g).Canonical := by
  intro b y rest h
  obtain ⟨⟨x, r⟩, hr, h⟩ := Option.map_eq_some'.1 h
  simp only [Prod.mk.injEq] at h
  rw [hc _ _ _ hr, ← h.1, ← h.2]
  simp [map, hgf]

theorem map_streaming {c : Codec α} {f : α → β} {g : β → α} (hc : c.Streaming) :
    (map c f g).Streaming := by
  intro b y rest more h
  obtain ⟨⟨x, r⟩, hr, h⟩ := Option.map_eq_some'.1 h
  simp only [Prod.mk.injEq] at h
  obtain ⟨rfl, rfl⟩ := h
  simp only [map, hc _ _ _ more hr, Option.map_some']

theorem map_readsPrefix {c : Codec α} {f : α → β} {g : β → α} (hc : c.ReadsPrefix) :
    (map c f g).ReadsPrefix := by
  intro b y rest h
  obtain ⟨⟨x, r⟩, hr, h⟩ := Option.map_eq_some'.1 h
  simp only [Prod.mk.injEq] at h
  obtain ⟨rfl, rfl⟩ := h
  obtain ⟨e, rfl, he⟩ := hc _ _ _ hr
  exact ⟨e, rfl, fun more => by simp only [map, he, Option.map_some']⟩

/-- An `Option`: the `bool` of `is_some`, then the value when there is one. -/
def option (c : Codec α) : Codec (Option α) where
  serialize
    | none => bool.serialize false
    | some x => bool.serialize true ++ c.serialize x
  deserialize b := (bool.deserialize b).bind fun r =>
    if r.1 then (c.deserialize r.2).map fun s => (some s.1, s.2) else some (none, r.2)

theorem option_readsBack {c : Codec α} {x : Option α} (hc : ∀ a ∈ x, c.ReadsBack a) :
    (option c).ReadsBack x := by
  intro rest
  cases x with
  | none => rfl
  | some a => simp [option, bool_roundTrip true _, hc a rfl rest]

theorem option_canonical {c : Codec α} (hc : c.Canonical) : (option c).Canonical := by
  intro b x rest h
  obtain ⟨⟨isSome, r⟩, hr, h⟩ := Option.bind_eq_some.1 h
  rw [bool_canonical _ _ _ hr]
  cases isSome with
  | false =>
      simp only [Bool.false_eq_true, ↓reduceIte, Option.some.injEq, Prod.mk.injEq] at h
      obtain ⟨rfl, rfl⟩ := h
      rfl
  | true =>
      obtain ⟨⟨y, s⟩, hs, h⟩ := Option.map_eq_some'.1 h
      simp only [Prod.mk.injEq] at h
      obtain ⟨rfl, rfl⟩ := h
      rw [hc r y s hs]
      simp [option]

theorem option_streaming {c : Codec α} (hc : c.Streaming) : (option c).Streaming := by
  intro b x rest more h
  obtain ⟨⟨isSome, r⟩, hr, h⟩ := Option.bind_eq_some.1 h
  simp only [option, bool_streaming _ _ _ more hr, Option.some_bind]
  cases isSome with
  | false =>
      simp only [Bool.false_eq_true, ↓reduceIte, Option.some.injEq, Prod.mk.injEq] at h
      obtain ⟨rfl, rfl⟩ := h
      rfl
  | true =>
      obtain ⟨⟨y, s⟩, hs, h⟩ := Option.map_eq_some'.1 h
      simp only [Prod.mk.injEq] at h
      obtain ⟨rfl, rfl⟩ := h
      simp only [↓reduceIte, hc _ _ _ more hs, Option.map_some']

theorem option_readsPrefix {c : Codec α} (hc : c.ReadsPrefix) : (option c).ReadsPrefix := by
  intro b x rest h
  obtain ⟨⟨isSome, r⟩, hr, h⟩ := Option.bind_eq_some.1 h
  obtain ⟨t, rfl, ht⟩ := readsPrefix_of_canonical bool_canonical bool_roundTrip _ _ _ hr
  cases isSome with
  | false =>
      simp only [Bool.false_eq_true, ↓reduceIte, Option.some.injEq, Prod.mk.injEq] at h
      obtain ⟨rfl, rfl⟩ := h
      exact ⟨t, rfl, fun more => by simp only [option, ht, Option.some_bind]; rfl⟩
  | true =>
      obtain ⟨⟨y, s⟩, hs, h⟩ := Option.map_eq_some'.1 h
      simp only [Prod.mk.injEq] at h
      obtain ⟨rfl, rfl⟩ := h
      obtain ⟨e, rfl, he⟩ := hc _ _ _ hs
      refine ⟨t ++ e, (List.append_assoc _ _ _).symm, fun more => ?_⟩
      simp only [option, List.append_assoc, ht, Option.some_bind, ↓reduceIte, he,
        Option.map_some']

/-- `n` values read one after the other. -/
def readMany (c : Codec α) : Nat → List UInt8 → Option (List α × List UInt8)
  | 0, b => some ([], b)
  | n + 1, b => (c.deserialize b).bind fun r =>
      (readMany c n r.2).map fun s => (r.1 :: s.1, s.2)

/-- A `Vec`: its length `as u64`, eight little-endian bytes, then its elements. -/
def vec (c : Codec α) : Codec (List α) where
  serialize xs := leBytes 8 xs.length ++ (xs.map c.serialize).flatten
  deserialize b := (readLe 8 b).bind fun r => readMany c r.1 r.2

theorem readMany_readsBack {c : Codec α} {xs : List α} (hc : ∀ a ∈ xs, c.ReadsBack a)
    (rest : List UInt8) :
    readMany c xs.length ((xs.map c.serialize).flatten ++ rest) = some (xs, rest) := by
  induction xs with
  | nil => rfl
  | cons x xs ih =>
      simp only [List.mem_cons, forall_eq_or_imp] at hc
      simp [readMany, List.append_assoc, hc.1 _, ih hc.2]

theorem readMany_spec {c : Codec α} (hc : c.Canonical) {n : Nat} {b : List UInt8}
    {xs : List α} {rest : List UInt8} (h : readMany c n b = some (xs, rest)) :
    xs.length = n ∧ b = (xs.map c.serialize).flatten ++ rest := by
  induction n generalizing b xs with
  | zero =>
      simp only [readMany, Option.some.injEq, Prod.mk.injEq] at h
      obtain ⟨rfl, rfl⟩ := h
      simp
  | succ n ih =>
      obtain ⟨⟨x, r⟩, hr, h⟩ := Option.bind_eq_some.1 h
      obtain ⟨⟨ys, s⟩, hs, h⟩ := Option.map_eq_some'.1 h
      simp only [Prod.mk.injEq] at h
      obtain ⟨rfl, rfl⟩ := h
      obtain ⟨hlen, hrs⟩ := ih (b := r) hs
      rw [hc _ _ _ hr, hrs]
      simp [hlen]

theorem readMany_streaming {c : Codec α} (hc : c.Streaming) {n : Nat} {b : List UInt8}
    {xs : List α} {rest : List UInt8} (h : readMany c n b = some (xs, rest)) (more : List UInt8) :
    readMany c n (b ++ more) = some (xs, rest ++ more) := by
  induction n generalizing b xs rest with
  | zero =>
      simp only [readMany, Option.some.injEq, Prod.mk.injEq] at h
      obtain ⟨rfl, rfl⟩ := h
      rfl
  | succ n ih =>
      obtain ⟨⟨x, r⟩, hr, h⟩ := Option.bind_eq_some.1 h
      obtain ⟨⟨ys, s⟩, hs, h⟩ := Option.map_eq_some'.1 h
      simp only [Prod.mk.injEq] at h
      obtain ⟨rfl, rfl⟩ := h
      simp only [readMany, hc _ _ _ more hr, Option.some_bind, ih hs, Option.map_some']

theorem readMany_readsPrefix {c : Codec α} (hc : c.ReadsPrefix) {n : Nat} {b : List UInt8}
    {xs : List α} {rest : List UInt8} (h : readMany c n b = some (xs, rest)) :
    ∃ e, b = e ++ rest ∧ ∀ more, readMany c n (e ++ more) = some (xs, more) := by
  induction n generalizing b xs rest with
  | zero =>
      simp only [readMany, Option.some.injEq, Prod.mk.injEq] at h
      obtain ⟨rfl, rfl⟩ := h
      exact ⟨[], rfl, fun _ => rfl⟩
  | succ n ih =>
      obtain ⟨⟨x, r⟩, hr, h⟩ := Option.bind_eq_some.1 h
      obtain ⟨⟨ys, s⟩, hs, h⟩ := Option.map_eq_some'.1 h
      simp only [Prod.mk.injEq] at h
      obtain ⟨rfl, rfl⟩ := h
      obtain ⟨e₁, rfl, he₁⟩ := hc _ _ _ hr
      obtain ⟨e₂, rfl, he₂⟩ := ih hs
      refine ⟨e₁ ++ e₂, (List.append_assoc _ _ _).symm, fun more => ?_⟩
      simp only [readMany, List.append_assoc, he₁, Option.some_bind, he₂, Option.map_some']

/-- The round trip of a `Vec` needs its length to survive the cast to `u64`,
which every Rust `Vec` satisfies: it never holds more than `isize::MAX`
elements. -/
theorem vec_readsBack {c : Codec α} {xs : List α} (hc : ∀ a ∈ xs, c.ReadsBack a)
    (hxs : xs.length < 2 ^ 64) : (vec c).ReadsBack xs := by
  intro rest
  have hlen : xs.length % 256 ^ 8 = xs.length := Nat.mod_eq_of_lt (hxs.trans_eq rfl)
  simp only [vec, List.append_assoc, readLe_leBytes, Option.some_bind, hlen]
  exact readMany_readsBack hc rest

theorem vec_canonical {c : Codec α} (hc : c.Canonical) : (vec c).Canonical := by
  intro b xs rest h
  obtain ⟨⟨n, r⟩, hr, h⟩ := Option.bind_eq_some.1 h
  obtain ⟨-, hb⟩ := readLe_spec hr
  obtain ⟨hn, hr⟩ := readMany_spec (n := n) (b := r) hc h
  rw [hb, hr, ← hn]
  exact (List.append_assoc _ _ _).symm

theorem vec_streaming {c : Codec α} (hc : c.Streaming) : (vec c).Streaming := by
  intro b xs rest more h
  obtain ⟨⟨n, r⟩, hr, h⟩ := Option.bind_eq_some.1 h
  simp only [vec, readLe_append hr, Option.some_bind]
  exact readMany_streaming hc h more

theorem vec_readsPrefix {c : Codec α} (hc : c.ReadsPrefix) : (vec c).ReadsPrefix := by
  intro b xs rest h
  obtain ⟨⟨n, r⟩, hr, hmany⟩ := Option.bind_eq_some.1 h
  obtain ⟨hn, rfl⟩ := readLe_spec hr
  obtain ⟨e, rfl, he⟩ := readMany_readsPrefix hc hmany
  refine ⟨leBytes 8 n ++ e, (List.append_assoc _ _ _).symm, fun more => ?_⟩
  simp only [vec, List.append_assoc, readLe_leBytes, Nat.mod_eq_of_lt hn, Option.some_bind, he]

end Codec

/-! ## `to_bytes` and `from_bytes` -/

variable {α : Type}

/-- The `to_bytes` of every wire type: `serialize_compressed` into a fresh
`Vec<u8>`. The error a failure would be mapped to never occurs. -/
def toBytesWith (_err : Error) (c : Codec α) (x : α) : Except Error (List UInt8) :=
  .ok (c.serialize x)

/-- The `from_bytes` of every wire type: `deserialize_compressed` on the whole
slice, with any failure mapped to `err`. The bytes after the value are not
looked at. -/
def fromBytesWith (err : Error) (c : Codec α) (bytes : List UInt8) : Except Error α :=
  match c.deserialize bytes with
  | some r => .ok r.1
  | none => .error err

theorem fromBytesWith_of_deserialize {err : Error} {c : Codec α} {b : List UInt8} {x : α}
    {rest : List UInt8} (h : c.deserialize b = some (x, rest)) : fromBytesWith err c b = .ok x := by
  simp [fromBytesWith, h]

/-- `from_bytes` gives back a value that reads back from the bytes `to_bytes`
wrote for it. -/
theorem fromBytesWith_toBytesWith {err err' : Error} {c : Codec α} {x : α} (h : c.ReadsBack x) :
    ∃ b, toBytesWith err c x = .ok b ∧ fromBytesWith err' c b = .ok x :=
  ⟨_, rfl, fromBytesWith_of_deserialize (by simpa using h [])⟩

/-- For a reader that consumes a prefix, what `from_bytes` accepts as `x` is
exactly a complete encoding of `x` that the reader accepts, canonical or not,
followed by any bytes at all. -/
theorem fromBytesWith_eq_ok_iff {err : Error} {c : Codec α} (hc : c.ReadsPrefix)
    (b : List UInt8) (x : α) :
    fromBytesWith err c b = .ok x ↔ ∃ e rest, b = e ++ rest ∧ c.deserialize e = some (x, []) := by
  refine ⟨fun h => ?_, fun ⟨e, rest, hb, he⟩ => ?_⟩
  · unfold fromBytesWith at h
    split at h
    · next r hr =>
        cases h
        obtain ⟨e, hb, he⟩ := hc b r.1 r.2 hr
        exact ⟨e, r.2, hb, by simpa using he []⟩
    · cases h
  · obtain ⟨e', rfl, he'⟩ := hc e x [] he
    rw [List.append_nil] at hb
    exact fromBytesWith_of_deserialize (hb ▸ he' rest)

/-- A streaming reader refuses every strict prefix of an encoding that reads
back: the bytes it would consume run past the end of the slice. -/
theorem fromBytesWith_truncated {err err' : Error} {c : Codec α} (hc : c.Streaming) {x : α}
    (hx : c.ReadsBack x) {b more : List UInt8} (h : toBytesWith err' c x = .ok (b ++ more))
    (hmore : more ≠ []) : fromBytesWith err c b = .error err := by
  unfold fromBytesWith
  split
  · next r hr =>
      have hread := hc _ _ _ more hr
      rw [← Except.ok.inj h, ← List.append_nil (c.serialize x), hx] at hread
      simp only [Option.some.injEq, Prod.mk.injEq] at hread
      exact absurd (List.append_eq_nil.1 hread.2.symm).2 hmore
  · rfl

end IceFrost
