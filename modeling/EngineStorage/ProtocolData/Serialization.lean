import EngineStorage.ProtocolData.Basic

/-! # The persisted form of protocol data

`ToBytes` and `FromBytes` for `ProtocolData`: the cost table's bytes, then the mint, proof of
stake and standard payment addresses, 32 bytes each. The cost table's codec and
`WASM_COSTS_SERIALIZED_LENGTH` belong to `engine_wasm_prep` and are parameters; each law of
the record's codec assumes of the cost table's codec only the law it carries over.
-/
namespace EngineStorage

/-- `PROTOCOL_DATA_SERIALIZED_LENGTH`, for a cost table of `wasmCostsSerializedLength`
bytes. -/
def protocolDataSerializedLength (wasmCostsSerializedLength : Nat) : Nat :=
  wasmCostsSerializedLength + 3 * keyHashLength

namespace ProtocolData
variable {C : Type} (costs : Codec C)

/-- `ToBytes::to_bytes`: the fields in declaration order, each error passed on. -/
def toBytes (p : ProtocolData C) : Except Error Bytes := do
  let ret : Bytes := []
  let ret := ret ++ (← costs.toBytes p.wasmCosts)
  let ret := ret ++ (← p.mint.toBytes)
  let ret := ret ++ (← p.proofOfStake.toBytes)
  let ret := ret ++ (← p.standardPayment.toBytes)
  pure ret

/-- `ToBytes::serialized_length`: the constant, whatever the record. -/
def serializedLength (wasmCostsSerializedLength : Nat) (_ : ProtocolData C) : Nat :=
  protocolDataSerializedLength wasmCostsSerializedLength

/-- `FromBytes::from_bytes`: the cost table, then each address from what the previous field
left. -/
def fromBytes (bytes : Bytes) : Except Error (ProtocolData C × Bytes) := do
  let (wasmCosts, rem) ← costs.fromBytes bytes
  let (mint, rem) ← (U8Array.fromBytes rem : Except Error (HashAddr × Bytes))
  let (proofOfStake, rem) ← (U8Array.fromBytes rem : Except Error (HashAddr × Bytes))
  let (standardPayment, rem) ← (U8Array.fromBytes rem : Except Error (HashAddr × Bytes))
  pure (⟨wasmCosts, mint, proofOfStake, standardPayment⟩, rem)

theorem toBytes_eq_ok {p : ProtocolData C} {w : Bytes} (hw : costs.toBytes p.wasmCosts = .ok w) :
    p.toBytes costs = .ok (w ++ p.mint.bytes ++ p.proofOfStake.bytes ++ p.standardPayment.bytes) := by
  simp [toBytes, hw]

theorem toBytes_eq_error {p : ProtocolData C} {e : Error}
    (he : costs.toBytes p.wasmCosts = .error e) : p.toBytes costs = .error e := by
  simp [toBytes, he]

theorem toBytes_eq_ok_iff {p : ProtocolData C} {bs : Bytes} :
    p.toBytes costs = .ok bs ↔ ∃ w, costs.toBytes p.wasmCosts = .ok w ∧
      bs = w ++ p.mint.bytes ++ p.proofOfStake.bytes ++ p.standardPayment.bytes := by
  cases h : costs.toBytes p.wasmCosts with
  | error e => simp [toBytes_eq_error costs h]
  | ok w => simp [toBytes_eq_ok costs h, eq_comm]

theorem length_of_toBytes_eq_ok {n : Nat} (hn : costs.EncodesTo n) {p : ProtocolData C}
    {bs : Bytes} (h : p.toBytes costs = .ok bs) : bs.length = protocolDataSerializedLength n := by
  obtain ⟨w, hw, hl⟩ := hn p.wasmCosts
  rw [toBytes_eq_ok costs hw] at h
  cases h
  simp [hl, U8Array.length_eq, protocolDataSerializedLength]
  omega

theorem toBytes_of_fromBytes (hc : costs.Canonical) {b rest : Bytes} {p : ProtocolData C}
    (hb : fromBytes costs b = .ok (p, rest)) : ∃ bs, p.toBytes costs = .ok bs ∧ b = bs ++ rest := by
  simp only [fromBytes, bind_eq_ok, Prod.exists] at hb
  obtain ⟨c, r₁, h₁, m, r₂, h₂, s, r₃, h₃, t, r₄, h₄, hb⟩ := hb
  cases hb
  obtain ⟨w, hw, rfl⟩ := hc _ _ _ h₁
  obtain rfl := U8Array.fromBytes_eq_ok.mp h₂
  obtain rfl := U8Array.fromBytes_eq_ok.mp h₃
  obtain rfl := U8Array.fromBytes_eq_ok.mp h₄
  exact ⟨_, toBytes_eq_ok costs hw, by simp⟩

/-- `from_bytes` fails exactly when the cost table fails to decode, with the cost table's
error, or when fewer than three addresses' worth of bytes follow it, with
`EarlyEndOfStream`. -/
theorem fromBytes_error_iff (b : Bytes) (e : Error) :
    fromBytes costs b = .error e ↔ costs.fromBytes b = .error e ∨
      ∃ c rem, costs.fromBytes b = .ok (c, rem) ∧ rem.length < 3 * keyHashLength ∧
        e = .earlyEndOfStream := by
  cases hc : costs.fromBytes b with
  | error e' => simp [fromBytes, hc]
  | ok cr =>
    obtain ⟨c, r⟩ := cr
    have := List.length_drop 32 r
    have := List.length_drop 32 (List.drop 32 r)
    simp only [fromBytes, hc, ok_bind, U8Array.fromBytes, keyHashLength, reduceCtorEq, false_or,
      Except.ok.injEq, Prod.mk.injEq, and_assoc, exists_and_left, exists_eq_left']
    split
    · simp only [ok_bind]
      split
      · simp only [ok_bind]
        split <;> simp [eq_comm] <;> omega
      · simp [eq_comm]
        omega
    · simp [eq_comm]
      omega

/-- Decoding the encoding of a record followed by any bytes gives the record back and leaves
those bytes. -/
theorem fromBytes_toBytes (hc : costs.RoundTrip) (p : ProtocolData C) (rest bs : Bytes)
    (hp : p.toBytes costs = .ok bs) : fromBytes costs (bs ++ rest) = .ok (p, rest) := by
  cases hw : costs.toBytes p.wasmCosts with
  | error e => rw [toBytes_eq_error costs hw] at hp; cases hp
  | ok w =>
    rw [toBytes_eq_ok costs hw] at hp
    cases hp
    simp only [List.append_assoc]
    simp [fromBytes, hc _ _ _ hw, U8Array.fromBytes_append]

theorem fromBytes_toBytes_rawCosts :
    let p : ProtocolData (U8Array 40) := ⟨U8Array.replicate 40 7, U8Array.replicate 32 1,
      U8Array.replicate 32 2, U8Array.replicate 32 3⟩
    let bs := List.replicate 40 7 ++ List.replicate 32 1 ++ List.replicate 32 2 ++
      List.replicate 32 3
    (U8Array.codec 40).RoundTrip ∧ p.toBytes (U8Array.codec 40) = .ok bs ∧
      fromBytes (U8Array.codec 40) (bs ++ [255]) = .ok (p, [255]) := by
  intro p bs
  have hp : p.toBytes (U8Array.codec 40) = .ok bs := rfl
  exact ⟨U8Array.codec_roundTrip 40, hp,
    fromBytes_toBytes _ (U8Array.codec_roundTrip 40) p [255] bs hp⟩

/-- The persisted record delimits itself: when one buffer starts with the encoding of a record
and also with the encoding of another, the two records are equal and so are the bytes after
them. -/
theorem toBytes_prefix_unique (hc : costs.RoundTrip) {p q : ProtocolData C}
    {bp bq r₁ r₂ : Bytes} (hp : p.toBytes costs = .ok bp) (hq : q.toBytes costs = .ok bq)
    (h : bp ++ r₁ = bq ++ r₂) : p = q ∧ r₁ = r₂ := by
  obtain ⟨wp, hwp, rfl⟩ := (toBytes_eq_ok_iff costs).mp hp
  obtain ⟨wq, hwq, rfl⟩ := (toBytes_eq_ok_iff costs).mp hq
  simp only [List.append_assoc] at h
  have hcosts := hc _ _
    (p.mint.bytes ++ (p.proofOfStake.bytes ++ (p.standardPayment.bytes ++ r₁))) hwp
  rw [h, hc _ _ _ hwq, Except.ok.injEq, Prod.mk.injEq] at hcosts
  obtain ⟨hw, hrest⟩ := hcosts
  obtain ⟨hm, hrest⟩ := U8Array.append_inj hrest
  obtain ⟨hs, hrest⟩ := U8Array.append_inj hrest
  obtain ⟨ht, hr⟩ := U8Array.append_inj hrest
  cases p; cases q; cases hw; cases hm; cases hs; cases ht
  exact ⟨rfl, hr.symm⟩

theorem toBytes_prefix_unique_rawCosts :
    let p : ProtocolData (U8Array 40) := ⟨U8Array.replicate 40 7, U8Array.replicate 32 1,
      U8Array.replicate 32 2, U8Array.replicate 32 3⟩
    let bs := List.replicate 40 7 ++ List.replicate 32 1 ++ List.replicate 32 2 ++
      List.replicate 32 3
    (U8Array.codec 40).RoundTrip ∧ p.toBytes (U8Array.codec 40) = .ok bs ∧
      bs ++ [255] = bs ++ [255] ∧ (p = p ∧ ([255] : Bytes) = [255]) := by
  intro p bs
  have hp : p.toBytes (U8Array.codec 40) = .ok bs := rfl
  exact ⟨U8Array.codec_roundTrip 40, hp, rfl,
    toBytes_prefix_unique _ (U8Array.codec_roundTrip 40) hp hp rfl⟩

/-- Whatever decodes is the encoding of the decoded record followed by the remainder, so the
decoder consumes exactly `PROTOCOL_DATA_SERIALIZED_LENGTH` bytes, rejects every shorter
input, and two inputs that decode to one record differ only after its encoding. -/
theorem fromBytes_canonical (n : Nat) (hc : costs.Canonical) (hn : costs.EncodesTo n) :
    (∀ b p rest, fromBytes costs b = .ok (p, rest) →
      ∃ bs, p.toBytes costs = .ok bs ∧ b = bs ++ rest ∧
        b.length - rest.length = protocolDataSerializedLength n) ∧
    (∀ b : Bytes, b.length < protocolDataSerializedLength n →
      ∃ e, fromBytes costs b = (.error e : Except Error (ProtocolData C × Bytes))) ∧
    (∀ b₁ b₂ p r₁ r₂, fromBytes costs b₁ = .ok (p, r₁) → fromBytes costs b₂ = .ok (p, r₂) →
      ∃ bs, b₁ = bs ++ r₁ ∧ b₂ = bs ++ r₂) := by
  have consumes : ∀ b p rest, fromBytes costs b = .ok (p, rest) →
      ∃ bs, p.toBytes costs = .ok bs ∧ b = bs ++ rest ∧
        b.length - rest.length = protocolDataSerializedLength n := by
    intro b p rest hb
    obtain ⟨bs, hbs, rfl⟩ := toBytes_of_fromBytes costs hc hb
    refine ⟨bs, hbs, rfl, ?_⟩
    rw [List.length_append, length_of_toBytes_eq_ok costs hn hbs]
    omega
  refine ⟨consumes, fun b hb => ?_, fun b₁ b₂ p r₁ r₂ h₁ h₂ => ?_⟩
  · rcases h : fromBytes costs b with e | ⟨p, rest⟩
    · exact ⟨e, rfl⟩
    · obtain ⟨-, -, -, hl⟩ := consumes b p rest h
      omega
  · obtain ⟨bs₁, hbs₁, rfl, -⟩ := consumes b₁ p r₁ h₁
    obtain ⟨bs₂, hbs₂, rfl, -⟩ := consumes b₂ p r₂ h₂
    rw [hbs₁] at hbs₂
    cases hbs₂
    exact ⟨bs₁, rfl, rfl⟩

theorem fromBytes_canonical_rawCosts :
    let p : ProtocolData (U8Array 40) := ⟨U8Array.replicate 40 7, U8Array.replicate 32 1,
      U8Array.replicate 32 2, U8Array.replicate 32 3⟩
    let bs := List.replicate 40 7 ++ List.replicate 32 1 ++ List.replicate 32 2 ++
      List.replicate 32 3
    (U8Array.codec 40).Canonical ∧ (U8Array.codec 40).EncodesTo 40 ∧
      fromBytes (U8Array.codec 40) (bs ++ [255]) = .ok (p, [255]) ∧
      (∃ bs', p.toBytes (U8Array.codec 40) = .ok bs' ∧ bs ++ [255] = bs' ++ [255] ∧
        (bs ++ [255]).length - [255].length = protocolDataSerializedLength 40) ∧
      (∃ e, fromBytes (U8Array.codec 40) bs.dropLast = .error e) ∧
      ((∀ b p rest, fromBytes (U8Array.codec 40) b = .ok (p, rest) →
        ∃ bs, p.toBytes (U8Array.codec 40) = .ok bs ∧ b = bs ++ rest ∧
          b.length - rest.length = protocolDataSerializedLength 40) ∧
      (∀ b : Bytes, b.length < protocolDataSerializedLength 40 →
        ∃ e, fromBytes (U8Array.codec 40) b = .error e) ∧
      (∀ b₁ b₂ p r₁ r₂, fromBytes (U8Array.codec 40) b₁ = .ok (p, r₁) →
        fromBytes (U8Array.codec 40) b₂ = .ok (p, r₂) → ∃ bs, b₁ = bs ++ r₁ ∧ b₂ = bs ++ r₂)) := by
  intro p bs
  have hd : fromBytes (U8Array.codec 40) (bs ++ [255]) = .ok (p, [255]) := by
    have hbs : bs ++ [255] = p.wasmCosts.bytes ++ (p.mint.bytes ++ (p.proofOfStake.bytes ++
        (p.standardPayment.bytes ++ [255]))) := by simp only [bs, List.append_assoc]; rfl
    rw [hbs]
    simp only [fromBytes, U8Array.codec, U8Array.fromBytes_append, ok_bind]
    rfl
  have hc := fromBytes_canonical _ 40 (U8Array.codec_canonical 40) (U8Array.codec_encodesTo 40)
  exact ⟨U8Array.codec_canonical 40, U8Array.codec_encodesTo 40, hd, hc.1 _ _ _ hd,
    hc.2.1 bs.dropLast (by simp only [bs, List.length_dropLast, List.length_append, List.length_replicate]; decide), hc⟩

/-- Every record encodes, and to as many bytes as `serialized_length` declares:
`WASM_COSTS_SERIALIZED_LENGTH + 3 * KEY_HASH_LENGTH`. -/
theorem toBytes_length_eq_serializedLength (n : Nat) (hn : costs.EncodesTo n)
    (p : ProtocolData C) :
    ∃ bs, p.toBytes costs = .ok bs ∧ bs.length = p.serializedLength n ∧
      p.serializedLength n = protocolDataSerializedLength n ∧
      protocolDataSerializedLength n = n + 3 * keyHashLength := by
  obtain ⟨w, hw, -⟩ := hn p.wasmCosts
  exact ⟨_, toBytes_eq_ok costs hw, length_of_toBytes_eq_ok costs hn (toBytes_eq_ok costs hw),
    rfl, rfl⟩

theorem toBytes_length_rawCosts :
    let p : ProtocolData (U8Array 40) := ⟨U8Array.replicate 40 7, U8Array.replicate 32 1,
      U8Array.replicate 32 2, U8Array.replicate 32 3⟩
    (U8Array.codec 40).EncodesTo 40 ∧
      ∃ bs, p.toBytes (U8Array.codec 40) = .ok bs ∧ bs.length = p.serializedLength 40 ∧
        p.serializedLength 40 = protocolDataSerializedLength 40 ∧
        protocolDataSerializedLength 40 = 40 + 3 * keyHashLength :=
  ⟨U8Array.codec_encodesTo 40,
    toBytes_length_eq_serializedLength _ 40 (U8Array.codec_encodesTo 40) _⟩

end ProtocolData

end EngineStorage
