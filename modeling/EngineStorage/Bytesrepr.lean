import Mathlib.Data.List.Lex
import Mathlib.Order.Lattice

/-! # The `bytesrepr` interface that `protocol_data.rs` uses

`ToBytes`/`FromBytes` of a type as a pair of functions, the laws a codec may satisfy, and the
byte arrays `[u8; N]` of which `HashAddr` is one. The `types` crate lies outside the modelled
sources, so its pieces here follow the spec: an array encodes as its raw bytes and decodes
by splitting them off.
-/
namespace EngineStorage

/-- `Vec<u8>` and `&[u8]`. -/
abbrev Bytes := List UInt8

/-- Modelled from the spec: the `bytesrepr::Error` kinds a decoder can report, a short
buffer and a malformed sub-encoding. -/
inductive Error
  | earlyEndOfStream
  | formatting
deriving DecidableEq

theorem bind_eq_ok {ε α β : Type} {x : Except ε α} {f : α → Except ε β} {b : β} :
    x >>= f = .ok b ↔ ∃ a, x = .ok a ∧ f a = .ok b := by
  cases x <;> simp [bind, Except.bind]

@[simp] theorem ok_bind {ε α β : Type} (a : α) (f : α → Except ε β) :
    (Except.ok a >>= f) = f a := rfl

@[simp] theorem error_bind {ε α β : Type} (e : ε) (f : α → Except ε β) :
    (Except.error e >>= f) = .error e := rfl

/-- `ToBytes::to_bytes` and `FromBytes::from_bytes` of one type. -/
structure Codec (α : Type) where
  toBytes : α → Except Error Bytes
  fromBytes : Bytes → Except Error (α × Bytes)

namespace Codec
variable {α : Type} (c : Codec α)

/-- Decoding an encoding followed by any suffix returns the value and leaves the suffix. -/
def RoundTrip : Prop :=
  ∀ a bs rest, c.toBytes a = .ok bs → c.fromBytes (bs ++ rest) = .ok (a, rest)

/-- Whatever decodes is the encoding of the decoded value followed by the remainder. -/
def Canonical : Prop :=
  ∀ b a rest, c.fromBytes b = .ok (a, rest) → ∃ bs, c.toBytes a = .ok bs ∧ b = bs ++ rest

/-- Every value encodes, to exactly `n` bytes. -/
def EncodesTo (n : Nat) : Prop := ∀ a, ∃ bs, c.toBytes a = .ok bs ∧ bs.length = n

end Codec

/-- `[u8; n]`. -/
structure U8Array (n : Nat) where
  bytes : Bytes
  length_eq : bytes.length = n

namespace U8Array
variable {n : Nat}

theorem bytes_injective : Function.Injective (fun a : U8Array n => a.bytes.map UInt8.toNat) := by
  rintro ⟨a, ha⟩ ⟨b, hb⟩ h
  obtain rfl : a = b := List.map_injective_iff.mpr (fun _ _ => UInt8.toNat.inj) h
  rfl

/-- The derived `Ord` of an array: lexicographic by byte value. -/
instance : LinearOrder (U8Array n) := LinearOrder.lift' _ bytes_injective

/-- The array expression `[b; n]`. -/
def replicate (n : Nat) (b : UInt8) : U8Array n := ⟨List.replicate n b, List.length_replicate n b⟩

/-- Modelled from the spec: `ToBytes for [u8; n]` writes the raw bytes. -/
def toBytes (a : U8Array n) : Except Error Bytes := .ok a.bytes

/-- Modelled from the spec: `FromBytes for [u8; n]` splits off `n` bytes, failing with
`EarlyEndOfStream` on a shorter buffer. -/
def fromBytes (bytes : Bytes) : Except Error (U8Array n × Bytes) :=
  if h : n ≤ bytes.length then .ok (⟨bytes.take n, List.length_take_of_le h⟩, bytes.drop n)
  else .error .earlyEndOfStream

def codec (n : Nat) : Codec (U8Array n) := ⟨toBytes, fromBytes⟩

@[simp] theorem toBytes_eq (a : U8Array n) : a.toBytes = .ok a.bytes := rfl

theorem fromBytes_append (a : U8Array n) (rest : Bytes) :
    fromBytes (a.bytes ++ rest) = .ok (a, rest) := by
  have h := a.length_eq
  simp [fromBytes, h, List.take_left' h, List.drop_left' h]

theorem fromBytes_eq_ok {b rest : Bytes} {a : U8Array n} :
    fromBytes b = .ok (a, rest) ↔ b = a.bytes ++ rest := by
  refine ⟨fun h => ?_, fun h => h ▸ fromBytes_append a rest⟩
  unfold fromBytes at h
  split at h <;> cases h
  exact (List.take_append_drop n b).symm

theorem append_inj {a b : U8Array n} {r r' : Bytes} (h : a.bytes ++ r = b.bytes ++ r') :
    a = b ∧ r = r' := by
  obtain ⟨hab, hr⟩ := List.append_inj h (a.length_eq.trans b.length_eq.symm)
  cases a; cases b; cases hab
  exact ⟨rfl, hr⟩

theorem codec_roundTrip (n : Nat) : (codec n).RoundTrip := by
  rintro a _ rest ⟨⟩
  exact fromBytes_append a rest

theorem codec_canonical (n : Nat) : (codec n).Canonical :=
  fun _ a _ h => ⟨a.bytes, rfl, fromBytes_eq_ok.mp h⟩

theorem codec_encodesTo (n : Nat) : (codec n).EncodesTo n :=
  fun a => ⟨a.bytes, rfl, a.length_eq⟩

end U8Array

/-- Modelled from the spec: `KEY_HASH_LENGTH`, the width of an address. -/
def keyHashLength : Nat := 32

/-- Modelled from the spec: `HashAddr`, a 32-byte address. -/
abbrev HashAddr := U8Array keyHashLength

abbrev ContractHash := HashAddr

end EngineStorage
