import EngineStorage.Bytesrepr

/-! # The protocol data record

The addresses of the three system contracts kept for a protocol version, with the record's
constructors and `system_contracts`, after `engine-storage/src/protocol_data.rs`. The cost
table `WasmCosts` is defined outside that file and stays a type parameter `C`.
-/
namespace EngineStorage

/-- `DEFAULT_ADDRESS`: the all-zero address of a system contract that is not known yet. -/
def defaultAddress : ContractHash := U8Array.replicate 32 0

/-- `ProtocolData`: the cost table and the addresses of mint, proof of stake and standard
payment. -/
structure ProtocolData (C : Type) where
  wasmCosts : C
  mint : ContractHash
  proofOfStake : ContractHash
  standardPayment : ContractHash
deriving DecidableEq

namespace ProtocolData
variable {C : Type}

/-- `ProtocolData::default`: the default cost table and no known address. -/
def default [Inhabited C] : ProtocolData C :=
  ⟨Inhabited.default, defaultAddress, defaultAddress, defaultAddress⟩

def new (wasmCosts : C) (mint proofOfStake standardPayment : ContractHash) : ProtocolData C :=
  ⟨wasmCosts, mint, proofOfStake, standardPayment⟩

/-- `ProtocolData::partial_with_mint`: only the mint is known. -/
def partialWithMint [Inhabited C] (mint : ContractHash) : ProtocolData C :=
  { (ProtocolData.default : ProtocolData C) with mint }

/-- `ProtocolData::partial_without_standard_payment`. -/
def partialWithoutStandardPayment [Inhabited C] (wasmCosts : C)
    (mint proofOfStake : ContractHash) : ProtocolData C :=
  { (ProtocolData.default : ProtocolData C) with wasmCosts, mint, proofOfStake }

/-- `ProtocolData::system_contracts`: each address that is not `DEFAULT_ADDRESS` is pushed, in
the order mint, proof of stake, standard payment. -/
def systemContracts (p : ProtocolData C) : List ContractHash :=
  let vec : List ContractHash := []
  let vec := if p.mint ≠ defaultAddress then vec ++ [p.mint] else vec
  let vec := if p.proofOfStake ≠ defaultAddress then vec ++ [p.proofOfStake] else vec
  if p.standardPayment ≠ defaultAddress then vec ++ [p.standardPayment] else vec

/-- The three addresses of a record, in slot order. -/
def addresses (p : ProtocolData C) : List ContractHash := [p.mint, p.proofOfStake, p.standardPayment]

/-- A record is complete when none of its addresses is the default one. -/
def IsComplete (p : ProtocolData C) : Prop := defaultAddress ∉ p.addresses

instance : DecidablePred (IsComplete (C := C)) :=
  fun p => inferInstanceAs (Decidable (defaultAddress ∉ p.addresses))

@[simp] theorem length_addresses (p : ProtocolData C) : p.addresses.length = 3 := rfl

theorem systemContracts_eq_filter (p : ProtocolData C) :
    p.systemContracts = p.addresses.filter (· ≠ defaultAddress) := by
  unfold systemContracts addresses
  split_ifs <;> simp_all

theorem isComplete_iff {p : ProtocolData C} :
    p.IsComplete ↔ ∀ a ∈ p.addresses, a ≠ defaultAddress :=
  ⟨fun h _ ha hd => h (hd ▸ ha), fun h hd => h _ hd rfl⟩

/-- `system_contracts` lists all three addresses exactly when the record is complete. -/
theorem systemContracts_length_eq_three_iff (p : ProtocolData C) :
    p.systemContracts.length = 3 ↔ p.IsComplete := by
  rw [systemContracts_eq_filter, isComplete_iff, ← length_addresses p,
    List.filter_length_eq_length]
  simp

end ProtocolData

end EngineStorage
