import EngineStorage.BTreeMap
import EngineStorage.ProtocolData.Basic

/-! # `update_from`

`ProtocolData::update_from` visits the pairs of the map in ascending key order and rewrites
the record in place: each pair replaces the first slot that holds its old address at that
moment, and the first pair that matches no slot ends the loop with `false`, keeping the
replacements already made. The loop is proved against that reading: what every run keeps
(the cost table, where each address comes from, completeness, distinct addresses), what a
failed and a successful call leave behind, how a call splits at any key of the map, and
when the loop agrees with a simultaneous substitution of the map.
-/
namespace EngineStorage
namespace ProtocolData
variable {C : Type}

/-- The body of the loop for one pair: `none` is the `return false` branch. -/
def replaceSlot (p : ProtocolData C) (oldHash newHash : ContractHash) : Option (ProtocolData C) :=
  if oldHash = p.mint then some { p with mint := newHash }
  else if oldHash = p.proofOfStake then some { p with proofOfStake := newHash }
  else if oldHash = p.standardPayment then some { p with standardPayment := newHash }
  else none

/-- The loop over the pairs still to visit: the record as the loop leaves it, and the value
it returns. -/
def updateLoop : ProtocolData C → List (ContractHash × ContractHash) → ProtocolData C × Bool
  | p, [] => (p, true)
  | p, (oldHash, newHash) :: rest =>
    match p.replaceSlot oldHash newHash with
    | some p' => p'.updateLoop rest
    | none => (p, false)

/-- `ProtocolData::update_from`: the record after the call, and the value returned. -/
def updateFrom (p : ProtocolData C) (updates : BTreeMap ContractHash ContractHash) :
    ProtocolData C × Bool :=
  p.updateLoop updates.entries

variable {p q : ProtocolData C} {o n : ContractHash} {l : List (ContractHash × ContractHash)}

@[simp] theorem updateLoop_nil (p : ProtocolData C) : p.updateLoop [] = (p, true) := rfl

theorem updateLoop_cons_of_some (h : p.replaceSlot o n = some q) :
    p.updateLoop ((o, n) :: l) = q.updateLoop l := by
  simp only [updateLoop, h]

theorem updateLoop_cons_of_none (h : p.replaceSlot o n = none) :
    p.updateLoop ((o, n) :: l) = (p, false) := by
  simp only [updateLoop, h]

theorem updateLoop_append (p : ProtocolData C) (l₁ l₂ : List (ContractHash × ContractHash)) :
    p.updateLoop (l₁ ++ l₂) =
      if (p.updateLoop l₁).2 then (p.updateLoop l₁).1.updateLoop l₂ else p.updateLoop l₁ := by
  induction l₁ generalizing p with
  | nil => rfl
  | cons e rest ih =>
    obtain ⟨o, n⟩ := e
    cases h : p.replaceSlot o n with
    | none => simp [updateLoop_cons_of_none h]
    | some q => simp only [List.cons_append, updateLoop_cons_of_some h, ih]

theorem replaceSlot_eq_none : p.replaceSlot o n = none ↔ o ∉ p.addresses := by
  unfold replaceSlot addresses
  split_ifs <;> simp_all

theorem replaceSlot_cases (h : p.replaceSlot o n = some q) :
    (o = p.mint ∧ q = { p with mint := n }) ∨
    (o = p.proofOfStake ∧ q = { p with proofOfStake := n }) ∨
    (o = p.standardPayment ∧ q = { p with standardPayment := n }) := by
  unfold replaceSlot at h
  split_ifs at h <;> cases h <;> simp_all

/-! ## What every call keeps -/

/-- Each slot of `q` holds what the same slot of `p` holds or one of `news`, and the cost
table is the same. -/
def SlotsFrom (p q : ProtocolData C) (news : List ContractHash) : Prop :=
  q.wasmCosts = p.wasmCosts ∧ (q.mint = p.mint ∨ q.mint ∈ news) ∧
    (q.proofOfStake = p.proofOfStake ∨ q.proofOfStake ∈ news) ∧
    (q.standardPayment = p.standardPayment ∨ q.standardPayment ∈ news)

theorem SlotsFrom.refl (p : ProtocolData C) (news : List ContractHash) : SlotsFrom p p news :=
  ⟨rfl, .inl rfl, .inl rfl, .inl rfl⟩

theorem kept_or_new_trans {a b c : ContractHash} {xs ys : List ContractHash}
    (h₁ : b = a ∨ b ∈ xs) (h₂ : c = b ∨ c ∈ ys) : c = a ∨ c ∈ xs ++ ys := by
  rcases h₂ with rfl | h₂
  · exact h₁.imp_right (List.mem_append_left ys)
  · exact .inr (List.mem_append_right xs h₂)

theorem SlotsFrom.trans {r : ProtocolData C} {xs ys : List ContractHash}
    (h₁ : SlotsFrom p q xs) (h₂ : SlotsFrom q r ys) : SlotsFrom p r (xs ++ ys) :=
  ⟨h₂.1.trans h₁.1, kept_or_new_trans h₁.2.1 h₂.2.1, kept_or_new_trans h₁.2.2.1 h₂.2.2.1,
    kept_or_new_trans h₁.2.2.2 h₂.2.2.2⟩

theorem SlotsFrom.mem_addresses {news : List ContractHash} (h : SlotsFrom p q news)
    {a : ContractHash} (ha : a ∈ q.addresses) : a ∈ p.addresses ∨ a ∈ news := by
  obtain ⟨-, hm, hs, hp⟩ := h
  simp only [addresses, List.mem_cons, List.mem_singleton, List.not_mem_nil, or_false] at ha ⊢
  rcases ha with rfl | rfl | rfl
  · exact hm.imp .inl id
  · exact hs.imp (.inr ∘ .inl) id
  · exact hp.imp (.inr ∘ .inr) id

theorem replaceSlot_slotsFrom (h : p.replaceSlot o n = some q) : SlotsFrom p q [n] := by
  rcases replaceSlot_cases h with ⟨-, rfl⟩ | ⟨-, rfl⟩ | ⟨-, rfl⟩ <;> simp [SlotsFrom]

theorem updateLoop_slotsFrom (p : ProtocolData C) (l : List (ContractHash × ContractHash)) :
    SlotsFrom p (p.updateLoop l).1 (l.map Prod.snd) := by
  induction l generalizing p with
  | nil => exact SlotsFrom.refl p []
  | cons e rest ih =>
    obtain ⟨o, n⟩ := e
    cases h : p.replaceSlot o n with
    | none => simpa [updateLoop_cons_of_none h] using SlotsFrom.refl p _
    | some q =>
      rw [updateLoop_cons_of_some h]
      exact (replaceSlot_slotsFrom h).trans (ih q)

/-- `update_from` never touches the cost table, and every address it leaves is one the record
held in that slot or a new address of the map, whether it returns `true` or `false`. -/
theorem updateFrom_slotsFrom (p : ProtocolData C) (m : BTreeMap ContractHash ContractHash) :
    SlotsFrom p (p.updateFrom m).1 m.values :=
  updateLoop_slotsFrom p m.entries

/-- A complete record stays complete through any call, whatever it returns, whose new
addresses are all known. -/
theorem updateFrom_isComplete (p : ProtocolData C) (m : BTreeMap ContractHash ContractHash)
    (hp : p.IsComplete) (hm : defaultAddress ∉ m.values) : (p.updateFrom m).1.IsComplete :=
  fun hd => ((updateLoop_slotsFrom p m.entries).mem_addresses hd).elim hp hm

theorem updateFrom_isComplete_example :
    let p : ProtocolData Unit :=
      ⟨(), U8Array.replicate 32 1, U8Array.replicate 32 2, U8Array.replicate 32 3⟩
    let m : BTreeMap ContractHash ContractHash :=
      ⟨[(U8Array.replicate 32 1, U8Array.replicate 32 4)], by decide⟩
    p.IsComplete ∧ defaultAddress ∉ m.values ∧ (p.updateFrom m).1.IsComplete := by
  intro p m
  have hp : p.IsComplete := by decide
  have hm : defaultAddress ∉ m.values := by decide
  exact ⟨hp, hm, updateFrom_isComplete p m hp hm⟩

theorem replaceSlot_nodup (hp : p.addresses.Nodup) (hn : n ∉ p.addresses)
    (h : p.replaceSlot o n = some q) : q.addresses.Nodup := by
  rcases replaceSlot_cases h with ⟨-, rfl⟩ | ⟨-, rfl⟩ | ⟨-, rfl⟩ <;>
    simp_all [addresses, Ne.symm]

theorem updateLoop_nodup (hp : p.addresses.Nodup) (hv : (l.map Prod.snd).Nodup)
    (hf : ∀ v ∈ l.map Prod.snd, v ∉ p.addresses) : (p.updateLoop l).1.addresses.Nodup := by
  induction l generalizing p with
  | nil => exact hp
  | cons e rest ih =>
    obtain ⟨o, n⟩ := e
    rw [List.map_cons, List.nodup_cons] at hv
    cases hr : p.replaceSlot o n with
    | none => rwa [updateLoop_cons_of_none hr]
    | some q =>
      rw [updateLoop_cons_of_some hr]
      refine ih (replaceSlot_nodup hp (hf n (List.mem_cons_self _ _)) hr) hv.2 fun v hv' hq => ?_
      rcases (replaceSlot_slotsFrom hr).mem_addresses hq with hp' | hn
      · exact hf v (List.mem_cons_of_mem _ hv') hp'
      · exact hv.1 (List.mem_singleton.mp hn ▸ hv')

/-- The three addresses stay pairwise distinct through any call, whatever it returns, whose
new addresses are pairwise distinct and none of them already an address of the record. -/
theorem updateFrom_nodup_addresses (p : ProtocolData C) (m : BTreeMap ContractHash ContractHash)
    (hp : p.addresses.Nodup) (hv : m.values.Nodup) (hf : ∀ v ∈ m.values, v ∉ p.addresses) :
    (p.updateFrom m).1.addresses.Nodup :=
  updateLoop_nodup hp hv hf

theorem updateFrom_nodup_addresses_example :
    let p : ProtocolData Unit :=
      ⟨(), U8Array.replicate 32 1, U8Array.replicate 32 2, U8Array.replicate 32 3⟩
    let m : BTreeMap ContractHash ContractHash :=
      ⟨[(U8Array.replicate 32 1, U8Array.replicate 32 4),
        (U8Array.replicate 32 4, U8Array.replicate 32 5)], by decide⟩
    p.addresses.Nodup ∧ m.values.Nodup ∧ (∀ v ∈ m.values, v ∉ p.addresses) ∧
      (p.updateFrom m).1.addresses.Nodup := by
  intro p m
  have hp : p.addresses.Nodup := by decide
  have hv : m.values.Nodup := by decide
  have hf : ∀ v ∈ m.values, v ∉ p.addresses := by decide
  exact ⟨hp, hv, hf, updateFrom_nodup_addresses p m hp hv hf⟩

/-! ## A failed call -/

theorem updateLoop_eq_false (h : (p.updateLoop l).2 = false) :
    ∃ pre k v post, l = pre ++ (k, v) :: post ∧ p.updateLoop pre = ((p.updateLoop l).1, true) ∧
      k ∉ (p.updateLoop l).1.addresses := by
  induction l generalizing p with
  | nil => simp at h
  | cons e rest ih =>
    obtain ⟨o, n⟩ := e
    cases hr : p.replaceSlot o n with
    | none =>
      rw [updateLoop_cons_of_none hr]
      exact ⟨[], o, n, rest, rfl, rfl, replaceSlot_eq_none.mp hr⟩
    | some q =>
      rw [updateLoop_cons_of_some hr] at h ⊢
      obtain ⟨pre, k, v, post, rfl, hpre, hk⟩ := ih h
      exact ⟨(o, n) :: pre, k, v, post, rfl, by rw [updateLoop_cons_of_some hr, hpre], hk⟩

/-- A call that returns `false` keeps the cost table and every replacement made for the keys
below the first key that matched no slot: it leaves the record that the call produces,
successfully, on those keys alone. -/
theorem updateFrom_eq_false_keeps_prefix (p : ProtocolData C)
    (m : BTreeMap ContractHash ContractHash) (h : (p.updateFrom m).2 = false) :
    (p.updateFrom m).1.wasmCosts = p.wasmCosts ∧
      ∃ k ∈ m.keys, k ∉ (p.updateFrom m).1.addresses ∧
        p.updateFrom (m.below k) = ((p.updateFrom m).1, true) := by
  obtain ⟨pre, k, v, post, hl, hpre, hk⟩ := updateLoop_eq_false h
  refine ⟨(updateLoop_slotsFrom p m.entries).1, k, ?_, hk, ?_⟩
  · simp [BTreeMap.keys, updateFrom, hl]
  · rw [updateFrom, m.below_entries hl]
    exact hpre

theorem updateFrom_eq_false_keeps_prefix_example :
    let p : ProtocolData Unit :=
      ⟨(), U8Array.replicate 32 1, U8Array.replicate 32 2, U8Array.replicate 32 3⟩
    let m : BTreeMap ContractHash ContractHash :=
      ⟨[(U8Array.replicate 32 1, U8Array.replicate 32 4),
        (U8Array.replicate 32 9, U8Array.replicate 32 5)], by decide⟩
    (p.updateFrom m).2 = false ∧ ((p.updateFrom m).1.wasmCosts = p.wasmCosts ∧
      ∃ k ∈ m.keys, k ∉ (p.updateFrom m).1.addresses ∧
        p.updateFrom (m.below k) = ((p.updateFrom m).1, true)) := by
  intro p m
  have h : (p.updateFrom m).2 = false := by decide
  exact ⟨h, updateFrom_eq_false_keeps_prefix p m h⟩

/-- A stopped run on `{[1; 32] ↦ [4; 32], [9; 32] ↦ [5; 32]}`: the mint was already replaced
when the second key matched no slot. -/
theorem updateFrom_false_changes_mint :
    let p : ProtocolData Unit :=
      ⟨(), U8Array.replicate 32 1, U8Array.replicate 32 2, U8Array.replicate 32 3⟩
    let m : BTreeMap ContractHash ContractHash :=
      ⟨[(U8Array.replicate 32 1, U8Array.replicate 32 4),
        (U8Array.replicate 32 9, U8Array.replicate 32 5)], by decide⟩
    (p.updateFrom m).2 = false ∧ (p.updateFrom m).1 ≠ p := by
  decide

/-! ## A successful call -/

theorem updateLoop_true_mem {pre post : List (ContractHash × ContractHash)} {k v : ContractHash}
    (h : (p.updateLoop (pre ++ (k, v) :: post)).2 = true) :
    k ∈ (p.updateLoop pre).1.addresses := by
  rw [updateLoop_append] at h
  split at h
  · by_contra hk
    rw [updateLoop_cons_of_none (replaceSlot_eq_none.mpr hk)] at h
    cases h
  · contradiction

/-- A call that returns `true` found every old address in a slot when its turn came: each key
is an address of the record or the new address of a pair visited before it. -/
theorem updateFrom_true_keys (p : ProtocolData C) (m : BTreeMap ContractHash ContractHash)
    (h : (p.updateFrom m).2 = true) :
    ∀ k ∈ m.keys, k ∈ p.addresses ∨ k ∈ (m.below k).values := by
  intro k hk
  obtain ⟨pre, v, post, hl⟩ := m.exists_split_of_mem_keys hk
  rw [updateFrom, hl] at h
  rw [BTreeMap.values, m.below_entries hl]
  exact (updateLoop_slotsFrom p pre).mem_addresses (updateLoop_true_mem h)

theorem updateFrom_true_keys_chain :
    let p : ProtocolData Unit :=
      ⟨(), U8Array.replicate 32 1, U8Array.replicate 32 2, U8Array.replicate 32 3⟩
    let m : BTreeMap ContractHash ContractHash :=
      ⟨[(U8Array.replicate 32 1, U8Array.replicate 32 4),
        (U8Array.replicate 32 4, U8Array.replicate 32 5)], by decide⟩
    (p.updateFrom m).2 = true ∧
      ∀ k ∈ m.keys, k ∈ p.addresses ∨ k ∈ (m.below k).values := by
  intro p m
  have h : (p.updateFrom m).2 = true := by decide
  exact ⟨h, updateFrom_true_keys p m h⟩

/-! ## Splitting a call at a key -/

/-- One call on `updates` is the call on its keys below `k` followed, when that returns
`true`, by the call on its keys from `k` on: the two leave the same record and return the same
value, for every `k`. -/
theorem updateFrom_eq_below_then_atOrAbove (p : ProtocolData C)
    (m : BTreeMap ContractHash ContractHash) (k : ContractHash) :
    p.updateFrom m = if (p.updateFrom (m.below k)).2 then
      (p.updateFrom (m.below k)).1.updateFrom (m.atOrAbove k) else p.updateFrom (m.below k) := by
  show p.updateLoop m.entries = _
  rw [← m.below_append_atOrAbove k, updateLoop_append]
  rfl

/-- A call returns `true` exactly when every key, at its turn, is an address of the record
that the keys below it have left. -/
theorem updateFrom_eq_true_iff (p : ProtocolData C) (m : BTreeMap ContractHash ContractHash) :
    (p.updateFrom m).2 = true ↔ ∀ k ∈ m.keys, k ∈ (p.updateFrom (m.below k)).1.addresses := by
  constructor
  · intro h k hk
    obtain ⟨pre, v, post, hl⟩ := m.exists_split_of_mem_keys hk
    rw [updateFrom, hl] at h
    rw [updateFrom, m.below_entries hl]
    exact updateLoop_true_mem h
  · intro h
    by_contra hf
    obtain ⟨pre, k, v, post, hl, hpre, hk⟩ := updateLoop_eq_false (Bool.eq_false_iff.mpr hf)
    have hmem := h k (by simp [BTreeMap.keys, hl])
    rw [updateFrom, m.below_entries hl, hpre] at hmem
    exact hk hmem

/-! ## Simultaneous substitution -/

/-- The record with every address `a` replaced by `f a`. -/
def mapAddresses (f : ContractHash → ContractHash) (p : ProtocolData C) : ProtocolData C :=
  { p with mint := f p.mint, proofOfStake := f p.proofOfStake,
           standardPayment := f p.standardPayment }

/-- The spec's reading of `update_from`: each slot whose address is a key of `updates` takes
that key's new address, all slots at once. -/
def substitute (p : ProtocolData C) (updates : BTreeMap ContractHash ContractHash) :
    ProtocolData C :=
  p.mapAddresses fun a => (updates.get? a).getD a

/-- What `a` becomes under the pairs `l` read as a substitution. -/
def substAddr (l : List (ContractHash × ContractHash)) (a : ContractHash) : ContractHash :=
  (l.lookup a).getD a

section Substitution
variable {pre : List (ContractHash × ContractHash)} {k v a : ContractHash}

theorem substAddr_append_singleton (hk : k ∉ pre.map Prod.fst) :
    substAddr (pre ++ [(k, v)]) a = if a = k then v else substAddr pre a := by
  unfold substAddr
  rw [List.lookup_append]
  split_ifs with h
  · subst h
    rw [List.lookup_eq_none_iff.mpr fun e he => bne_iff_ne.mpr fun (hae : a = e.1) =>
      hk (hae ▸ List.mem_map_of_mem Prod.fst he)]
    simp
  · rw [List.lookup_cons, beq_false_of_ne h, List.lookup_nil, Option.or_none]

theorem substAddr_eq_iff (hk : k ∉ pre.map Prod.fst) (hv : k ∉ pre.map Prod.snd) :
    substAddr pre a = k ↔ a = k := by
  unfold substAddr
  cases h : pre.lookup a with
  | none => rfl
  | some w =>
    obtain ⟨l₁, l₂, rfl, -⟩ := List.lookup_eq_some_iff.mp h
    simp only [List.map_append, List.map_cons, List.mem_append, List.mem_cons, not_or] at hk hv
    exact ⟨fun hw => absurd hw.symm hv.2.1, fun ha => absurd ha.symm hk.2.1⟩

theorem replaceSlot_mapAddresses_of_not_mem (hk : k ∉ pre.map Prod.fst)
    (hv : k ∉ pre.map Prod.snd) (ha : k ∉ p.addresses) :
    (p.mapAddresses (substAddr pre)).replaceSlot k v = none := by
  rw [replaceSlot_eq_none]
  simpa [mapAddresses, addresses, eq_comm (a := k), substAddr_eq_iff hk hv] using ha

theorem replaceSlot_mapAddresses_of_mem (hp : p.addresses.Nodup) (hk : k ∉ pre.map Prod.fst)
    (hv : k ∉ pre.map Prod.snd) (ha : k ∈ p.addresses) :
    (p.mapAddresses (substAddr pre)).replaceSlot k v =
      some (p.mapAddresses (substAddr (pre ++ [(k, v)]))) := by
  simp only [addresses, List.nodup_cons, List.mem_cons, List.mem_singleton, List.not_mem_nil,
    or_false, not_or, List.nodup_nil, and_true] at hp ha
  obtain ⟨⟨h₁, h₂⟩, h₃, -⟩ := hp
  simp only [replaceSlot, mapAddresses, eq_comm (a := k), substAddr_eq_iff hk hv,
    substAddr_append_singleton hk]
  rcases ha with rfl | rfl | rfl <;> simp_all [Ne.symm]

variable {E : List (ContractHash × ContractHash)} (hp : p.addresses.Nodup)
  (hn : (E.map Prod.fst).Nodup)
  (hv : ∀ pre k v post, pre ++ (k, v) :: post = E → k ∉ pre.map Prod.snd)
include hn hv

theorem fresh_of_append {post : List (ContractHash × ContractHash)}
    (h : pre ++ (k, v) :: post = E) : k ∉ pre.map Prod.fst ∧ k ∉ pre.map Prod.snd := by
  refine ⟨fun hk => ?_, hv pre k v post h⟩
  subst h
  simp only [List.map_append, List.map_cons, List.Nodup, List.pairwise_append] at hn
  exact hn.2.2 k hk k (List.mem_cons_self _ _) rfl

include hp

theorem updateLoop_mapAddresses_of_forall (pre l : List (ContractHash × ContractHash))
    (h : pre ++ l = E) (hl : ∀ k ∈ l.map Prod.fst, k ∈ p.addresses) :
    (p.mapAddresses (substAddr pre)).updateLoop l = (p.mapAddresses (substAddr E), true) := by
  induction l generalizing pre with
  | nil => simp only [List.append_nil] at h; subst h; rfl
  | cons e rest ih =>
    obtain ⟨k, v⟩ := e
    obtain ⟨hk, hk'⟩ := fresh_of_append hn hv h
    rw [updateLoop_cons_of_some (replaceSlot_mapAddresses_of_mem hp hk hk' (hl k (by simp)))]
    exact ih (pre ++ [(k, v)]) (by simpa using h) fun k hk => hl k (by simp [hk])

theorem updateLoop_mapAddresses_of_exists (pre l : List (ContractHash × ContractHash))
    (h : pre ++ l = E) (hl : ∃ k ∈ l.map Prod.fst, k ∉ p.addresses) :
    ((p.mapAddresses (substAddr pre)).updateLoop l).2 = false := by
  induction l generalizing pre with
  | nil => simp at hl
  | cons e rest ih =>
    obtain ⟨k, v⟩ := e
    obtain ⟨hk, hk'⟩ := fresh_of_append hn hv h
    by_cases ha : k ∈ p.addresses
    · rw [updateLoop_cons_of_some (replaceSlot_mapAddresses_of_mem hp hk hk' ha)]
      refine ih (pre ++ [(k, v)]) (by simpa using h) ?_
      obtain ⟨k', hk'', hna⟩ := hl
      rcases List.mem_cons.mp hk'' with rfl | hrest
      · exact absurd ha hna
      · exact ⟨k', hrest, hna⟩
    · rw [updateLoop_cons_of_none (replaceSlot_mapAddresses_of_not_mem hk hk' ha)]

end Substitution

/-- When the three addresses differ and no key of the map is the new address of a pair below
it, `update_from` succeeds exactly when every key is one of the record's addresses, and then it
performs the simultaneous substitution. -/
theorem updateFrom_eq_substitute_of_fresh (p : ProtocolData C)
    (m : BTreeMap ContractHash ContractHash) (hp : p.addresses.Nodup)
    (hm : ∀ k ∈ m.keys, k ∉ (m.below k).values) :
    ((p.updateFrom m).2 = true ↔ ∀ k ∈ m.keys, k ∈ p.addresses) ∧
      ((p.updateFrom m).2 = true → (p.updateFrom m).1 = p.substitute m) := by
  have hv : ∀ pre k v post, pre ++ (k, v) :: post = m.entries → k ∉ pre.map Prod.snd :=
    fun pre k v post h => by
      simpa [BTreeMap.values, m.below_entries h.symm] using hm k (by simp [BTreeMap.keys, ← h])
  rw [updateFrom]
  by_cases hall : ∀ k ∈ m.keys, k ∈ p.addresses
  · have h : p.updateLoop m.entries = (p.mapAddresses (substAddr m.entries), true) :=
      updateLoop_mapAddresses_of_forall hp m.keys_nodup hv [] m.entries rfl hall
    rw [h]
    exact ⟨iff_of_true rfl hall, fun _ => rfl⟩
  · have h : (p.updateLoop m.entries).2 = false :=
      updateLoop_mapAddresses_of_exists hp m.keys_nodup hv [] m.entries rfl
        (by simpa [BTreeMap.keys] using hall)
    rw [h]
    exact ⟨iff_of_false Bool.false_ne_true hall, fun h' => absurd h' Bool.false_ne_true⟩

theorem updateFrom_eq_substitute_of_fresh_example :
    let p : ProtocolData Unit :=
      ⟨(), U8Array.replicate 32 1, U8Array.replicate 32 2, U8Array.replicate 32 3⟩
    let m : BTreeMap ContractHash ContractHash :=
      ⟨[(U8Array.replicate 32 1, U8Array.replicate 32 5),
        (U8Array.replicate 32 2, U8Array.replicate 32 1)], by decide⟩
    p.addresses.Nodup ∧ (∀ k ∈ m.keys, k ∉ (m.below k).values) ∧
      (((p.updateFrom m).2 = true ↔ ∀ k ∈ m.keys, k ∈ p.addresses) ∧
        ((p.updateFrom m).2 = true → (p.updateFrom m).1 = p.substitute m)) := by
  intro p m
  have hp : p.addresses.Nodup := by decide
  have hm : ∀ k ∈ m.keys, k ∉ (m.below k).values := by decide
  exact ⟨hp, hm, updateFrom_eq_substitute_of_fresh p m hp hm⟩

/-- The swap `{[1; 32] ↦ [2; 32], [2; 32] ↦ [1; 32]}` on a record with three distinct addresses:
the second pair undoes the first, so the call returns `true` with the record unchanged, while
the substitution would exchange mint and proof of stake. -/
theorem updateFrom_swap_not_substitute :
    let p : ProtocolData Unit :=
      ⟨(), U8Array.replicate 32 1, U8Array.replicate 32 2, U8Array.replicate 32 3⟩
    let m : BTreeMap ContractHash ContractHash :=
      ⟨[(U8Array.replicate 32 1, U8Array.replicate 32 2),
        (U8Array.replicate 32 2, U8Array.replicate 32 1)], by decide⟩
    p.addresses.Nodup ∧ p.updateFrom m = (p, true) ∧ p.substitute m ≠ p := by
  decide

end ProtocolData
end EngineStorage
