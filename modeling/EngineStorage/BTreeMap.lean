import EngineStorage.Bytesrepr

/-! # `BTreeMap` as its iterator sees it

A map is its list of entries in strictly ascending key order, the order in which
`for (k, v) in map` visits them. Only the reads that `protocol_data.rs` and the statements
about it make are modelled.
-/
namespace EngineStorage

/-- A `BTreeMap`: entries sorted strictly by key, so that no key occurs twice. -/
structure BTreeMap (κ ν : Type) [LinearOrder κ] where
  entries : List (κ × ν)
  sorted : entries.Pairwise (fun a b => a.1 < b.1)

namespace BTreeMap
variable {κ ν : Type} [LinearOrder κ] (m : BTreeMap κ ν)

def keys : List κ := m.entries.map Prod.fst

def values : List ν := m.entries.map Prod.snd

/-- `BTreeMap::get`. -/
def get? (k : κ) : Option ν := m.entries.lookup k

/-- `BTreeMap::range(..k)`: the entries whose keys lie below `k`. -/
def below (k : κ) : BTreeMap κ ν :=
  ⟨m.entries.filter (fun e => e.1 < k), m.sorted.sublist (List.filter_sublist _)⟩

/-- `BTreeMap::split_off(&k)`: the entries whose keys are `k` or above. -/
def atOrAbove (k : κ) : BTreeMap κ ν :=
  ⟨m.entries.filter (fun e => k ≤ e.1), m.sorted.sublist (List.filter_sublist _)⟩

theorem keys_nodup : m.keys.Nodup :=
  List.pairwise_map.mpr (m.sorted.imp ne_of_lt)

theorem exists_split_of_mem_keys {k : κ} (hk : k ∈ m.keys) :
    ∃ pre v post, m.entries = pre ++ (k, v) :: post := by
  obtain ⟨⟨k, v⟩, he, rfl⟩ := List.mem_map.mp hk
  obtain ⟨pre, post, hl⟩ := List.append_of_mem he
  exact ⟨pre, v, post, hl⟩

theorem below_entries {pre post : List (κ × ν)} {k : κ} {v : ν}
    (h : m.entries = pre ++ (k, v) :: post) : (m.below k).entries = pre := by
  have hs := m.sorted
  rw [h, List.pairwise_append, List.pairwise_cons] at hs
  obtain ⟨-, ⟨hk, -⟩, hpre⟩ := hs
  have hkeep : ∀ e ∈ pre, decide (e.1 < k) = true :=
    fun e he => decide_eq_true (hpre e he (k, v) (List.mem_cons_self _ _))
  have hdrop : ∀ e ∈ (k, v) :: post, ¬ decide (e.1 < k) = true := by
    intro e he
    rcases List.mem_cons.mp he with rfl | he
    · simp
    · simpa using (hk e he).le
  simp only [below, h, List.filter_append, List.filter_eq_self.mpr hkeep,
    List.filter_eq_nil_iff.mpr hdrop, List.append_nil]

theorem below_append_atOrAbove (k : κ) :
    (m.below k).entries ++ (m.atOrAbove k).entries = m.entries := by
  obtain ⟨l, hl⟩ := m
  simp only [below, atOrAbove]
  induction l with
  | nil => rfl
  | cons e rest ih =>
    obtain ⟨he, hrest⟩ := List.pairwise_cons.mp hl
    by_cases hek : e.1 < k
    · simp [List.filter_cons, hek, not_le.mpr hek, ih hrest]
    · have hup : ∀ a ∈ e :: rest, k ≤ a.1 := List.forall_mem_cons.mpr
        ⟨not_lt.mp hek, fun a ha => (not_lt.mp hek).trans (he a ha).le⟩
      rw [List.filter_eq_nil_iff.mpr fun a ha => by simpa using hup a ha,
        List.filter_eq_self.mpr fun a ha => decide_eq_true (hup a ha), List.nil_append]

end BTreeMap

end EngineStorage
