import Ember.Fault
import Ember.Value

/-!
# Ember — dicts

A dict maps texts to values. It has a fixed number of buckets, chosen when it is made; a key belongs
to the bucket that its hash selects, and each bucket keeps its entries in the order in which their
keys were first added. A dict counts its entries, so that its size is known without a walk.

* `Dict.get?`, `Dict.insert` — reading and writing by key.
* `Dict.entries`             — all entries, bucket by bucket.
-/

namespace Ember

def hashText (s : String) : UInt64 :=
  s.toUTF8.toList.foldl (fun h b => (h ^^^ b.toUInt64) * 0x100000001b3) 0xcbf29ce484222325

def bucketAmong (buckets : Nat) (key : String) : Nat :=
  (hashText key).toNat % buckets

/-! ## Chains -/

abbrev Chain := List (String × Value)

namespace Chain

/-- Replaces the value of a key, or adds the key at the end. -/
def insert (key : String) (v : Value) : Chain → Chain
  | [] => [(key, v)]
  | (k, w) :: rest => if k = key then (k, v) :: rest else (k, w) :: Chain.insert key v rest

variable {key : String} {v : Value} {chain : Chain}

theorem mem_insert {e : String × Value} (he : e ∈ Chain.insert key v chain) :
    e = (key, v) ∨ e ∈ chain := by
  induction chain with
  | nil => exact .inl (List.mem_singleton.mp he)
  | cons first rest ih =>
    unfold Chain.insert at he
    split at he
    · rename_i hkey
      rcases List.mem_cons.mp he with rfl | he
      · exact .inl (congrArg (·, v) hkey)
      · exact .inr (List.mem_cons_of_mem _ he)
    · rcases List.mem_cons.mp he with rfl | he
      · exact .inr List.mem_cons_self
      · exact (ih he).imp_right (List.mem_cons_of_mem _)

/-- A key that is there keeps its place, and a new one comes last. -/
theorem map_fst_insert : (Chain.insert key v chain).map Prod.fst =
    if key ∈ chain.map Prod.fst then chain.map Prod.fst else chain.map Prod.fst ++ [key] := by
  induction chain with
  | nil => rfl
  | cons first rest ih =>
    by_cases hkey : first.1 = key
    · simp [Chain.insert, hkey]
    · by_cases hmem : key ∈ rest.map Prod.fst <;>
        simp_all [Chain.insert, Ne.symm hkey]

end Chain

/-! ## Dicts -/

/-- A map from texts to values. -/
structure Dict where
  buckets : Array Chain
  /-- The number of entries. -/
  count : Nat
  nonempty : 0 < buckets.size
  /-- A key is in no bucket but its own. -/
  placed : ∀ (i : Nat) (chain : Chain), buckets[i]? = some chain →
    ∀ e ∈ chain, bucketAmong buckets.size e.1 = i
  distinct : ∀ (i : Nat) (chain : Chain), buckets[i]? = some chain → (chain.map Prod.fst).Nodup
  counted : count = buckets.toList.flatten.length
deriving DecidableEq

namespace Dict

/-- A dict without entries. There is at least one bucket. -/
def empty (buckets : Nat) : Dict where
  buckets := Array.replicate (max buckets 1) []
  count := 0
  nonempty := by
    rw [Array.size_replicate]
    omega
  placed i chain hchain e he := by
    obtain ⟨-, rfl⟩ : i < max buckets 1 ∧ [] = chain := by simpa [Array.getElem?_replicate] using hchain
    cases he
  distinct i chain hchain := by
    obtain ⟨-, rfl⟩ : i < max buckets 1 ∧ [] = chain := by simpa [Array.getElem?_replicate] using hchain
    exact .nil
  counted := by simp

def make (buckets : Nat) : Except Fault Dict := do
  checkStorage buckets 24
  return empty buckets

def bucketOf (d : Dict) (key : String) : Nat :=
  bucketAmong d.buckets.size key

def get? (d : Dict) (key : String) : Option Value :=
  (d.buckets[d.bucketOf key]?).bind fun chain => chain.lookup key

def contains (d : Dict) (key : String) : Bool :=
  (d.get? key).isSome

theorem exists_chain (d : Dict) (key : String) :
    ∃ chain, d.buckets[d.bucketOf key]? = some chain :=
  ⟨_, Array.getElem?_eq_getElem (Nat.mod_lt _ d.nonempty)⟩

theorem contains_iff {d : Dict} {key : String} {chain : Chain}
    (hchain : d.buckets[d.bucketOf key]? = some chain) :
    d.contains key = true ↔ key ∈ chain.map Prod.fst := by
  rw [contains, get?, hchain]
  simp

/-- What a change of one chain does to the number of entries. -/
theorem length_flatten_modify {chains : List Chain} {i : Nat} {chain : Chain} (f : Chain → Chain)
    (hchain : chains[i]? = some chain) :
    (chains.modify i f).flatten.length + chain.length =
      chains.flatten.length + (f chain).length := by
  induction chains generalizing i with
  | nil => cases hchain
  | cons first rest ih =>
    cases i with
    | zero =>
      obtain rfl : first = chain := Option.some.inj hchain
      simp only [List.modify_zero_cons, List.flatten_cons, List.length_append]
      omega
    | succ i =>
      have hrest := ih hchain
      simp only [List.modify_succ_cons, List.flatten_cons, List.length_append]
      omega

def insert (d : Dict) (key : String) (v : Value) : Dict where
  buckets := d.buckets.modify (d.bucketOf key) (Chain.insert key v)
  count := if d.contains key then d.count else d.count + 1
  nonempty := by
    rw [Array.size_modify]
    exact d.nonempty
  placed i chain hchain e he := by
    rw [Array.size_modify]
    rw [Array.getElem?_modify] at hchain
    split at hchain
    · obtain ⟨old, hold, rfl⟩ := Option.map_eq_some_iff.mp hchain
      rcases Chain.mem_insert he with rfl | he
      · assumption
      · exact d.placed i old hold e he
    · exact d.placed i chain hchain e he
  distinct i chain hchain := by
    rw [Array.getElem?_modify] at hchain
    split at hchain
    · obtain ⟨old, hold, rfl⟩ := Option.map_eq_some_iff.mp hchain
      have hdistinct := d.distinct i old hold
      rw [Chain.map_fst_insert]
      split
      · exact hdistinct
      · rename_i hnew
        refine List.nodup_append.mpr ⟨hdistinct, by simp, fun k hk k' hk' heq => hnew ?_⟩
        obtain rfl := List.mem_singleton.mp hk'
        exact heq ▸ hk
    · exact d.distinct i chain hchain
  counted := by
    obtain ⟨chain, hchain⟩ := d.exists_chain key
    have hsum := length_flatten_modify (Chain.insert key v)
      (show d.buckets.toList[d.bucketOf key]? = some chain by rw [Array.getElem?_toList, hchain])
    have hlength := congrArg List.length (@Chain.map_fst_insert key v chain)
    rw [Array.toList_modify, d.counted]
    by_cases hkey : key ∈ chain.map Prod.fst
    · rw [if_pos ((contains_iff hchain).mpr hkey)]
      rw [if_pos hkey] at hlength
      simp only [List.length_map] at hlength
      omega
    · rw [if_neg fun hc => hkey ((contains_iff hchain).mp hc)]
      rw [if_neg hkey] at hlength
      simp only [List.length_map, List.length_append, List.length_cons, List.length_nil] at hlength
      omega

def entries (d : Dict) : List (String × Value) :=
  d.buckets.toList.flatten

def keys (d : Dict) : List String :=
  d.entries.map Prod.fst

def values (d : Dict) : List Value :=
  d.entries.map Prod.snd

def size (d : Dict) : Nat :=
  d.count

def isEmpty (d : Dict) : Bool :=
  d.count == 0

end Dict

end Ember
