import Mathlib
import Ember.Heap.Dict

/-!
# Ember — dicts are finite maps

Whatever texts were inserted, in whatever order and however their hashes collide, a dict answers each
of them with the value inserted last, and lists each of them once. The list goes bucket by bucket, and
within a bucket in the order of the first insertions.

Main results: `Dict.get?_insertAll`, `Dict.keys_insertAll`, `Dict.size_insertAll`.
-/

namespace Ember

variable {chain : Chain}

namespace Chain

theorem lookup_cons (e : String × Value) (chain : Chain) (k : String) :
    List.lookup k (e :: chain) = if k = e.1 then some e.2 else chain.lookup k := by
  rw [List.lookup_cons]
  by_cases hk : k = e.1
  · simp [hk]
  · rw [if_neg hk, beq_false_of_ne hk]

theorem lookup_insert (chain : Chain) (key k : String) (v : Value) :
    (Chain.insert key v chain).lookup k = if k = key then some v else chain.lookup k := by
  induction chain with
  | nil => exact lookup_cons ..
  | cons first rest ih =>
    unfold Chain.insert
    split
    · -- the entry of the key is replaced, and every other key is found behind it as before
      rename_i hkey
      rw [lookup_cons, lookup_cons, hkey]
      split <;> rfl
    · rename_i hkey
      rw [lookup_cons, lookup_cons, ih]
      by_cases hk : k = first.1
      · rw [if_pos hk, if_pos hk, if_neg (hk ▸ hkey)]
      · rw [if_neg hk, if_neg hk]

theorem lookup_eq_some_iff (hdist : (chain.map Prod.fst).Nodup) {k : String} {v : Value} :
    chain.lookup k = some v ↔ (k, v) ∈ chain := by
  induction chain with
  | nil => simp
  | cons first rest ih =>
    obtain ⟨hnew, hrest⟩ := List.nodup_cons.mp hdist
    rw [lookup_cons, List.mem_cons, ← ih hrest]
    by_cases hk : k = first.1
    · have hnot : rest.lookup k ≠ some v := fun hlookup =>
        hnew (hk ▸ List.mem_map_of_mem ((ih hrest).mp hlookup))
      simp [hk, Prod.ext_iff, eq_comm, hk ▸ hnot]
    · simp [hk, Prod.ext_iff]

end Chain

namespace Dict

variable (d : Dict) (key k : String) (v : Value)

/-! ## A dict as a map -/

/-- **An insertion changes the value of its key, and no other.** -/
theorem get?_insert : (d.insert key v).get? k = if k = key then some v else d.get? k := by
  have hsize : (d.insert key v).bucketOf k = d.bucketOf k := by
    show bucketAmong (d.buckets.modify _ _).size k = _
    rw [Array.size_modify]
    rfl
  unfold get?
  rw [hsize]
  show ((d.buckets.modify (d.bucketOf key) _)[d.bucketOf k]?).bind _ = _
  rw [Array.getElem?_modify]
  obtain ⟨chain, hchain⟩ := d.exists_chain k
  rw [hchain]
  by_cases hbucket : d.bucketOf key = d.bucketOf k
  · rw [if_pos hbucket]
    exact chain.lookup_insert key k v
  · -- another bucket holds another key
    have hk : k ≠ key := fun heq => hbucket (heq ▸ rfl)
    rw [if_neg hbucket, if_neg hk]

variable {d k v}

theorem mem_entries : (k, v) ∈ d.entries ↔ ∃ (i : Nat) (chain : Chain),
    d.buckets[i]? = some chain ∧ (k, v) ∈ chain := by
  unfold entries
  rw [List.mem_flatten]
  constructor
  · rintro ⟨chain, hchain, hmem⟩
    obtain ⟨i, hi⟩ := Array.mem_iff_getElem?.mp (Array.mem_toList_iff.mp hchain)
    exact ⟨i, chain, hi, hmem⟩
  · rintro ⟨i, chain, hi, hmem⟩
    exact ⟨chain, Array.mem_toList_iff.mpr (Array.mem_of_getElem? hi), hmem⟩

theorem mem_entries_iff : (k, v) ∈ d.entries ↔ d.get? k = some v := by
  obtain ⟨chain, hchain⟩ := d.exists_chain k
  have hget : d.get? k = chain.lookup k := by
    unfold get?
    rw [hchain]
    rfl
  rw [hget, Chain.lookup_eq_some_iff (d.distinct _ chain hchain), mem_entries]
  constructor
  · rintro ⟨i, other, hi, hmem⟩
    -- an entry of that key is in the bucket of the key only
    obtain rfl : d.bucketOf k = i := d.placed i other hi _ hmem
    rwa [Option.some.inj (hchain.symm.trans hi)]
  · exact fun hmem => ⟨_, chain, hchain, hmem⟩

theorem mem_keys_iff : k ∈ d.keys ↔ d.contains k = true := by
  unfold keys contains
  rw [Option.isSome_iff_exists, List.mem_map]
  constructor
  · rintro ⟨⟨k', w⟩, hmem, rfl⟩
    exact ⟨w, mem_entries_iff.mp hmem⟩
  · rintro ⟨w, hw⟩
    exact ⟨(k, w), mem_entries_iff.mpr hw, rfl⟩

variable (d)

theorem nodup_keys : d.keys.Nodup := by
  unfold keys entries
  rw [List.map_flatten, List.nodup_flatten]
  constructor
  · intro l hl
    obtain ⟨chain, hchain, rfl⟩ := List.mem_map.mp hl
    obtain ⟨i, hi⟩ := Array.mem_iff_getElem?.mp (Array.mem_toList_iff.mp hchain)
    exact d.distinct i chain hi
  · -- different buckets hold keys of different places
    rw [List.pairwise_map, List.pairwise_iff_getElem]
    intro i j hi hj hlt
    rw [List.disjoint_left]
    intro key hkey hkey'
    obtain ⟨e, he, rfl⟩ := List.mem_map.mp hkey
    obtain ⟨e', he', heq⟩ := List.mem_map.mp hkey'
    have hplace := d.placed i _ (by rw [← Array.getElem?_toList]; exact List.getElem?_eq_getElem hi) e he
    have hplace' := d.placed j _ (by rw [← Array.getElem?_toList]; exact List.getElem?_eq_getElem hj) e' he'
    rw [heq, hplace] at hplace'
    omega

theorem size_eq : d.size = d.keys.length := by
  unfold size keys entries
  rw [d.counted, List.length_map]

theorem map_some_values : d.values.map some = d.keys.map d.get? := by
  unfold values keys
  rw [List.map_map, List.map_map]
  apply List.map_congr_left
  intro e he
  exact (mem_entries_iff.mp he).symm

/-! ## Sequences of insertions -/

/-- A dict after insertions. -/
def insertAll (l : List (String × Value)) : Dict :=
  l.foldl (fun d e => d.insert e.1 e.2) d

/-- The keys of insertions in the order in which each came first. -/
def firstKeys (l : List (String × Value)) : List String :=
  (l.map Prod.fst).eraseDups

theorem insertAll_append (l : List (String × Value)) (e : String × Value) :
    d.insertAll (l ++ [e]) = (d.insertAll l).insert e.1 e.2 := by
  simp [insertAll]

theorem firstKeys_append (l : List (String × Value)) (e : String × Value) :
    firstKeys (l ++ [e]) =
      if e.1 ∈ l.map Prod.fst then firstKeys l else firstKeys l ++ [e.1] := by
  unfold firstKeys
  rw [List.map_append, List.eraseDups_append]
  by_cases he : e.1 ∈ l.map Prod.fst <;> simp_all [List.removeAll, List.eraseDups_cons]

theorem mem_firstKeys {l : List (String × Value)} : k ∈ firstKeys l ↔ k ∈ l.map Prod.fst :=
  List.mem_eraseDups

theorem nodup_firstKeys (l : List (String × Value)) : (firstKeys l).Nodup := by
  induction l using List.reverseRecOn with
  | nil => exact .nil
  | append_singleton l e ih =>
    rw [firstKeys_append]
    split
    · exact ih
    · rename_i he
      refine List.nodup_append.mpr ⟨ih, by simp, fun k hk k' hk' heq => he ?_⟩
      obtain rfl := List.mem_singleton.mp hk'
      exact mem_firstKeys.mp (heq ▸ hk)

theorem get?_insertAll (n : Nat) (l : List (String × Value)) (k : String) :
    ((empty n).insertAll l).get? k = l.reverse.lookup k := by
  induction l using List.reverseRecOn with
  | nil =>
    obtain ⟨chain, hchain⟩ := (empty n).exists_chain k
    have hnil : chain = [] := by
      have hreplicate := Array.mem_of_getElem? hchain
      exact (Array.mem_replicate.mp hreplicate).2
    show (empty n).get? k = none
    unfold get?
    rw [hchain, hnil]
    rfl
  | append_singleton l e ih =>
    rw [insertAll_append, get?_insert, ih, List.reverse_append]
    exact (Chain.lookup_cons e l.reverse k).symm

theorem size_buckets_insertAll (l : List (String × Value)) :
    (d.insertAll l).buckets.size = d.buckets.size := by
  induction l using List.reverseRecOn with
  | nil => rfl
  | append_singleton l e ih =>
    rw [insertAll_append, ← ih]
    exact Array.size_modify

theorem chain_insertAll (n : Nat) (l : List (String × Value)) {i : Nat}
    (hchain : ((empty n).insertAll l).buckets[i]? = some chain) :
    chain.map Prod.fst = (firstKeys l).filter fun k => bucketAmong (max n 1) k = i := by
  induction l using List.reverseRecOn generalizing chain with
  | nil =>
    have hreplicate := Array.mem_of_getElem? hchain
    rw [(Array.mem_replicate.mp hreplicate).2]
    rfl
  | append_singleton l e ih =>
    have hsize : ((empty n).insertAll l).buckets.size = max n 1 := by
      rw [size_buckets_insertAll]
      exact Array.size_replicate
    have hbucket : ((empty n).insertAll l).bucketOf e.1 = bucketAmong (max n 1) e.1 := by
      unfold bucketOf
      rw [hsize]
    rw [insertAll_append] at hchain
    have hchain : (((empty n).insertAll l).buckets.modify _ _)[i]? = some chain := hchain
    rw [Array.getElem?_modify, hbucket] at hchain
    rw [firstKeys_append]
    split at hchain
    · rename_i hi
      obtain ⟨old, hold, rfl⟩ := Option.map_eq_some_iff.mp hchain
      have hkeys := ih hold
      -- the key is in its chain if it was inserted before
      have hmem : e.1 ∈ old.map Prod.fst ↔ e.1 ∈ l.map Prod.fst := by
        rw [hkeys, List.mem_filter, mem_firstKeys]
        simp [hi]
      rw [Chain.map_fst_insert]
      by_cases he : e.1 ∈ l.map Prod.fst
      · rw [if_pos (hmem.mpr he), if_pos he, hkeys]
      · rw [if_neg (mt hmem.mp he), if_neg he, hkeys, List.filter_append]
        simp [hi]
    · rename_i hi
      have hkeys := ih hchain
      by_cases he : e.1 ∈ l.map Prod.fst
      · rw [if_pos he, hkeys]
      · rw [if_neg he, hkeys, List.filter_append]
        simp [hi]

/-- **The keys come bucket by bucket**, and within a bucket in the order of the first insertions. -/
theorem keys_insertAll (n : Nat) (l : List (String × Value)) :
    ((empty n).insertAll l).keys = (List.range (max n 1)).flatMap fun i =>
      (firstKeys l).filter fun k => bucketAmong (max n 1) k = i := by
  have hsize : ((empty n).insertAll l).buckets.size = max n 1 := by
    rw [size_buckets_insertAll]
    exact Array.size_replicate
  have hchains : ((empty n).insertAll l).buckets.toList.map (List.map Prod.fst) =
      (List.range (max n 1)).map fun i =>
        (firstKeys l).filter fun k => bucketAmong (max n 1) k = i := by
    apply List.ext_getElem?
    intro i
    rw [List.getElem?_map, List.getElem?_map, Array.getElem?_toList]
    by_cases hi : i < max n 1
    · have hchain := Array.getElem?_eq_getElem (hsize ▸ hi)
      rw [hchain, List.getElem?_range hi]
      exact congrArg some (chain_insertAll n l hchain)
    · rw [Array.getElem?_eq_none (by omega), List.getElem?_eq_none (by simp; omega)]
      rfl
  unfold keys entries
  rw [List.map_flatten, hchains, List.flatMap_def]

theorem contains_insertAll (n : Nat) (l : List (String × Value)) :
    ((empty n).insertAll l).contains k = true ↔ k ∈ l.map Prod.fst := by
  rw [contains, get?_insertAll]
  simp

theorem size_insertAll (n : Nat) (l : List (String × Value)) :
    ((empty n).insertAll l).size = (firstKeys l).length := by
  rw [size_eq]
  refine List.Perm.length_eq ?_
  rw [List.perm_ext_iff_of_nodup (nodup_keys _) (nodup_firstKeys l)]
  intro k
  rw [mem_keys_iff, contains_insertAll, mem_firstKeys]

end Dict

end Ember
