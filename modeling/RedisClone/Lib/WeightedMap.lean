import Mathlib.Data.List.AList
import Mathlib.Tactic

namespace RedisClone.Lib.WeightedMap

variable {K V : Type} [DecidableEq K] (w : K → V → ℤ)

def total (m : AList (fun _ : K => V)) : ℤ := (m.entries.map fun e => w e.1 e.2).sum

def weight (m : AList (fun _ : K => V)) (k : K) : ℤ :=
  match m.lookup k with
  | some v => w k v
  | none => 0

lemma sum_kerase (k : K) (l : List (Sigma fun _ : K => V)) :
    ((l.kerase k).map fun e => w e.1 e.2).sum =
      (l.map fun e => w e.1 e.2).sum - ((l.dlookup k).elim 0 (w k)) := by
  induction l with
  | nil => simp
  | cons e l ih =>
    obtain ⟨k', v⟩ := e
    by_cases hk : k = k'
    · subst hk
      simp
    · rw [List.kerase_cons_ne hk, List.dlookup_cons_ne l (⟨k', v⟩ : Sigma fun _ : K => V) hk]
      simp only [List.map_cons, List.sum_cons, ih]
      ring

lemma weight_eq (m : AList (fun _ : K => V)) (k : K) :
    weight w m k = (m.entries.dlookup k).elim 0 (w k) := by
  simp only [weight, AList.lookup]
  cases m.entries.dlookup k <;> rfl

omit [DecidableEq K] in
@[simp] lemma total_empty : total w ∅ = 0 := rfl

lemma total_erase (m : AList (fun _ : K => V)) (k : K) :
    total w (m.erase k) = total w m - weight w m k := by
  rw [weight_eq]
  exact sum_kerase w k m.entries

lemma total_insert (m : AList (fun _ : K => V)) (k : K) (v : V) :
    total w (m.insert k v) = total w m - weight w m k + w k v := by
  rw [weight_eq, total, AList.entries_insert, List.map_cons, List.sum_cons, sum_kerase]
  simp only [total]
  ring

lemma length_erase {m : AList (fun _ : K => V)} {k : K} (h : k ∈ m) :
    (m.erase k).keys.length + 1 = m.keys.length := by
  rw [AList.keys_erase]
  exact List.length_erase_add_one h

omit [DecidableEq K] in
lemma total_nonneg (hw : ∀ k v, 0 ≤ w k v) (m : AList (fun _ : K => V)) : 0 ≤ total w m := by
  refine List.sum_nonneg fun z hz => ?_
  obtain ⟨e, -, rfl⟩ := List.mem_map.1 hz
  exact hw _ _

lemma weight_insert (m : AList (fun _ : K => V)) (k k' : K) (v : V) :
    weight w (m.insert k v) k' = if k' = k then w k v else weight w m k' := by
  unfold weight
  split_ifs with hk
  · subst hk
    rw [AList.lookup_insert]
  · rw [AList.lookup_insert_ne hk]

lemma total_eq_sum (m : AList (fun _ : K => V)) :
    total w m = ∑ k ∈ m.keys.toFinset, weight w m k := by
  induction m using AList.insertRec with
  | H0 => rfl
  | IH k v m hk ih =>
    have hnew : weight w m k = 0 := by rw [weight, AList.lookup_eq_none.2 hk]
    have hkeys : (m.insert k v).keys.toFinset = insert k m.keys.toFinset := by
      rw [AList.keys_insert, List.toFinset_cons, List.erase_of_not_mem hk]
    have hold : ∑ k' ∈ m.keys.toFinset, weight w (m.insert k v) k' = ∑ k' ∈ m.keys.toFinset,
        weight w m k' := by
      refine Finset.sum_congr rfl fun k' hk' => ?_
      rw [weight_insert, if_neg]
      rintro rfl
      exact hk (List.mem_toFinset.1 hk')
    rw [total_insert, hkeys, Finset.sum_insert (fun h => hk (List.mem_toFinset.1 h)), hold, ← ih,
      weight_insert, if_pos rfl, hnew]
    ring

lemma total_congr {m m' : AList (fun _ : K => V)} (hk : ∀ k, k ∈ m ↔ k ∈ m')
    (hw : ∀ k, weight w m k = weight w m' k) : total w m = total w m' := by
  have hkeys : m.keys.toFinset = m'.keys.toFinset := by
    ext k
    rw [List.mem_toFinset, List.mem_toFinset]
    exact hk k
  rw [total_eq_sum, total_eq_sum, hkeys]
  exact Finset.sum_congr rfl fun k _ => hw k

end RedisClone.Lib.WeightedMap
