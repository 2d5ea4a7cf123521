import RedisClone.Store.Sampling
import Mathlib.Data.List.MinMax

/-! Which key `pickVictim` comes to. The shards offer their keys in a fixed order, and only the
first few keys offered are looked at. -/

namespace RedisClone.Store

open Lib Lib.Program

def pool (s : Store) (i : ShardId) : List Key :=
  if s.policy = .volatileLRU then (s.shards i).expiring.keys else (s.shards i).data.keys

def offered (s : Store) : List ShardId → (ℕ → Input) → List Key
  | [], _ => []
  | i :: ids, inputs => (inputs 0).order.keys (s.pool i) ++ s.offered ids (shift 1 inputs)

def sampled (s : Store) (inputs : ℕ → Input) : List Key :=
  (s.offered allShards inputs).take evictSampleSize

def atimeOf (s : Store) (key : Key) : ℕ := ((s.lookup key).map Entry.atime).getD 0

def sampling : List ShardId → Sample → Prog (Key ⊕ Sample)
  | [], sample => return .inr sample
  | i :: ids, sample => do
    match ← invoke (.sampleShard i sample) with
    | .victim key => return .inl key
    | .more sample =>
      if sample.scanned ≥ evictSampleSize then return .inr sample
      else sampling ids sample

lemma sampleShards_eq (ids : List ShardId) : ∀ sample : Sample,
    sampleShards ids sample = Sum.elim some (fun sample => sample.best.map Prod.fst) <$>
      sampling ids sample := by
  induction ids with
  | nil => exact fun _ => rfl
  | cons i ids ih =>
    intro sample
    simp only [sampleShards, sampling, map_bind]
    congr 1
    funext r
    cases r with
    | victim key => rfl
    | more sample =>
      simp only
      split_ifs
      · rfl
      · exact ih sample

section Pools

variable {s : Store} (hs : WellFormed s)

include hs

lemma mem_pool {i : ShardId} {key : Key} :
    key ∈ s.pool i ↔ shardIndex key = i ∧ s.view.evictable s.policy key = true := by
  unfold pool
  split_ifs with hp
  · rw [← AList.mem_keys, hp]
    refine ⟨fun hk => ⟨?_, evictable_of_expiring hs _ hk⟩, ?_⟩
    · obtain ⟨e, he, -⟩ := ((hs i).indexed key).1 hk
      exact ((hs.lookup_shard i key e).1 he).1
    · rintro ⟨rfl, hk⟩
      obtain ⟨it, hit, hd⟩ := (Option.any_eq_true _ _).1 hk
      refine Shard.mem_volatile.1 (hs.mem_volatile.2 ⟨it, ?_⟩)
      obtain ⟨d, hd⟩ := Option.ne_none_iff_exists'.1 (of_decide_eq_true hd rfl)
      exact ⟨d, hit, hd⟩
  · rw [← AList.mem_keys]
    refine ⟨fun hk => ⟨(hs i).routed key hk, evictable_of_data hs hp hk⟩, ?_⟩
    rintro ⟨hi, hk⟩
    obtain ⟨it, hit, -⟩ := (Option.any_eq_true _ _).1 hk
    exact hs.mem_data.2 ⟨hi, by rw [hit]; rfl⟩

lemma mem_offered {key : Key} (ids : List ShardId) : ∀ inputs : ℕ → Input,
    key ∈ s.offered ids inputs ↔ shardIndex key ∈ ids ∧ s.view.evictable s.policy key = true := by
  induction ids with
  | nil => simp [offered]
  | cons i ids ih =>
    intro inputs
    rw [offered, List.mem_append, ((inputs 0).order.perm _).mem_iff, mem_pool hs, ih, List.mem_cons]
    tauto

omit hs in
lemma nodup_pool (i : ShardId) : (s.pool i).Nodup := by
  unfold pool
  split_ifs
  · exact (s.shards i).expiring.keys_nodup
  · exact (s.shards i).data.keys_nodup

lemma nodup_offered (ids : List ShardId) :
    ids.Nodup → ∀ inputs : ℕ → Input, (s.offered ids inputs).Nodup := by
  induction ids with
  | nil => exact fun _ _ => List.nodup_nil
  | cons i ids ih =>
    intro hids inputs
    obtain ⟨hi, hids⟩ := List.nodup_cons.1 hids
    refine List.Nodup.append (((inputs 0).order.perm _).nodup_iff.2 (nodup_pool i)) (ih hids _) ?_
    intro key hk hk'
    have h₁ := ((mem_pool hs).1 (((inputs 0).order.perm _).mem_iff.1 hk)).1
    have h₂ := ((mem_offered hs ids _).1 hk').1
    exact hi (h₁ ▸ h₂)

lemma length_offered {ids : List ShardId} (hids : ids.Nodup) (inputs : ℕ → Input) :
    (s.offered ids inputs).length =
    {key | shardIndex key ∈ ids ∧ s.view.evictable s.policy key = true}.ncard := by
  have hset : {key | shardIndex key ∈ ids ∧ s.view.evictable s.policy key = true} =
      ((s.offered ids inputs).toFinset : Set Key) := by
    ext key
    simp only [Set.mem_ofPred_eq, List.coe_toFinset]
    exact (mem_offered hs ids inputs).symm
  rw [hset, Set.ncard_coe_finset, List.toFinset_card_of_nodup (nodup_offered hs ids hids inputs)]

omit hs in
lemma offered_append (ids ids' : List ShardId) : ∀ inputs : ℕ → Input,
    s.offered (ids ++ ids') inputs = s.offered ids inputs ++ s.offered ids'
      (shift ids.length inputs) := by
  induction ids with
  | nil => exact fun _ => rfl
  | cons i ids ih =>
    intro inputs
    simp only [List.cons_append, offered, ih, shift_shift, List.length_cons, List.append_assoc]

end Pools

section Samples

def sampleOf (s : Store) (keys : List Key) : Sample :=
  ⟨(keys.argmin s.atimeOf).map fun key => (key, s.atimeOf key), keys.length⟩

variable {s : Store}

lemma sampleKeys_cons {key : Key} {e : Entry} (he : s.lookup key = some e) (keys seen : List Key) :
    sampleKeys s (key :: keys) (s.sampleOf seen) =
      if seen.length + 1 < evictSampleSize then sampleKeys s keys (s.sampleOf (seen ++ [key]))
      else s.sampleOf (seen ++ [key]) := by
  have ha : s.atimeOf key = e.atime := by simp [atimeOf, he]
  rw [sampleKeys, he]
  simp only [sampleOf, List.argmin_concat, List.length_append, List.length_singleton]
  cases List.argmin s.atimeOf seen with
  | none =>
    simp only [Option.map_none, Option.map_some, ha]
    rfl
  | some k => by_cases hk : e.atime < s.atimeOf k <;> simp [ha, hk]

lemma sampleKeys_sampleOf (keys : List Key) :
    ∀ seen : List Key, (∀ key ∈ keys, (s.lookup key).isSome) → seen.length < evictSampleSize →
    sampleKeys s keys (s.sampleOf seen) = s.sampleOf ((seen ++ keys).take evictSampleSize) := by
  induction keys with
  | nil =>
    intro seen _ hlen
    rw [List.append_nil, List.take_of_length_le hlen.le]
    rfl
  | cons key keys ih =>
    intro seen hall hlen
    obtain ⟨e, he⟩ := Option.isSome_iff_exists.1 (hall key List.mem_cons_self)
    have hsplit : seen ++ key :: keys = seen ++ [key] ++ keys := by simp
    rw [sampleKeys_cons he, hsplit]
    split_ifs with hmore
    · exact ih _ (fun k hk => hall k (List.mem_cons_of_mem _ hk)) (by simpa using hmore)
    · have hfull : (seen ++ [key]).length = evictSampleSize := by
        rw [List.length_append, List.length_singleton]
        omega
      rw [List.take_left' hfull]

lemma sampleShardSection_sampleOf (hs : WellFormed s) (hp : s.policy ≠ .allKeysRandom) (i : ShardId)
    (order : MapOrder) {seen : List Key} (hlen : seen.length < evictSampleSize) :
    s.sampleShardSection i (s.sampleOf seen) order =
    .more (s.sampleOf ((seen ++ order.keys (s.pool i)).take evictSampleSize)) := by
  have hall : ∀ key ∈ order.keys (s.pool i), (s.lookup key).isSome := by
    intro key hk
    obtain ⟨-, hev⟩ := (mem_pool hs).1 ((order.perm _).mem_iff.1 hk)
    obtain ⟨it, hit, -⟩ := (Option.any_eq_true _ _).1 hev
    rw [view_apply] at hit
    obtain ⟨e, he, -⟩ := Option.map_eq_some_iff.1 hit
    rw [he]
    rfl
  rw [← sampleKeys_sampleOf _ seen hall hlen]
  unfold sampleShardSection pool
  cases hpol : s.policy with
  | allKeysRandom => exact absurd hpol hp
  | _ => rfl

lemma exec_sampling_cons (i : ShardId) (ids : List ShardId) (sample : Sample) (inputs : ℕ → Input) :
    (exec (sampling (i :: ids) sample) inputs s).1 =
      match s.sampleShardSection i sample (inputs 0).order with
      | .victim key => .inl key
      | .more sample =>
        if sample.scanned ≥ evictSampleSize then .inr sample
            else (exec (sampling ids sample) (shift 1 inputs) s).1 := by
  rw [sampling, exec_act]
  simp only [perform]
  cases s.sampleShardSection i sample (inputs 0).order with
  | victim key => rfl
  | more sample =>
    simp only
    split_ifs <;> rfl

lemma exec_sampling (hs : WellFormed s) (hp : s.policy ≠ .allKeysRandom) (ids : List ShardId) :
    ∀ (seen : List Key) (inputs : ℕ → Input), seen.length < evictSampleSize →
    (exec (sampling ids (s.sampleOf seen)) inputs s).1 =
    .inr (s.sampleOf ((seen ++ s.offered ids inputs).take evictSampleSize)) := by
  induction ids with
  | nil =>
    intro seen inputs hlen
    rw [offered, List.append_nil, List.take_of_length_le hlen.le]
    rfl
  | cons i ids ih =>
    intro seen inputs hlen
    rw [exec_sampling_cons, sampleShardSection_sampleOf hs hp i _ hlen, offered,
      ← List.append_assoc]
    simp only
    generalize seen ++ (inputs 0).order.keys (s.pool i) = here
    have hscanned : (s.sampleOf (here.take evictSampleSize)).scanned =
        min evictSampleSize here.length := by
      simp [sampleOf, List.length_take]
    rw [hscanned]
    split_ifs with hfull
    · rw [List.take_append_of_le_length (by omega)]
    · rw [List.take_of_length_le (by omega), ih _ _ (by omega)]

lemma exec_sampling_random (hp : s.policy = .allKeysRandom) (ids : List ShardId) :
    ∀ inputs : ℕ →
    Input, (exec (sampling ids ⟨none, 0⟩) inputs s).1 = (s.offered ids inputs).head?.elim
      (.inr ⟨none, 0⟩) .inl := by
  induction ids with
  | nil => exact fun _ => rfl
  | cons i ids ih =>
    intro inputs
    have hpool : s.pool i = (s.shards i).data.keys := by
      rw [pool, hp]
      rfl
    rw [exec_sampling_cons, offered, hpool]
    simp only [sampleShardSection, hp]
    cases (inputs 0).order.keys (s.shards i).data.keys with
    | nil => exact ih _
    | cons key keys => rfl

lemma exec_pickVictim (hs : WellFormed s) (inputs : ℕ → Input) :
    (exec pickVictim inputs s).1 =
      if s.policy = .allKeysRandom then (s.offered allShards inputs).head?
      else (s.sampled inputs).argmin s.atimeOf := by
  rw [pickVictim, sampleShards_eq, exec_map]
  split_ifs with hp
  · simp only [exec_sampling_random hp]
    cases (s.offered allShards inputs).head? <;> rfl
  · have hend := exec_sampling hs hp allShards [] inputs (by decide)
    rw [List.nil_append, ← sampled] at hend
    rw [show (⟨none, 0⟩ : Sample) = s.sampleOf [] from rfl, hend]
    simp [sampleOf, Function.comp_def]

lemma evictable_of_pickVictim (hs : WellFormed s) {inputs : ℕ → Input} {key : Key}
    (h : (exec pickVictim inputs s).1 = some key) : s.view.evictable s.policy key = true := by
  rw [exec_pickVictim hs] at h
  have hmem : key ∈ s.offered allShards inputs := by
    split_ifs at h
    · exact List.mem_of_mem_head? h
    · exact List.mem_of_mem_take (List.argmin_mem h)
  exact ((mem_offered hs _ _).1 hmem).2

lemma evictable_eq_false_of_pickVictim (hs : WellFormed s) {inputs : ℕ → Input}
    (h : (exec pickVictim inputs s).1 = none) (key : Key) :
    s.view.evictable s.policy key = false := by
  rw [exec_pickVictim hs] at h
  have hnil : s.offered allShards inputs = [] := by
    split_ifs at h
    · exact List.head?_eq_none_iff.1 h
    · rw [List.argmin_eq_none, sampled, List.take_eq_nil_iff] at h
      exact h.resolve_left (by decide)
  rw [← Bool.not_eq_true]
  intro hk
  have hmem := (mem_offered hs allShards inputs).2 ⟨List.mem_finRange _, hk⟩
  rw [hnil] at hmem
  exact absurd hmem List.not_mem_nil

end Samples

section FirstMinimum

variable {α : Type} [DecidableEq α] {f : α → ℕ} {l l' : List α} {a : α}

lemma argmin_append_cons (hl : ∀ b ∈ l, f a < f b) (hl' : ∀ b ∈ l', f a ≤ f b) :
    (l ++ a :: l').argmin f = some a := by
  have ha : a ∉ l := fun h => lt_irrefl _ (hl a h)
  refine List.argmin_eq_some_iff.2
    ⟨List.mem_append_right _ List.mem_cons_self, fun b hb => ?_, fun b hb hle => ?_⟩
  · rcases List.mem_append.1 hb with hb | hb
    · exact (hl b hb).le
    · rcases List.mem_cons.1 hb with rfl | hb
      · exact le_rfl
      · exact hl' b hb
  · have hb : b ∉ l := fun h => absurd hle (not_le.2 (hl b h))
    rw [List.idxOf_append_of_notMem ha, List.idxOf_append_of_notMem hb, List.idxOf_cons_self]
    omega

lemma lt_of_argmin_append (h : (l ++ l').argmin f = some a) (ha : a ∉ l) : ∀ b ∈ l, f a < f b := by
  intro b hb
  by_contra hlt
  have hidx := (List.argmin_eq_some_iff.1 h).2.2 b (List.mem_append_left _ hb) (not_lt.1 hlt)
  rw [List.idxOf_append_of_notMem ha, List.idxOf_append_of_mem hb] at hidx
  have := List.idxOf_lt_length_of_mem hb
  omega

end FirstMinimum

section Reach

/-- A key that the policy lets go now: any key at random, or one that no other has been left alone
longer than. -/
def Allowed (s : Store) (key : Key) : Prop :=
  s.policy ≠ .noEviction ∧ s.view.evictable s.policy key = true ∧
    (s.policy ≠ .allKeysRandom → ∀ key', s.view.evictable s.policy key' = true →
      s.atimeOf key ≤ s.atimeOf key')

def keysBefore (s : Store) (key : Key) : Set Key :=
  {key' | shardIndex key' ∈ shardsBefore (shardIndex key) ∧ s.view.evictable s.policy key' = true}

def Unshielded (s : Store) (key : Key) : Prop :=
  if s.policy = .allKeysRandom then s.keysBefore key = ∅
  else (s.keysBefore key).ncard < evictSampleSize ∧ ∀ key' ∈ s.keysBefore key,
    s.atimeOf key < s.atimeOf key'

variable {s : Store} {key : Key} {inputs : ℕ → Input}

lemma offered_split (s : Store) (i : ShardId) (inputs : ℕ → Input) :
    ∃ rest, s.offered allShards inputs = s.offered (shardsBefore i) inputs ++
      ((inputs i).order.keys (s.pool i) ++ rest) := by
  have hlen : (shardsBefore i).length = i := by simp [shardsBefore, allShards]
  refine ⟨s.offered (allShards.drop (i + 1)) (shift 1 (shift i inputs)), ?_⟩
  conv_lhs => rw [allShards_eq i, offered_append, offered, hlen, shift_apply, Nat.zero_add]

lemma notMem_offered_before (hs : WellFormed s) (key : Key) (inputs : ℕ → Input) :
    key ∉ s.offered (shardsBefore (shardIndex key)) inputs :=
  fun h => notMem_shardsBefore _ ((mem_offered hs _ _).1 h).1

lemma mem_keysBefore (hs : WellFormed s) (inputs : ℕ → Input) {key' : Key} :
    key' ∈ s.keysBefore key ↔ key' ∈ s.offered (shardsBefore (shardIndex key)) inputs :=
      (mem_offered hs _ _).symm

lemma ncard_keysBefore (hs : WellFormed s) (inputs : ℕ → Input) :
    (s.keysBefore key).ncard = (s.offered (shardsBefore (shardIndex key)) inputs).length :=
  (length_offered hs (nodup_shardsBefore _) inputs).symm

lemma unshielded_of_victim (hs : WellFormed s) (h : (exec pickVictim inputs s).1 = some key) :
    s.Unshielded key := by
  obtain ⟨rest, hsplit⟩ := offered_split s (shardIndex key) inputs
  have hno := notMem_offered_before hs key inputs
  rw [exec_pickVictim hs, hsplit] at h
  unfold Unshielded
  split_ifs at h ⊢ with hp
  · -- the first key offered is in no earlier shard
    cases hb : s.offered (shardsBefore (shardIndex key)) inputs with
    | nil =>
      ext key'
      rw [mem_keysBefore hs inputs, hb]
      exact ⟨fun h => absurd h List.not_mem_nil, fun h => absurd h (Set.notMem_empty _)⟩
    | cons key' keys =>
      rw [hb] at h hno
      obtain rfl : key' = key := Option.some.inj h
      exact absurd List.mem_cons_self hno
  · rw [sampled, hsplit] at h
    have hlen : (s.offered (shardsBefore (shardIndex key)) inputs).length < evictSampleSize := by
      by_contra hge
      rw [List.take_append_of_le_length (not_lt.1 hge)] at h
      exact hno (List.mem_of_mem_take (List.argmin_mem h))
    rw [ncard_keysBefore hs inputs]
    refine ⟨hlen, fun key' hk => ?_⟩
    rw [List.take_append, List.take_of_length_le hlen.le] at h
    exact lt_of_argmin_append h hno key' ((mem_keysBefore hs inputs).1 hk)

lemma MapOrder.first_singleton {l : List Key} (hl : l.Nodup) (hk : key ∈ l) :
    ∃ rest, (MapOrder.first {key}).keys l = key :: rest := by
  have hfirst := MapOrder.first_take {key} hl (by simpa using hk)
  rw [Finset.card_singleton] at hfirst
  cases hl' : (MapOrder.first {key}).keys l with
  | nil =>
    rw [hl'] at hfirst
    exact absurd hfirst.symm (Finset.singleton_ne_empty key)
  | cons key' rest =>
    rw [hl'] at hfirst
    have hkey : key' = key := by simpa using hfirst
    exact ⟨rest, by rw [hkey]⟩

lemma victim_of_unshielded (hs : WellFormed s) (ha : s.Allowed key) (h : s.Unshielded key) :
    (exec pickVictim (fun _ => ⟨0, .first {key}⟩) s).1 = some key := by
  obtain ⟨rest, hsplit⟩ := offered_split s (shardIndex key) fun _ => ⟨0, .first {key}⟩
  obtain ⟨own, hown⟩ := MapOrder.first_singleton (nodup_pool (s := s) (shardIndex key))
    ((mem_pool hs).2 ⟨rfl, ha.2.1⟩)
  rw [hown, List.cons_append] at hsplit
  unfold Unshielded at h
  rw [exec_pickVictim hs]
  split_ifs at h ⊢ with hp
  · have hnil : s.offered (shardsBefore (shardIndex key)) (fun _ => ⟨0, .first {key}⟩) = [] := by
      refine List.eq_nil_iff_forall_not_mem.2 fun key' hk => ?_
      have := (mem_keysBefore hs _).2 hk
      rw [h] at this
      exact this
    rw [hsplit, hnil]
    rfl
  · rw [ncard_keysBefore hs fun _ => ⟨0, .first {key}⟩] at h
    obtain ⟨k, hk⟩ : ∃ k, evictSampleSize -
        (s.offered (shardsBefore (shardIndex key)) fun _ => ⟨0, .first {key}⟩).length = k + 1 :=
      ⟨_, (Nat.sub_add_cancel (Nat.sub_pos_of_lt h.1)).symm⟩
    rw [sampled, hsplit, List.take_append, List.take_of_length_le h.1.le, hk, List.take_succ_cons]
    refine argmin_append_cons (fun key' hk => h.2 key' ((mem_keysBefore hs _).2 hk)) fun key' hk =>
      ha.2.2 hp key' ?_
    have hmem : key' ∈ s.offered allShards fun _ => ⟨0, .first {key}⟩ := by
      rw [hsplit]
      exact List.mem_append_right _ (List.mem_cons_of_mem _ (List.mem_of_mem_take hk))
    exact ((mem_offered hs _ _).1 hmem).2

end Reach

structure OldestOfSample (s : Store) (inputs : ℕ → Input) : Prop where
  counted : ∃ sample, (exec (sampling allShards ⟨none, 0⟩) inputs s).1 = .inr sample ∧
    sample.scanned = (s.sampled inputs).length
  nodup : (s.sampled inputs).Nodup
  eligible : ∀ key ∈ s.sampled inputs, s.view.evictable s.policy key = true
  enough : (s.sampled inputs).length = min evictSampleSize
    {key | s.view.evictable s.policy key = true}.ncard
  oldest : ∀ key ∈ (exec pickVictim inputs s).1, key ∈ s.sampled inputs ∧ ∀ key' ∈ s.sampled inputs,
    s.atimeOf key ≤ s.atimeOf key'
  found : (exec pickVictim inputs s).1 = none → s.sampled inputs = []

lemma oldestOfSample {s : Store} (hs : WellFormed s) (hp : s.policy ≠ .allKeysRandom)
    (inputs : ℕ → Input) : OldestOfSample s inputs where
  counted := by
    have hend := exec_sampling hs hp allShards [] inputs (by decide)
    rw [List.nil_append, ← sampled] at hend
    exact ⟨s.sampleOf (s.sampled inputs), hend, by rw [sampleOf]⟩
  nodup := (nodup_offered hs allShards (List.nodup_finRange _) inputs).sublist
    (List.take_sublist _ _)
  eligible key hk := ((mem_offered hs _ _).1 (List.mem_of_mem_take hk)).2
  enough := by
    have hids (key : Key) : shardIndex key ∈ allShards := List.mem_finRange _
    have hnd : allShards.Nodup := List.nodup_finRange shardCount
    have hall := length_offered hs hnd inputs
    simp only [hids, true_and] at hall
    rw [sampled, List.length_take, hall]
  oldest key hk := by
    rw [exec_pickVictim hs, if_neg hp] at hk
    exact ⟨List.argmin_mem hk, fun key' hk' => List.le_of_mem_argmin hk' hk⟩
  found h := by
    rw [exec_pickVictim hs, if_neg hp] at h
    exact List.argmin_eq_none.1 h

/-- The maps can be ranged over so that a key is chosen exactly if no lower shard shields it;
whatever the order, the LRU policies choose the oldest key of a full sample. -/
theorem victim_possible_iff_unshielded {s : Store} (hs : WellFormed s) :
    (∀ key, s.Allowed key →
      ((∃ inputs, (exec pickVictim inputs s).1 = some key) ↔ s.Unshielded key)) ∧
      (s.policy = .allKeysLRU ∨ s.policy = .volatileLRU → ∀ inputs, OldestOfSample s inputs) := by
  refine ⟨fun key ha =>
    ⟨fun ⟨inputs, h⟩ => unshielded_of_victim hs h, fun h => ⟨_, victim_of_unshielded hs ha h⟩⟩, ?_⟩
  intro hp inputs
  refine oldestOfSample hs (fun hr => ?_) inputs
  rcases hp with hp | hp <;> cases hp.symm.trans hr

def crowdedShards (policy : EvictionPolicy) (others : List Key) : Store :=
  let calls := .op (.set [64] []) :: .activeExpireCycle :: others.map fun key => .op (.set key [])
  (exec (calls.mapM Call.program) (clockAt 0) (configured true 1 policy)).2.2

lemma crowdedShards_wellFormed (policy : EvictionPolicy) (others : List Key) :
    WellFormed (crowdedShards policy others) :=
  exec_wellFormed _ _ _ (configured_wellFormed _ _ _)

theorem victim_possible_behind_four :
    let s := crowdedShards .allKeysLRU [[97], [98], [99], [100]]
    (s.keysBefore [64]).ncard = 4 ∧ s.Allowed [64] ∧ s.Unshielded [64] ∧
      ∃ inputs, (exec pickVictim inputs s).1 = some [64] := by
  intro s
  have hs : WellFormed s := crowdedShards_wellFormed _ _
  have hallowed : s.Allowed [64] := by
    refine ⟨by decide +kernel, by decide +kernel, fun _ key' _ => ?_⟩
    rw [show s.atimeOf [64] = 0 by decide +kernel]
    exact Nat.zero_le _
  have hbefore : (s.keysBefore [64]).ncard = 4 := by
    rw [ncard_keysBefore hs (clockAt 0)]
    decide +kernel
  have hfound : ∃ inputs, (exec pickVictim inputs s).1 = some [64] := ⟨clockAt 0, by decide +kernel⟩
  exact ⟨hbefore, hallowed, ((victim_possible_iff_unshielded hs).1 [64] hallowed).1 hfound, hfound⟩

/-- One key in a lower shard is enough to shield a key at random, five keys that were used later
shield the oldest. -/
theorem victim_shielded :
    ((crowdedShards .allKeysRandom [[97]]).Allowed [64] ∧
      ∀ inputs, (exec pickVictim inputs (crowdedShards .allKeysRandom [[97]])).1 ≠ some [64]) ∧
    ((crowdedShards .allKeysLRU [[97], [98], [99], [100], [101]]).Allowed [64] ∧
      (∀ key ∈ [[97], [98], [99], [100], [101]],
      (crowdedShards .allKeysLRU [[97], [98], [99], [100], [101]]).atimeOf [64] <
        (crowdedShards .allKeysLRU [[97], [98], [99], [100], [101]]).atimeOf key) ∧
      ∀ inputs,
        (exec pickVictim inputs (crowdedShards .allKeysLRU [[97], [98], [99], [100], [101]])).1 ≠
          some [64]) := by
  refine ⟨⟨⟨by decide +kernel, by decide +kernel, fun h => absurd (by decide +kernel) h⟩,
    fun inputs h => ?_⟩, ⟨by decide +kernel, by decide +kernel, fun _ key' _ => ?_⟩, by
      decide +kernel, fun inputs h => ?_⟩
  · have hu := unshielded_of_victim (crowdedShards_wellFormed _ _) h
    rw [Unshielded, if_pos (by decide +kernel)] at hu
    have hmem : ([97] : Key) ∈ (crowdedShards .allKeysRandom [[97]]).keysBefore [64] :=
      ⟨by decide, by decide +kernel⟩
    rw [hu] at hmem
    exact hmem
  · rw [show (crowdedShards .allKeysLRU [[97], [98], [99], [100], [101]]).atimeOf [64] = 0 by
      decide +kernel]
    exact Nat.zero_le _
  · have hu := unshielded_of_victim (crowdedShards_wellFormed _ _) h
    rw [Unshielded, if_neg (by decide +kernel), ncard_keysBefore (crowdedShards_wellFormed _ _)
      (clockAt 0)] at hu
    exact absurd hu.1 (by decide +kernel)

end RedisClone.Store
