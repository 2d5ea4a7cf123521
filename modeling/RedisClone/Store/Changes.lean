import RedisClone.Lib.FuzzySnapshot
import RedisClone.Store.Journal
import RedisClone.Store.Records

namespace RedisClone.Store

open Lib Lib.Program

def Mutation.change : Mutation → Key → Change Item ℤ
  | .put key val expiresAt, k =>
    if k = key then .assign (some ⟨val, expiresAt.map floorMilli⟩) else .keep
  | .putAll pairs, k =>
    pairs.foldl (fun c p => if k = p.1 then .assign (some ⟨p.2, none⟩) else c) .keep
  | .remove keys, k => if k ∈ keys then .assign none else .keep
  | .touch key d, k => if k = key then .stamp (floorMilli d) else .keep

def mutations : KeyedLog Key Item ℤ Mutation where
  stamp d it := { it with expiresAt := some d }
  change := Mutation.change
  stamp_stamp _ _ _ := rfl

lemma mutations_change (m : Mutation) : mutations.change m = m.change := rfl

namespace Keyspace

lemma removeAll_apply (keys : List Key) (k : Key) :
    ∀ ks : Keyspace, ks.removeAll keys k = if k ∈ keys then none else ks k := by
  induction keys with
  | nil => exact fun _ => rfl
  | cons key keys ih =>
    intro ks
    rw [show ks.removeAll (key :: keys) = (ks.remove key).removeAll keys from rfl, ih, remove,
      Function.update_apply]
    by_cases hk : k = key <;> by_cases hm : k ∈ keys <;> simp [hk, hm]

lemma putAll_apply (pairs : List (Key × Bytes)) (k : Key) (x : Option Item) :
    ∀ (c : Change Item ℤ) (ks : Keyspace), ks k = mutations.apply c x → ks.putAll pairs k =
      mutations.apply
        (pairs.foldl (fun c p => if k = p.1 then .assign (some ⟨p.2, none⟩) else c) c) x := by
  induction pairs with
  | nil => exact fun _ _ h => h
  | cons p pairs ih =>
    intro c ks h
    refine ih _ (ks.put p.1 p.2 none) ?_
    rw [put, Function.update_apply]
    beta_reduce
    split_ifs
    · rfl
    · exact h

end Keyspace

lemma replay_mutation (m : Mutation) (ks : Keyspace) : mutations.replay [m] ks = m.applied ks := by
  funext k
  rw [mutations.replay_singleton]
  cases m with
  | put key val expiresAt =>
    simp only [mutations_change, Mutation.change, Mutation.applied, Keyspace.put,
      Function.update_apply]
    split_ifs <;> rfl
  | putAll pairs => exact (Keyspace.putAll_apply pairs k (ks k) .keep ks rfl).symm
  | remove keys =>
    simp only [mutations_change, Mutation.change, Mutation.applied, Keyspace.removeAll_apply]
    split_ifs <;> rfl
  | touch key d =>
    simp only [mutations_change, Mutation.change, Mutation.applied]
    cases hk : ks key with
    | none =>
      simp only
      split_ifs with he
      · rw [he, hk]
        rfl
      · rfl
    | some it =>
      simp only [Keyspace.put, Function.update_apply]
      split_ifs with he
      · rw [he, hk]
        rfl
      · rfl

lemma replay_mutations (ms : List Mutation) :
    ∀ ks : Keyspace, mutations.replay ms ks = appliedAll ms ks := by
  induction ms with
  | nil => exact fun _ => rfl
  | cons m ms ih =>
    intro ks
    rw [show mutations.replay (m :: ms) ks = mutations.replay ms (mutations.replay [m] ks) from rfl,
      replay_mutation, ih]
    rfl

lemma overall_readRecord (ms : List Mutation) (k : Key) :
    mutations.overall ((ms.map Mutation.record).filterMap readRecord) k =
    mutations.overall ms k := by
  have hread : (ms.map Mutation.record).filterMap readRecord = ms.map Mutation.rounded := by
    rw [List.filterMap_map, ← List.filterMap_eq_map]
    exact congrArg (List.filterMap · ms) (funext readRecord_record)
  have hchange (m : Mutation) : m.rounded.change k = m.change k := by
    cases m with
    | put key val expiresAt => simp only [Mutation.rounded, Mutation.change, map_floorMilli_idem]
    | putAll pairs => rfl
    | remove keys => rfl
    | touch key d => simp only [Mutation.rounded, Mutation.change, floorMilli_idem]
  rw [hread, KeyedLog.overall, List.foldl_map]
  simp only [mutations_change, hchange]
  rfl

section Lively

variable {T : ℤ} {L : Limits}

lemma expired_eq_false {T : ℤ} {val : Bytes} {expiresAt : Time} (h : ∀ d ∈ expiresAt, T < d) :
    (Item.mk val expiresAt).expired T = false := by
  cases expiresAt with
  | none => rfl
  | some d => exact decide_eq_false (not_le.2 (h d rfl))

lemma Limits.time_iff {L : Limits} {expiresAt : Time} :
    L.time expiresAt ↔ ∀ d ∈ expiresAt, L.deadline d := by
  cases expiresAt with
  | none => exact ⟨fun _ d hd => absurd hd (Option.not_mem_none d), fun _ => trivial⟩
  | some d => exact ⟨fun h d' hd' => Option.some.inj hd' ▸ h, fun h => h d rfl⟩

lemma lively_of_stored (hL : ∀ d, L.deadline d → T < floorMilli d) {ks : Keyspace}
    (h : ∀ key it, ks key = some it → L.Stored key it) : ks.Lively T := fun key it hk =>
  expired_eq_false fun d hd => (hL d (Limits.time_iff.1 (h key it hk).2.2 d hd)).trans_le
    (floorMilli_le d)

lemma change_lively (hL : ∀ d, L.deadline d → T < floorMilli d) {m : Mutation}
    (hm : L.Sound m) (k : Key) : (∀ it, m.change k = .assign (some it) → it.expired T = false) ∧
    ∀ d, m.change k = .stamp d → T < d := by
  cases m with
  | put key val expiresAt =>
    simp only [Mutation.change]
    split_ifs
    · refine ⟨fun it hit => ?_, nofun⟩
      obtain rfl := Option.some.inj (Change.assign.inj hit)
      refine expired_eq_false fun d hd => ?_
      obtain ⟨d₀, hd₀, rfl⟩ := Option.mem_map.1 hd
      exact hL d₀ (Limits.time_iff.1 hm.2.2 d₀ hd₀)
    · exact ⟨nofun, nofun⟩
  | putAll pairs =>
    simp only [Mutation.change]
    suffices h : ∀ c : Change Item ℤ,
      ((∀ it, c = .assign (some it) → it.expired T = false) ∧ ∀ d, c = .stamp d → T < d) →
        (∀ it, pairs.foldl (fun c p => if k = p.1 then .assign (some ⟨p.2, none⟩) else c) c =
          .assign (some it) → it.expired T = false) ∧
        ∀ d, pairs.foldl (fun c p => if k = p.1 then .assign (some ⟨p.2, none⟩) else c) c =
          .stamp d → T < d from
      h .keep ⟨nofun, nofun⟩
    clear hm
    induction pairs with
    | nil => exact fun _ h => h
    | cons p pairs ih =>
      intro c hc
      refine ih _ ?_
      beta_reduce
      split_ifs
      · refine ⟨fun it hit => ?_, nofun⟩
        obtain rfl := Option.some.inj (Change.assign.inj hit)
        rfl
      · exact hc
  | remove keys =>
    simp only [Mutation.change]
    split_ifs
    · exact ⟨fun it hit => absurd (Change.assign.inj hit) nofun, nofun⟩
    · exact ⟨nofun, nofun⟩
  | touch key d =>
    simp only [Mutation.change]
    split_ifs
    · exact ⟨nofun, fun d' hd' => Change.stamp.inj hd' ▸ hL d hm.2⟩
    · exact ⟨nofun, nofun⟩

lemma lively_replay (hL : ∀ d, L.deadline d → T < floorMilli d) {m : Mutation} (hm : L.Sound m)
    {ks : Keyspace} (h : ks.Lively T) : Keyspace.Lively (m.applied ks) T := by
  intro k it hk
  rw [← replay_mutation, mutations.replay_singleton, mutations_change] at hk
  obtain ⟨hassign, hstamp⟩ := change_lively hL hm k
  cases hc : m.change k with
  | keep =>
    rw [hc] at hk
    exact h k it hk
  | assign v =>
    rw [hc] at hk
    exact hassign it (hc.trans (congrArg Change.assign hk))
  | stamp d =>
    rw [hc] at hk
    obtain ⟨old, -, rfl⟩ := Option.map_eq_some_iff.1 hk
    exact expired_eq_false fun d' hd' => Option.some.inj hd' ▸ hstamp d hc

lemma replayed_eq (hL : ∀ d, L.deadline d → T < floorMilli d) {m : Mutation} (hm : L.Sound m)
    {ks : Keyspace} {time : ℤ} (htime : time ≤ T) (h : ks.Lively T) :
    m.replayed time ks = m.applied ks := by
  cases m with
  | put key val expiresAt =>
    cases expiresAt with
    | none => rfl
    | some d => exact if_pos (htime.trans_lt (hL d hm.2.2))
  | putAll pairs => rfl
  | remove keys => rfl
  | touch key d =>
    simp only [Mutation.replayed, Mutation.applied, Keyspace.expireKey]
    cases hk : ks key with
    | none => rfl
    | some it =>
      simp only [h.expired htime hk, Bool.false_eq_true, if_false]
      rw [if_pos (htime.trans_lt (hL d hm.2))]

end Lively

namespace Keyspace

def stored (ks : Keyspace) (key : Key) : Mutation :=
  .put key (((ks key).map Item.val).getD []) ((ks key).bind Item.expiresAt)

variable {ks : Keyspace}

lemma stored_eq {key : Key} {it : Item} (h : ks key = some it) :
    ks.stored key = .put key it.val it.expiresAt := by
  simp only [stored, h, Option.map_some, Option.getD_some, Option.bind_some]

lemma stored_record {key : Key} {it : Item} (h : ks key = some it) :
    (ks.stored key).record = ks.record key := by
  simp only [stored_eq h, Mutation.record, record, h]

lemma stored_change {key : Key} (h : (ks key).isSome = true) (k : Key) :
    (ks.stored key).change k = if k = key then .assign (ks.rounded k) else .keep := by
  obtain ⟨it, hit⟩ := Option.isSome_iff_exists.1 h
  rw [stored_eq hit, Mutation.change]
  split_ifs with hk
  · rw [hk, rounded, hit]
    rfl
  · rfl

lemma replay_stored {keys : List Key} (h : ∀ key ∈ keys, (ks key).isSome = true) (k : Key) :
    ∀ s : Keyspace, mutations.replay (keys.map ks.stored) s k = if k ∈ keys then
    ks.rounded k else s k := by
  induction keys with
  | nil => exact fun _ => rfl
  | cons key keys ih =>
    intro s
    have hrest :=
      ih (fun key' hk => h key' (List.mem_cons_of_mem key hk)) (mutations.replay [ks.stored key] s)
    rw [List.map_cons, ← List.singleton_append, mutations.replay_append, hrest,
      mutations.replay_singleton, mutations_change, stored_change (h key List.mem_cons_self)]
    by_cases hk : k = key <;> by_cases hm : k ∈ keys <;> simp [hk, hm, KeyedLog.apply]

lemma dumps_stored {T time : ℤ} (hks : ks.Lively T) (htime : time ≤ T) {i : ShardId}
    {keys : List Key} (hkeys : ∀ key, key ∈ keys ↔ shardIndex key = i ∧ ks.Live time key) :
    Logbook.Dumps mutations shardIndex i ks.rounded (keys.map ks.stored) := by
  have hsome : ∀ key ∈ keys, (ks key).isSome = true := fun key hk => by
    obtain ⟨it, hit, -⟩ := ((hkeys key).1 hk).2
    rw [hit]
    rfl
  refine ⟨fun k hk => ?_, fun k hk => mutations.overall_of_keep fun m hm => ?_⟩
  · rw [replay_stored hsome]
    split_ifs with hmem
    · rfl
    · cases hit : ks k with
      | none => rw [rounded, hit]; rfl
      | some it => exact absurd ((hkeys k).2 ⟨hk, it, hit, hks.expired htime hit⟩) hmem
  · obtain ⟨key, hkey, rfl⟩ := List.mem_map.1 hm
    rw [mutations_change, stored_change (hsome key hkey), if_neg]
    rintro rfl
    exact hk ((hkeys k).1 hkey).1

end Keyspace

end RedisClone.Store
