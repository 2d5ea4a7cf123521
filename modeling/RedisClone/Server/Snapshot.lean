import RedisClone.Server.Durability
import RedisClone.Store.Changes

namespace RedisClone.Server

open Store Lib Lib.Program

section Taking

variable {inputs : ℕ → Input} {w w' : Image} {n : ℕ} {b : List Record}

lemma runs_snapshotShards {now : ℤ} {ids : List ShardId} (hids : ids.Nodup) {out : List Record}
    (h : Runs ActSpec (snapshotShards now ids out) inputs w n b w') :
    ∃ keys : List Key, keys.Nodup ∧
    (∀ key, key ∈ keys ↔ shardIndex key ∈ ids ∧ w.keyspace.Live now key) ∧
      b = out ++ keys.map w.keyspace.record := by
  induction ids generalizing inputs out n with
  | nil =>
    simp only [snapshotShards, pure_eq, runs_done] at h
    exact ⟨[], List.nodup_nil, by simp, by simp [h.2.1]⟩
  | cons i ids ih =>
    obtain ⟨hi, hids⟩ := List.nodup_cons.1 hids
    simp only [snapshotShards, invoke, call, act_bind, done_bind, runs_act] at h
    obtain ⟨_, _, _, ⟨⟨keys, hnodup, hmem, rfl⟩, rfl⟩, h, -⟩ := h
    obtain ⟨rest, hrest, hmem', rfl⟩ := ih hids h
    refine ⟨keys ++ rest, hnodup.append hrest fun key hk hk' => ?_, fun key => ?_, by simp⟩
    · -- a key is in one shard only
      rw [hmem] at hk
      rw [hmem', hk.1] at hk'
      exact hi hk'.1
    · rw [List.mem_append, hmem, hmem', List.mem_cons]
      tauto

lemma runs_aofSnapshot (h : Runs ActSpec aofSnapshot inputs w n b w') :
    ∃ keys : List Key, keys.Nodup ∧ (∀ key, key ∈ keys ↔ w.keyspace.Live (inputs 0).time key) ∧
    b = keys.map w.keyspace.record := by
  simp only [aofSnapshot, invoke, call, act_bind, done_bind, runs_act, actSpec_now] at h
  obtain ⟨_, _, _, ⟨rfl, rfl⟩, h, -⟩ := h
  obtain ⟨_, w₁, _, _, hlen, h, -⟩ := runs_bind.1 h
  rw [len_readsOnly hlen] at h
  obtain ⟨keys, hnodup, hmem, rfl⟩ := runs_snapshotShards (List.nodup_finRange shardCount) h
  refine ⟨keys, hnodup, fun key => ?_, List.nil_append _⟩
  rw [hmem]
  exact and_iff_right (List.mem_finRange _)

end Taking

section Rebuilding

variable {ks : Keyspace} {T : ℤ}

lemma replayed_stored {key : Key} (h : (ks key).isSome = true) (s : Keyspace) :
    (ks.stored key).replayed T s = Function.update s key (ks.shown T key) := by
  obtain ⟨⟨val, expiresAt⟩, hit⟩ := Option.isSome_iff_exists.1 h
  rw [Keyspace.stored_eq hit, Keyspace.shown_apply, hit]
  cases expiresAt with
  | none => rfl
  | some d =>
    simp only [Mutation.replayed]
    by_cases hd : T < floorMilli d
    · simp [hd, Keyspace.put, Keyspace.roundItem, Option.filter, Item.expired, expiredAt]
    · simp [hd, Keyspace.remove, Keyspace.roundItem, Option.filter, Item.expired,
        expiredAt, not_lt.1 hd]

lemma replayedAll_stored {keys : List Key} (h : ∀ key ∈ keys, (ks key).isSome = true) (k : Key) :
    ∀ s : Keyspace, replayedAll T (keys.map ks.stored) s k = if k ∈ keys then
    ks.shown T k else s k := by
  induction keys with
  | nil => exact fun _ => rfl
  | cons key keys ih =>
    intro s
    have hrest :=
      ih (fun key' hk => h key' (List.mem_cons_of_mem key hk)) ((ks.stored key).replayed T s)
    rw [replayed_stored (h key List.mem_cons_self)] at hrest
    rw [List.map_cons, replayedAll, List.foldl_cons, replayed_stored (h key List.mem_cons_self)]
    refine hrest.trans ?_
    by_cases hk : k = key <;> by_cases hm : k ∈ keys <;> simp [hk, hm]

lemma replayedAll_snapshot {now : ℤ} (hT : now ≤ T) {keys : List Key}
    (hkeys : ∀ key, key ∈ keys ↔ ks.Live now key) {s : Keyspace}
    (hempty : ∀ key, s key = none) : replayedAll T (keys.map ks.stored) s = ks.shown T := by
  have hsome : ∀ key ∈ keys, (ks key).isSome = true := fun key hk => by
    obtain ⟨it, hit, -⟩ := (hkeys key).1 hk
    rw [hit]
    rfl
  funext k
  rw [replayedAll_stored hsome]
  split_ifs with hk
  · rfl
  · rw [hempty k]
    cases hit : ks k with
    | none => rw [Keyspace.shown_apply, hit]; rfl
    | some it =>
      have hx : (ks k).any (·.expired now) = true := by
        rw [hit, Option.any_some]
        by_contra hx
        exact hk ((hkeys k).2 ⟨it, hit, Bool.not_eq_true _ ▸ hx⟩)
      exact (Keyspace.shown_eq_none_of_expired hT hx).symm

lemma record_key {key : Key} (h : (ks key).isSome = true) : (ks.record key).getD 1 [] = key := by
  obtain ⟨it, hit⟩ := Option.isSome_iff_exists.1 h
  simp only [Keyspace.record, hit]
  cases it.expiresAt <;> rfl

lemma map_record_key {keys : List Key} (h : ∀ key ∈ keys, (ks key).isSome = true) :
    (keys.map ks.record).map (fun record => record.getD 1 []) = keys := by
  rw [List.map_map]
  exact (List.map_congr_left fun key hk => record_key (h key hk)).trans (List.map_id' keys)

lemma records_perm {keys : List Key} (h : ∀ key ∈ keys, (ks key).isSome = true)
    {records : List Record} (hp : records.Perm (keys.map ks.record)) :
    ∃ keys' : List Key, keys'.Perm keys ∧ records = keys'.map ks.record := by
  refine ⟨records.map fun record => record.getD 1 [],
    (hp.map _).trans (.of_eq (map_record_key h)), ?_⟩
  rw [List.map_map]
  refine ((List.map_congr_left fun record hr => ?_).trans (List.map_id' records)).symm
  obtain ⟨key, hk, rfl⟩ := List.mem_map.1 (hp.subset hr)
  rw [Function.comp_apply, record_key (h key hk)]

end Rebuilding

lemma view_configured (journalled : Bool) (maxMemory : ℤ) (policy : EvictionPolicy) (key : Key) :
    (configured journalled maxMemory policy).view key = none := by
  cases journalled <;> rfl

/-- At any later time the records of a snapshot rebuild, in whatever order, what the store would
show. -/
theorem snapshot_faithful (settings : Settings) (maxMemory : ℤ) (policy : EvictionPolicy)
    {s : Store} (hs : WellFormed s) (inputs : ℕ → Input) {T : ℤ} (hT : (inputs 0).time ≤ T) :
    let records := (exec aofSnapshot inputs s).1
    let rebuilt := replayRecords settings T records (configured false maxMemory policy)
    (records.map fun record => record.getD 1 []).Nodup ∧
      (rebuilt.1 = none → rebuilt.2.view.alive T = s.view.rounded.alive T ∧
        ∀ records', records'.Perm records →
          (replayRecords settings T records' (configured false maxMemory policy)).1 = none ∧
            (replayRecords settings T records' (configured false maxMemory policy)).2.view =
              rebuilt.2.view) := by
  intro records rebuilt
  have hempty := configured_wellFormed false maxMemory policy
  obtain ⟨keys, hnodup, hkeys, hrecords⟩ : ∃ keys : List Key, keys.Nodup ∧
    (∀ key, key ∈ keys ↔ s.view.Live (inputs 0).time key) ∧
      records = keys.map s.view.record := runs_aofSnapshot (exec_image aofSnapshot inputs s hs)
  have hsome : ∀ key ∈ keys, (s.view key).isSome = true := fun key hk => by
    obtain ⟨it, hit, -⟩ := (hkeys key).1 hk
    exact Option.isSome_iff_exists.2 ⟨it, hit⟩
  -- the records of any arrangement of the keys
  have hstored {keys' : List Key} (hp : keys'.Perm keys) :
      keys'.map s.view.record = (keys'.map s.view.stored).map Mutation.record := by
    rw [List.map_map]
    refine List.map_congr_left fun key hk => ?_
    obtain ⟨it, hit⟩ := Option.isSome_iff_exists.1 (hsome key (hp.subset hk))
    exact (Keyspace.stored_record hit).symm
  have hview {keys' : List Key} (hp : keys'.Perm keys)
  (hok :
    (replayRecords settings T (keys'.map s.view.record) (configured false maxMemory policy)).1 =
    none) :
      (replayRecords settings T (keys'.map s.view.record)
          (configured false maxMemory policy)).2.view = s.view.shown T := by
    rw [hstored hp] at hok ⊢
    rw [replayRecords_view settings T _ _ hempty hok]
    exact replayedAll_snapshot hT (fun key => hp.mem_iff.trans (hkeys key))
      (view_configured false maxMemory policy)
  refine ⟨?_, fun hok => ?_⟩
  · rwa [hrecords, map_record_key hsome]
  · have hbase : rebuilt.2.view = s.view.shown T := by
      simp only [rebuilt, hrecords] at hok ⊢
      exact hview (.refl keys) hok
    refine ⟨?_, fun records' hp => ?_⟩
    · rw [hbase, Keyspace.shown, Keyspace.alive_alive _ le_rfl]
    · rw [hrecords] at hp
      obtain ⟨keys', hp', rfl⟩ := records_perm hsome hp
      have hok' :
          (replayRecords settings T (keys'.map s.view.record)
              (configured false maxMemory policy)).1 = none := by
        simp only [rebuilt, hrecords, hstored (.refl keys)] at hok
        rw [hstored hp']
        rw [replayRecords_accepted _ _ _ _ hempty] at hok ⊢
        exact fun m hm => hok m ((hp'.map _).subset hm)
      exact ⟨hok', (hview hp' hok').trans hbase.symm⟩

def threeKeys : Store :=
  (exec (do setTo (ascii "a") (ascii "1") none
            setTo (ascii "b") (ascii "2") (some 5000001)
            setTo (ascii "c") (ascii "3") (some 2000000)) (clockAt 0) Store.new).2.2

theorem snapshot_faithful_threeKeys :
    let rebuilt := replayRecords plain 4000000 (exec aofSnapshot (clockAt 3000000) threeKeys).1
      (configured false 0 .noEviction)
    WellFormed threeKeys ∧ rebuilt.1 = none ∧
    rebuilt.2.view (ascii "b") = some ⟨ascii "2", some 5000000⟩ ∧
      rebuilt.2.view.alive 4000000 = threeKeys.view.rounded.alive 4000000 := by
  have hs : WellFormed threeKeys := exec_wellFormed _ _ _ new_wellFormed
  have hok :
      (replayRecords plain 4000000 (exec aofSnapshot (clockAt 3000000) threeKeys).1
          (configured false 0 .noEviction)).1 = none := by
    decide +kernel
  exact ⟨hs, hok, by decide +kernel, ((snapshot_faithful plain 0 .noEviction hs (clockAt 3000000)
      (by decide : (3000000 : ℤ) ≤ 4000000)).2 hok).1⟩

end RedisClone.Server
