import RedisClone.Store.Operations
import RedisClone.Lib.WeightedMap

/-! The representation invariant of the store: routing, the index of volatile keys and
the byte counter. -/

namespace RedisClone.Store

open Lib Lib.WeightedMap

structure Shard.WellFormed (i : ShardId) (sh : Shard) : Prop where
  routed : ∀ key ∈ sh.data, shardIndex key = i
  indexed : ∀ key, key ∈ sh.expiring ↔ ∃ e, sh.data.lookup key = some e ∧ e.expiresAt.isZero = false
  counted : sh.used = (sh.data.entries.map fun e => entrySize e.1 e.2.val).sum

def WellFormed (s : Store) : Prop := ∀ i, (s.shards i).WellFormed i

def entryWeight (key : Key) (e : Entry) : ℤ := entrySize key e.val

lemma Shard.size_eq (sh : Shard) (key : Key) : sh.size key = weight entryWeight sh.data key := by
  unfold Shard.size weight
  cases sh.data.lookup key <;> rfl

lemma Shard.WellFormed.used_eq {i : ShardId} {sh : Shard} (hs : sh.WellFormed i) :
    sh.used = total entryWeight sh.data := hs.counted

lemma Shard.empty_wellFormed (i : ShardId) : Shard.empty.WellFormed i := by
  refine ⟨fun key hk => ?_, fun key => ?_, rfl⟩
  · exact absurd hk (AList.notMem_empty key)
  · refine ⟨fun hk => absurd hk (AList.notMem_empty key), ?_⟩
    rintro ⟨e, he, -⟩
    simp [Shard.empty] at he

section ShardUpdates

variable {i : ShardId} {sh : Shard} (hs : sh.WellFormed i)

include hs

lemma Shard.set_wellFormed {key : Key} (hk : shardIndex key = i) (clock : ℕ) (val : Bytes)
    (expiresAt : Time) : (sh.set clock key val expiresAt).WellFormed i where
  routed key' hk' := by
    rcases (AList.mem_insert _).1 hk' with rfl | hk'
    · exact hk
    · exact hs.routed key' hk'
  indexed key' := by
    by_cases hkk : key' = key
    · subst hkk
      cases expiresAt <;> simp [Shard.set, Time.isZero]
    · cases expiresAt <;>
        simp [Shard.set, Time.isZero, hkk, AList.lookup_insert_ne hkk, hs.indexed key',
          AList.mem_erase]
  counted := by
    have := total_insert entryWeight sh.data key ⟨val, clock, expiresAt⟩
    simp only [Shard.set, hs.used_eq, Shard.size_eq]
    exact this.symm

lemma Shard.delete_wellFormed (key : Key) : (sh.delete key).WellFormed i where
  routed key' hk' := hs.routed key' (AList.mem_erase.1 hk').2
  indexed key' := by
    by_cases hkk : key' = key
    · subst hkk
      simp [Shard.delete, AList.mem_erase]
    · simp [Shard.delete, hkk, AList.lookup_erase_ne hkk, hs.indexed key', AList.mem_erase]
  counted := by
    simp only [Shard.delete, hs.used_eq, Shard.size_eq]
    exact (total_erase entryWeight sh.data key).symm

lemma Shard.WellFormed.replace {key : Key} {e : Entry} (he : sh.data.lookup key = some e)
    (e' : Entry) (hv : e'.val = e.val) {expiring : GoMap Unit}
    (hx : ∀ key', key' ∈ expiring ↔ if key' = key then e'.expiresAt.isZero = false
      else key' ∈ sh.expiring) :
    Shard.WellFormed i ⟨sh.data.insert key e', expiring, sh.used⟩ where
  routed key' hk' := by
    rcases (AList.mem_insert _).1 hk' with rfl | hk'
    · exact hs.routed key' (AList.lookup_isSome.1 (by rw [he]; rfl))
    · exact hs.routed key' hk'
  indexed key' := by
    by_cases hkk : key' = key
    · subst hkk
      simp [hx]
    · simp [hx, hkk, AList.lookup_insert_ne hkk, hs.indexed key']
  counted := by
    have := total_insert entryWeight sh.data key e'
    have hw : weight entryWeight sh.data key = entryWeight key e' := by
      simp [weight, he, entryWeight, hv]
    rw [hs.used_eq]
    exact (this.trans (by rw [hw]; ring)).symm

lemma Shard.touch_wellFormed (clock : ℕ) (key : Key) : (sh.touch clock key).WellFormed i := by
  unfold Shard.touch
  cases he : sh.data.lookup key with
  | none => exact hs
  | some e =>
    refine hs.replace he { e with atime := clock } rfl fun key' => ?_
    split_ifs with hkk
    · subst hkk
      simp [hs.indexed, he]
    · rfl

lemma Shard.setDeadline_wellFormed {key : Key} {e : Entry}
    (he : sh.data.lookup key = some e) (d : ℤ) : (sh.setDeadline key e (some d)).WellFormed i := by
  refine hs.replace he { e with expiresAt := some d } rfl fun key' => ?_
  split_ifs with hkk <;> simp [hkk, Time.isZero]

end ShardUpdates

lemma Shard.expireKeys_wellFormed {i : ShardId} (now : ℤ) (n : ℕ) (keys : List Key) :
    ∀ (sh : Shard) (scanned expired : ℕ), sh.WellFormed i →
      (Shard.expireKeys now n keys sh scanned expired).1.WellFormed i := by
  induction keys with
  | nil => exact fun sh _ _ hs => hs
  | cons key keys ih =>
    intro sh scanned expired hs
    unfold Shard.expireKeys
    split_ifs
    · exact hs
    · cases he : sh.data.lookup key with
      | none =>
        refine ih _ _ _ ⟨hs.routed, fun key' => ?_, hs.counted⟩
        by_cases hkk : key' = key
        · subst hkk
          simp [AList.mem_erase, he]
        · simp [AList.mem_erase, hkk, hs.indexed key']
      | some e =>
        simp only
        split_ifs
        · have hd : sh.delete key =
              ⟨sh.data.erase key, sh.expiring.erase key, sh.used - entrySize key e.val⟩ := by
            simp [Shard.delete, Shard.size, he]
          exact ih _ _ _ (hd ▸ Shard.delete_wellFormed hs key)
        · exact ih _ _ _ hs

section StoreUpdates

variable {s : Store} (hs : WellFormed s)

include hs

lemma updateShard_wellFormed {i : ShardId} {sh : Shard} (hsh : sh.WellFormed i) :
    WellFormed (s.updateShard i sh) := by
  intro j
  by_cases hj : j = i
  · subst hj
    simpa [updateShard] using hsh
  · simpa [updateShard, hj] using hs j

lemma setLocked_wellFormed (key : Key) (val : Bytes) (expiresAt : Time) :
    WellFormed (s.setLockedInWriteLockedShard key val expiresAt) :=
  updateShard_wellFormed hs (Shard.set_wellFormed (hs _) rfl _ _ _)

lemma deleteLocked_wellFormed (key : Key) : WellFormed (s.deleteLockedInWriteLockedShard key) :=
  updateShard_wellFormed hs (Shard.delete_wellFormed (hs _) key)

lemma getReadSection_wellFormed (key : Key) (now : ℤ) :
    WellFormed (s.getReadSection key now).2 := by
  unfold getReadSection
  split
  · exact hs
  · split_ifs
    · exact hs
    · exact updateShard_wellFormed hs (Shard.touch_wellFormed (hs _) _ _)

lemma getCollectSection_wellFormed (key : Key) (now : ℤ) :
    WellFormed (s.getCollectSection key now) := by
  unfold getCollectSection
  split
  · exact hs
  · split_ifs
    · exact deleteLocked_wellFormed hs key
    · exact hs

lemma expireAtSection_wellFormed (key : Key) (deadline : Time) (now : ℤ) :
    WellFormed (s.expireAtSection key deadline now).2 := by
  unfold expireAtSection
  cases he : s.lookup key with
  | none => exact hs
  | some e =>
    simp only
    split_ifs
    · exact deleteLocked_wellFormed hs key
    · cases deadline with
      | none => exact deleteLocked_wellFormed hs key
      | some d =>
        simp only
        split_ifs
        · exact updateShard_wellFormed hs (Shard.setDeadline_wellFormed (hs _) he d)
        · exact deleteLocked_wellFormed hs key

end StoreUpdates

lemma msetSection_wellFormed (pairs : List (Key × Bytes)) :
    ∀ s : Store, WellFormed s → WellFormed (s.msetSection pairs) := by
  induction pairs with
  | nil => exact fun s hs => hs
  | cons p pairs ih => exact fun s hs => ih _ (setLocked_wellFormed hs p.1 p.2 none)

lemma delSection_wellFormed (now : ℤ) (keys : List Key) :
    ∀ s : Store, WellFormed s → WellFormed (delSection now keys s).2 := by
  induction keys with
  | nil => exact fun s hs => hs
  | cons key keys ih =>
    intro s hs
    unfold delSection
    split
    · exact ih s hs
    · exact ih _ (deleteLocked_wellFormed hs key)

lemma perform_wellFormed (a : Act) (i : Input) (s : Store) (hs : WellFormed s) :
    WellFormed (perform a i s).2 := by
  cases a with
  | getRead key now => exact getReadSection_wellFormed hs key now
  | getCollect key => exact getCollectSection_wellFormed hs key i.time
  | set key val expiresAt => exact setLocked_wellFormed hs key val expiresAt
  | delete key => exact deleteLocked_wellFormed hs key
  | mset pairs => exact msetSection_wellFormed pairs s hs
  | del keys now => exact delSection_wellFormed now keys s hs
  | expireAt key deadline now => exact expireAtSection_wellFormed hs key deadline now
  | expireShard j now n scanned =>
    exact updateShard_wellFormed hs (Shard.expireKeys_wellFormed _ _ _ _ _ _ (hs j))
  | _ => exact hs

lemma new_wellFormed : WellFormed new := fun i => Shard.empty_wellFormed i

lemma exec_wellFormed {α : Type} (p : Prog α) (inputs : ℕ → Input) (s : Store) (hs : WellFormed s) :
    WellFormed (exec p inputs s).2.2 :=
  Program.run_invariant (S := sig) perform perform_wellFormed p inputs s hs

lemma run_sumShards {N : Type} [AddCommMonoid N] (subtotal : ShardId → Prog N) (value : ShardId → N)
    (s : Store) (hv : ∀ i inputs, (exec (subtotal i) inputs s).1 = value i ∧
      (exec (subtotal i) inputs s).2.2 = s) (ids : List ShardId) :
    ∀ (n : N) (inputs : ℕ → Input), (exec (sumShards subtotal ids n) inputs s).1 =
    n + (ids.map value).sum ∧ (exec (sumShards subtotal ids n) inputs s).2.2 = s := by
  induction ids with
  | nil => exact fun n inputs => ⟨(add_zero n).symm, rfl⟩
  | cons i ids ih =>
    intro n inputs
    have hr :=
      Program.run_bind perform (subtotal i) (fun m => sumShards subtotal ids (n + m)) inputs s
    obtain ⟨h₁, h₂⟩ := hv i inputs
    simp only [exec] at h₁ h₂ ih ⊢
    rw [sumShards, hr]
    simp only [h₁, h₂, ih, List.map_cons, List.sum_cons, add_assoc, and_self]

lemma used_eq (inputs : ℕ → Input) (s : Store) :
    (exec used inputs s).1 = ∑ i, (s.shards i).used := by
  have hs := (run_sumShards (fun i => invoke (.shardUsed i)) (fun i => (s.shards i).used) s
    (fun i inputs => ⟨rfl, rfl⟩) allShards 0 inputs).1
  rw [used, hs, zero_add, allShards, Fin.sum_univ_def]

def configured (journalled : Bool) (maxMemory : ℤ) (policy : EvictionPolicy) : Store :=
  (if journalled then new.setJournal else new).setMemoryLimit maxMemory policy

lemma configured_wellFormed (journalled : Bool) (maxMemory : ℤ) (policy : EvictionPolicy) :
    WellFormed (configured journalled maxMemory policy) := by
  cases journalled <;> exact new_wellFormed

theorem representation_invariant (journalled : Bool) (maxMemory : ℤ) (policy : EvictionPolicy)
    (calls : List Call) (inputs : ℕ → Input) :
    let s := (exec (calls.mapM Call.program) inputs (configured journalled maxMemory policy)).2.2
    (∀ i, (s.shards i).WellFormed i) ∧
      ∀ inputs', (exec used inputs' s).1 =
          ∑ i, ((s.shards i).data.entries.map fun e => entrySize e.1 e.2.val).sum ∧
        0 ≤ (exec used inputs' s).1 := by
  intro s
  have hs : WellFormed s :=
    exec_wellFormed _ _ _ (configured_wellFormed journalled maxMemory policy)
  refine ⟨hs, fun inputs' => ?_⟩
  have hu : (exec used inputs' s).1 = ∑ i,
      ((s.shards i).data.entries.map fun e => entrySize e.1 e.2.val).sum := by
    rw [used_eq]
    exact Finset.sum_congr rfl fun i _ => (hs i).counted
  refine ⟨hu, hu ▸ Finset.sum_nonneg fun i _ => ?_⟩
  refine total_nonneg entryWeight (fun key e => ?_) (s.shards i).data
  simp only [entryWeight, entrySize, entryOverhead]
  omega

end RedisClone.Store
