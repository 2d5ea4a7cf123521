import RedisClone.Store.Eviction

namespace RedisClone.Store

open Lib Lib.Program Lib.WeightedMap

def bytes (s : Store) : ℤ := ∑ i, (s.shards i).used

def bytesAt (s : Store) (key : Key) : ℤ := (s.readShard key).size key

def Act.storedKeys : Act → Finset Key
  | .set key _ _ => {key}
  | .mset pairs => (pairs.map Prod.fst).toFinset
  | _ => ∅

section Sections

def Shrinks (s s' : Store) : Prop := ∀ i, (s'.shards i).used ≤ (s.shards i).used

lemma Shrinks.refl (s : Store) : Shrinks s s := fun _ => le_rfl

lemma Shrinks.trans {s s' s'' : Store} (h : Shrinks s s') (h' : Shrinks s' s'') : Shrinks s s'' :=
  fun i => (h' i).trans (h i)

lemma Shrinks.bytes {s s' : Store} (h : Shrinks s s') : s'.bytes ≤ s.bytes :=
  Finset.sum_le_sum fun i _ => h i

lemma entrySize_nonneg (key : Key) (val : Bytes) : 0 ≤ entrySize key val := by
  simp only [entrySize, entryOverhead]
  omega

lemma Shard.size_nonneg (sh : Shard) (key : Key) : 0 ≤ sh.size key := by
  unfold Shard.size
  split
  · exact entrySize_nonneg _ _
  · exact le_rfl

lemma WellFormed.used_nonneg {s : Store} (hs : WellFormed s) (i : ShardId) :
    0 ≤ (s.shards i).used := by
  rw [(hs i).used_eq]
  exact total_nonneg entryWeight (fun key e => entrySize_nonneg key e.val) _

lemma shrinks_updateShard {s : Store} {i : ShardId} {sh : Shard} (h : sh.used ≤ (s.shards i).used) :
    Shrinks s (s.updateShard i sh) := by
  intro j
  simp only [updateShard, Function.update_apply]
  split_ifs with hj
  · rw [hj]
    exact h
  · exact le_rfl

lemma shrinks_deleteLocked (s : Store) (key : Key) :
    Shrinks s (s.deleteLockedInWriteLockedShard key) :=
  shrinks_updateShard (sub_le_self _ (Shard.size_nonneg _ _))

lemma Shard.expireKeys_used (now : ℤ) (n : ℕ) (keys : List Key) :
    ∀ (sh : Shard) (scanned expired : ℕ),
    (Shard.expireKeys now n keys sh scanned expired).1.used ≤ sh.used := by
  induction keys with
  | nil => exact fun _ _ _ => le_rfl
  | cons key keys ih =>
    intro sh scanned expired
    simp only [Shard.expireKeys]
    split_ifs
    · exact le_rfl
    · cases sh.data.lookup key with
      | none => exact ih { sh with expiring := sh.expiring.erase key } (scanned + 1) expired
      | some e =>
        simp only
        split_ifs
        · exact (ih _ _ _).trans (sub_le_self _ (entrySize_nonneg _ _))
        · exact ih _ _ _

lemma shrinks_delSection (now : ℤ) (keys : List Key) :
    ∀ s : Store, Shrinks s (delSection now keys s).2 := by
  induction keys with
  | nil => exact Shrinks.refl
  | cons key keys ih =>
    intro s
    simp only [delSection]
    cases s.lookup key with
    | none => exact ih s
    | some e => exact (shrinks_deleteLocked s key).trans (ih _)

lemma Shard.touch_used (sh : Shard) (clock : ℕ) (key : Key) :
    (sh.touch clock key).used = sh.used := by
  unfold Shard.touch
  split <;> rfl

lemma shrinks_expireAtSection (s : Store) (key : Key) (deadline : Time) (now : ℤ) :
    Shrinks s (s.expireAtSection key deadline now).2 := by
  unfold expireAtSection
  cases s.lookup key with
  | none => exact .refl s
  | some e =>
    simp only
    split_ifs
    · exact shrinks_deleteLocked s key
    · cases deadline with
      | none => exact shrinks_deleteLocked s key
      | some d =>
        simp only
        split_ifs
        · exact shrinks_updateShard le_rfl
        · exact shrinks_deleteLocked s key

lemma perform_shrinks {a : Act} (ha : a.storedKeys = ∅) (i : Input) (s : Store) :
    Shrinks s (perform a i s).2 := by
  cases a with
  | getRead key now =>
    simp only [perform, getReadSection]
    cases s.lookup key with
    | none => exact .refl s
    | some e =>
      simp only
      split_ifs
      · exact .refl s
      · exact shrinks_updateShard (Shard.touch_used _ _ _).le
  | getCollect key =>
    simp only [perform, getCollectSection]
    cases s.lookup key with
    | none => exact .refl s
    | some e =>
      simp only
      split_ifs
      · exact shrinks_deleteLocked s key
      · exact .refl s
  | delete key => exact shrinks_deleteLocked s key
  | del keys now => exact shrinks_delSection now keys s
  | expireAt key deadline now => exact shrinks_expireAtSection s key deadline now
  | expireShard j now n scanned => exact shrinks_updateShard (Shard.expireKeys_used _ _ _ _ _ _)
  | set key val expiresAt => exact absurd ha (Finset.singleton_ne_empty key)
  | mset pairs =>
    have hnil : pairs = [] := by simpa [Act.storedKeys] using ha
    subst hnil
    exact .refl s
  | _ => exact .refl s

lemma bytes_updateShard (s : Store) (i : ShardId) (sh : Shard) :
    (s.updateShard i sh).bytes = s.bytes - (s.shards i).used + sh.used := by
  have hsum : ∑ j, (s.shards j).used = (s.shards i).used + ∑ j ∈ Finset.univ \ {i},
      (s.shards j).used := by
    rw [← Finset.sum_sdiff (Finset.subset_univ {i}), Finset.sum_singleton, add_comm]
  have hupdate (j : ShardId) : ((s.updateShard i sh).shards j).used = Function.update
      (fun j => (s.shards j).used) i sh.used j := by
    simp only [updateShard, Function.update_apply]
    split_ifs <;> rfl
  simp only [bytes, hupdate, Finset.sum_update_of_mem (Finset.mem_univ i), hsum]
  ring

lemma bytesAt_view (s : Store) (key : Key) :
    s.bytesAt key = (s.view key).elim 0 fun it => entrySize key it.val := by
  simp only [bytesAt, Shard.size, view, lookup]
  cases (s.readShard key).data.lookup key <;> rfl

lemma bytesAt_nonneg (s : Store) (key : Key) : 0 ≤ s.bytesAt key := Shard.size_nonneg _ _

lemma bytesAt_setLocked (s : Store) (key : Key) (val : Bytes) (expiresAt : Time) :
    (s.setLockedInWriteLockedShard key val expiresAt).bytesAt = Function.update s.bytesAt key
      (entrySize key val) := by
  funext key'
  simp only [bytesAt_view, view_setLocked, Keyspace.put, Function.update_apply]
  split_ifs with hk
  · rw [hk]
    rfl
  · rfl

lemma bytes_setLocked (s : Store) (key : Key) (val : Bytes) (expiresAt : Time) :
    (s.setLockedInWriteLockedShard key val expiresAt).bytes = s.bytes - s.bytesAt key +
      entrySize key val := by
  rw [setLockedInWriteLockedShard, bytes_updateShard]
  simp only [Shard.set, bytesAt, readShard]
  ring

lemma WellFormed.mem_data {s : Store} (hs : WellFormed s) {i : ShardId} {key : Key} :
    key ∈ (s.shards i).data ↔ shardIndex key = i ∧ (s.view key).isSome := by
  rw [← AList.lookup_isSome, Option.isSome_iff_exists, view_apply, Option.isSome_map,
    Option.isSome_iff_exists]
  constructor
  · rintro ⟨e, he⟩
    obtain ⟨hi, hl⟩ := (hs.lookup_shard i key e).1 he
    exact ⟨hi, e, hl⟩
  · rintro ⟨hi, e, he⟩
    exact ⟨e, (hs.lookup_shard i key e).2 ⟨hi, he⟩⟩

lemma used_of_view {s s' : Store} (hs : WellFormed s) (hs' : WellFormed s') (h : s'.view = s.view)
    (i : ShardId) : (s'.shards i).used = (s.shards i).used := by
  have hmem (key : Key) : key ∈ (s'.shards i).data ↔ key ∈ (s.shards i).data := by
    rw [hs'.mem_data, hs.mem_data, h]
  rw [(hs' i).used_eq, (hs i).used_eq]
  refine total_congr _ hmem fun key => ?_
  by_cases hk : key ∈ (s.shards i).data
  · obtain rfl := (hs i).routed key hk
    rw [← Shard.size_eq, ← Shard.size_eq]
    change s'.bytesAt key = s.bytesAt key
    rw [bytesAt_view, bytesAt_view, h]
  · have hk' : key ∉ (s'.shards i).data := fun h => hk ((hmem key).1 h)
    rw [weight, weight, AList.lookup_eq_none.2 hk, AList.lookup_eq_none.2 hk']

def SameElsewhere (keys : Finset Key) (s s' : Store) : Prop :=
  s'.bytes - ∑ key ∈ keys, s'.bytesAt key = s.bytes - ∑ key ∈ keys, s.bytesAt key

lemma sameElsewhere_setLocked (s : Store) {keys : Finset Key} {key : Key} (hk : key ∈ keys)
    (val : Bytes) (expiresAt : Time) :
    SameElsewhere keys s (s.setLockedInWriteLockedShard key val expiresAt) := by
  have hsum : ∑ k ∈ keys, s.bytesAt k = s.bytesAt key + ∑ k ∈ keys \ {key}, s.bytesAt k := by
    rw [← Finset.sum_sdiff (Finset.singleton_subset_iff.2 hk), Finset.sum_singleton, add_comm]
  simp only [SameElsewhere, bytes_setLocked, bytesAt_setLocked, Finset.sum_update_of_mem hk, hsum]
  ring

lemma sameElsewhere_msetSection {keys : Finset Key} (pairs : List (Key × Bytes)) :
    ∀ s : Store, (∀ p ∈ pairs, p.1 ∈ keys) → SameElsewhere keys s (s.msetSection pairs) := by
  induction pairs with
  | nil => exact fun s _ => rfl
  | cons p pairs ih =>
    intro s hp
    have hrest := ih (s.setLockedInWriteLockedShard p.1 p.2 none) fun q hq =>
      hp q (List.mem_cons_of_mem _ hq)
    exact hrest.trans (sameElsewhere_setLocked s (hp p List.mem_cons_self) p.2 none)

lemma perform_bytes (a : Act) (i : Input) (s : Store) :
    (perform a i s).2.bytes ≤ s.bytes + ∑ key ∈ a.storedKeys, (perform a i s).2.bytesAt key := by
  have hadds (h : SameElsewhere a.storedKeys s (perform a i s).2) :
      (perform a i s).2.bytes ≤ s.bytes + ∑ key ∈ a.storedKeys, (perform a i s).2.bytesAt key := by
    have hold : 0 ≤ ∑ key ∈ a.storedKeys, s.bytesAt key :=
      Finset.sum_nonneg fun key _ => bytesAt_nonneg s key
    unfold SameElsewhere at h
    linarith
  cases a with
  | set key val expiresAt =>
    exact hadds (sameElsewhere_setLocked s (Finset.mem_singleton_self key) val expiresAt)
  | mset pairs =>
    refine hadds (sameElsewhere_msetSection pairs s fun p hp => ?_)
    exact List.mem_toFinset.2 (List.mem_map_of_mem hp)
  | _ =>
    refine (perform_shrinks rfl i s).bytes.trans ?_
    simp [Act.storedKeys]

end Sections

section Enforce

/-- A sum over the shards under way: those still to be read, and what the others have come to. -/
structure Reading where
  unread : List ShardId
  sum : ℤ

def Reading.pending (g : Reading) : Reading := if g.unread = [] then ⟨allShards, 0⟩ else g

def Reading.allows (g : Reading) : Act → Prop
  | .shardUsed i => g.pending.unread.head? = some i
  | a => a.storedKeys = ∅

def Reading.next (g : Reading) : (a : Act) → a.Resp → Reading
  | .shardUsed _, r => ⟨g.pending.unread.tail, g.pending.sum + r⟩
  | _, _ => g

def Reading.Bounds (g : Reading) (s : Store) : Prop :=
  ∑ i ∈ Finset.univ.filter (· ∉ g.unread), (s.shards i).used ≤ g.sum

lemma Reading.Bounds.pending {g : Reading} {s : Store} (h : g.Bounds s) : g.pending.Bounds s := by
  unfold Reading.pending
  split_ifs
  · simp [Reading.Bounds, allShards]
  · exact h

lemma Reading.Bounds.shrinks {g : Reading} {s s' : Store} (h : g.Bounds s) (hs : Shrinks s s') :
    g.Bounds s' :=
  (Finset.sum_le_sum fun i _ => hs i).trans h

lemma Reading.Bounds.bytes {g : Reading} {s : Store} (h : g.Bounds s) (hu : g.unread = []) :
    s.bytes ≤ g.sum := by
  simpa [Reading.Bounds, Store.bytes, hu] using h

lemma Reading.Bounds.read {ids : List ShardId} {sum : ℤ} {i : ShardId} {s : Store}
    (hs : WellFormed s) (h : Reading.Bounds ⟨i :: ids, sum⟩ s) :
    Reading.Bounds ⟨ids, sum + (s.shards i).used⟩ s := by
  have hsub : Finset.univ.filter (· ∉ ids) ⊆ insert i (Finset.univ.filter (· ∉ i :: ids)) := by
    intro j hj
    by_cases hji : j = i
    · simp [hji]
    · simpa [hji] using hj
  calc ∑ j ∈ Finset.univ.filter (· ∉ ids), (s.shards j).used
      ≤ ∑ j ∈ insert i (Finset.univ.filter (· ∉ i :: ids)), (s.shards j).used :=
        Finset.sum_le_sum_of_subset_of_nonneg hsub fun j _ _ => hs.used_nonneg j
    _ = (s.shards i).used + ∑ j ∈ Finset.univ.filter (· ∉ i :: ids), (s.shards j).used :=
        Finset.sum_insert (by simp)
    _ ≤ sum + (s.shards i).used := by
        have hold : ∑ j ∈ Finset.univ.filter (· ∉ i :: ids), (s.shards j).used ≤ sum := h
        linarith

lemma Reading.Bounds.perform {g : Reading} {s : Store} {a : Act} {i : Input} (hs : WellFormed s)
    (h : g.Bounds s) (ha : g.allows a) : (g.next a (perform a i s).1).Bounds (perform a i s).2 := by
  cases a with
  | shardUsed j =>
    have hp := h.pending
    simp only [Reading.allows] at ha
    cases hu : g.pending.unread with
    | nil => simp [hu] at ha
    | cons k ids =>
      have hk : k = j := by simpa [hu] using ha
      subst hk
      have heq : g.pending = ⟨k :: ids, g.pending.sum⟩ := by rw [← hu]
      rw [heq] at hp
      simp only [Reading.next, hu, List.tail_cons]
      exact hp.read hs
  | _ => exact h.shrinks (perform_shrinks ha i s)

variable {α : Type} {Q : (a : Act) → a.Resp → Prop} {D : Reading → α → Prop}

abbrev Sums (Q : (a : Act) → a.Resp → Prop) (D : Reading → α → Prop) (g : Reading) (p : Prog α) :
    Prop :=
  Follows (S := sig) Q Reading.allows Reading.next D g p

lemma sums_act {g : Reading} {a : Act} {f : a.Resp → Prog α} (ha : g.allows a)
    (hf : ∀ r, Q a r → Sums Q D (g.next a r) (f r)) :
    Sums Q D g (invoke a >>= f) := Follows.act ha hf

lemma sums_sumShards (ids : List ShardId) :
    ∀ (n : ℤ) (g : Reading), (ids = [] → g = ⟨[], n⟩) → (ids ≠ [] → g.pending = ⟨ids, n⟩) →
    Sums Q (fun g n => g = ⟨[], n⟩) g (sumShards (fun i => invoke (.shardUsed i)) ids n) := by
  induction ids with
  | nil => exact fun n g hg _ => .done (hg rfl)
  | cons i ids ih =>
    intro n g _ hg
    have hp := hg (List.cons_ne_nil _ _)
    refine sums_act (a := .shardUsed i) (by simp [Reading.allows, hp]) fun r _ => ?_
    have hnext : g.next (.shardUsed i) r = ⟨ids, n + r⟩ := by simp [Reading.next, hp]
    rw [hnext]
    refine ih (n + r) _ (fun h => by rw [h]) fun h => ?_
    simp [Reading.pending, h]

lemma sums_used {g : Reading} (hg : g.unread = []) : Sums Q (fun g n => g = ⟨[], n⟩) g used :=
  sums_sumShards allShards 0 g (fun h => absurd h (by decide)) fun _ => by
    simp [Reading.pending, hg]

def Reading.keeps (maxMemory : ℤ) (g : Reading) : Enforced → Prop
  | .finished _ true => g.unread = [] ∧ g.sum ≤ maxMemory
  | _ => True

lemma sums_within {P : Act → Prop} {p : Prog α} {g : Reading}
    (hP : ∀ a, P a → a.storedKeys = ∅ ∧ ∀ i, a ≠ .shardUsed i) (hp : Within P Q p) :
    Sums Q (fun g' _ => g' = g) g p := by
  refine Follows.of_within (fun a ha => ?_) (fun a r ha => ?_) hp
  · obtain ⟨hs, hu⟩ := hP a ha
    cases a with
    | shardUsed i => exact absurd rfl (hu i)
    | _ => exact hs
  · obtain ⟨-, hu⟩ := hP a ha
    cases a with
    | shardUsed i => exact absurd rfl (hu i)
    | _ => rfl

lemma sums_pickVictim (g : Reading) : Sums Q (fun g' _ => g' = g) g pickVictim := by
  refine sums_within (P := fun a => ∃ i sample, a = .sampleShard i sample) ?_
    (within_sampleShards (fun i sample => ⟨i, sample, rfl⟩) _ _)
  rintro _ ⟨i, sample, rfl⟩
  exact ⟨rfl, fun _ => Act.noConfusion⟩

lemma sums_evictLoop (maxMemory : ℤ) (fuel : ℕ) : ∀ (n : ℕ) (g : Reading), g.unread = [] →
    Sums Q (Reading.keeps maxMemory) g (evictLoop maxMemory fuel n) := by
  induction fuel with
  | zero => exact fun n g _ => .done trivial
  | succ fuel ih =>
    intro n g hg
    refine (sums_used hg).bind fun g used hu => ?_
    subst hu
    split_ifs with hlimit
    · refine (sums_pickVictim _).bind fun g victim hg => ?_
      subst hg
      cases victim with
      | none => exact sums_act (a := .unlockDurableMutation) rfl fun _ _ => .done trivial
      | some key =>
        exact sums_act (a := .delete key) rfl fun _ _ => sums_act (a := .evicted) rfl fun _ _ =>
          sums_act (a := .propagate _) rfl fun _ _ => ih (n + 1) _ rfl
    · exact sums_act (a := .unlockDurableMutation) rfl fun _ _ => .done ⟨rfl, not_lt.1 hlimit⟩

lemma sums_enforceMemoryLimit {maxMemory : ℤ} (hmax : 0 < maxMemory)
    (hQ : ∀ r, Q .config r → r.1 = maxMemory) (fuel : ℕ) {g : Reading}
    (hg : g.unread = []) : Sums Q (Reading.keeps maxMemory) g (enforceMemoryLimit fuel) := by
  refine sums_act (a := .config) rfl fun r hr => ?_
  obtain ⟨limit, policy⟩ := r
  obtain rfl : limit = maxMemory := hQ _ hr
  simp only
  rw [if_neg (not_le.2 hmax)]
  refine sums_act (a := .lockDurableMutation) rfl fun _ _ => (sums_used hg).bind fun g used hu => ?_
  subst hu
  split_ifs with hlimit
  · exact sums_act (a := .unlockDurableMutation) rfl fun _ _ => .done ⟨rfl, hlimit⟩
  · exact sums_act (a := .unlockDurableMutation) rfl fun _ _ => .done trivial
  · exact sums_evictLoop limit fuel 0 _ rfl

end Enforce

section Termination

def Act.Idle (a : Act) : Prop := ∀ i s, (perform a i s).2 = s

lemma exec_idle {α : Type} {p : Prog α} (h : Only (S := sig) Act.Idle p)
    (inputs : ℕ → Input) (s : Store) : (exec p inputs s).2.2 = s := by
  refine Runs.of_only (R := fun s s' => s' = s) (fun _ => rfl) (fun h h' => h'.trans h) h ?_
    (runs_run (S := sig) perform p inputs s)
  intro a r w w' i ha hp
  rw [← ha (inputs i) w, show perform a (inputs i) w = (r, w') from hp]

lemma exec_used_store (inputs : ℕ → Input) (s : Store) : (exec used inputs s).2.2 = s :=
  exec_idle (within_used fun _ _ _ => rfl) inputs s

lemma exec_pickVictim_store (inputs : ℕ → Input) (s : Store) : (exec pickVictim inputs s).2.2 = s :=
  exec_idle (within_sampleShards (fun _ _ _ _ => rfl) _ _) inputs s

lemma bytes_nonneg {s : Store} (hs : WellFormed s) : 0 ≤ s.bytes :=
  Finset.sum_nonneg fun i _ => hs.used_nonneg i

lemma bytes_deleteLocked {s : Store} {key : Key} (h : (s.view key).isSome) :
    (s.deleteLockedInWriteLockedShard key).bytes < s.bytes := by
  refine Finset.sum_lt_sum (fun i _ => shrinks_deleteLocked s key i)
    ⟨shardIndex key, Finset.mem_univ _, ?_⟩
  obtain ⟨e, he, -⟩ := Option.map_eq_some_iff.1 (Option.isSome_iff_exists.1 h).choose_spec
  have hsize : (s.readShard key).size key = entrySize key e.val := by
    rw [Shard.size, show (s.readShard key).data.lookup key = some e from he]
  have hpos : 0 < entrySize key e.val := by
    simp only [entrySize, entryOverhead]
    omega
  simp only [deleteLockedInWriteLockedShard, updateShard, Function.update_self, Shard.delete, hsize]
  have : (s.shards (shardIndex key)).used = (s.readShard key).used := rfl
  omega

lemma evictLoop_ends (maxMemory : ℤ) (fuel : ℕ) :
    ∀ (s : Store) (inputs : ℕ → Input) (evicted : ℕ), WellFormed s → s.bytes < fuel →
    ∃ n ok, (exec (evictLoop maxMemory fuel evicted) inputs s).1 = .finished n ok := by
  induction fuel with
  | zero =>
    intro s inputs evicted hs hb
    have := bytes_nonneg hs
    omega
  | succ fuel ih =>
    intro s inputs evicted hs hb
    rw [evictLoop, exec_bind]
    simp only [exec_used_store]
    split_ifs
    · rw [exec_bind]
      simp only [exec_pickVictim_store]
      have hpick :=
        (runs_pickVictim (exec_image pickVictim (shift (exec used inputs s).2.1 inputs) s hs)).2
      cases hv : (exec pickVictim (shift (exec used inputs s).2.1 inputs) s).1 with
      | none => exact ⟨_, _, rfl⟩
      | some key =>
        have hlt := bytes_deleteLocked (hpick key hv)
        simp only
        rw [exec_act, exec_act, exec_act]
        refine ih _ _ _
          (perform_wellFormed _ _ _ (perform_wellFormed _ _ _ (perform_wellFormed _ _ _ hs))) ?_
        change (s.deleteLockedInWriteLockedShard key).bytes < fuel
        omega
    · exact ⟨_, _, rfl⟩

lemma enforceMemoryLimit_ends {fuel : ℕ} {s : Store} (hs : WellFormed s) (hb : s.bytes < fuel)
    (inputs : ℕ → Input) :
    ∃ n ok, (exec (enforceMemoryLimit fuel) inputs s).1 = .finished n ok := by
  have hidle (i : Input) : (perform .config i s).2 = s ∧ (perform .lockDurableMutation i s).2 = s :=
    ⟨rfl, rfl⟩
  rw [enforceMemoryLimit, exec_act, (hidle _).1]
  generalize (perform .config (inputs 0) s).1 = settings
  obtain ⟨maxMemory, policy⟩ := settings
  dsimp only
  split
  · exact ⟨_, _, rfl⟩
  · rw [exec_act, (hidle _).2, exec_bind]
    simp only [exec_used_store]
    split_ifs
    · exact ⟨_, _, rfl⟩
    · exact ⟨_, _, rfl⟩
    · exact evictLoop_ends _ fuel s _ 0 hs hb

end Termination

end RedisClone.Store
