import RedisClone.Store.Invariant
import Mathlib.Data.Set.Card

/-! The keyspace as one map from keys to values with optional deadlines, and what each
critical section does to it. -/

namespace RedisClone.Store

open Lib

structure Item where
  val : Bytes
  expiresAt : Time
  deriving DecidableEq, Repr

def Item.expired (it : Item) (now : ℤ) : Bool := expiredAt it.expiresAt now

def Entry.item (e : Entry) : Item := ⟨e.val, e.expiresAt⟩

@[simp] lemma Entry.item_expired (e : Entry) (now : ℤ) : e.item.expired now = e.expired now := rfl

abbrev Keyspace := Key → Option Item

namespace Keyspace

def put (ks : Keyspace) (key : Key) (val : Bytes) (expiresAt : Time) : Keyspace :=
  Function.update ks key (some ⟨val, expiresAt⟩)

def remove (ks : Keyspace) (key : Key) : Keyspace := Function.update ks key none

def collect (ks : Keyspace) (key : Key) (now : ℤ) : Keyspace :=
  if (ks key).any (·.expired now) then ks.remove key else ks

def putAll (ks : Keyspace) (pairs : List (Key × Bytes)) : Keyspace :=
  pairs.foldl (fun ks p => ks.put p.1 p.2 none) ks

def removeAll (ks : Keyspace) (keys : List Key) : Keyspace := keys.foldl remove ks

def deleted (now : ℤ) : List Key → Keyspace → ℕ × List Key
  | [], _ => (0, [])
  | key :: keys, ks =>
    match ks key with
    | none => deleted now keys ks
    | some it =>
      let rest := deleted now keys (ks.remove key)
      (rest.1 + if it.expired now then 0 else 1, key :: rest.2)

def expireKey (ks : Keyspace) (key : Key) (deadline : Time) (now : ℤ) : ExpireAnswer × Keyspace :=
  match ks key with
  | none => (.missing, ks)
  | some it =>
    if it.expired now then (.collected, ks.remove key)
    else
      match deadline with
      | none => (.deleted, ks.remove key)
      | some d =>
        if now < d then (.kept d, ks.put key it.val (some d)) else (.deleted, ks.remove key)

def readAnswer (ks : Keyspace) (key : Key) (now : ℤ) : GetAnswer :=
  match ks key with
  | none => .missing
  | some it => if it.expired now then .expired else .hit it.val

def Live (ks : Keyspace) (now : ℤ) (key : Key) : Prop :=
  ∃ it, ks key = some it ∧ it.expired now = false

def record (ks : Keyspace) (key : Key) : Record :=
  match ks key with
  | none => []
  | some it => setRecord key it.val it.expiresAt

/-- Some keys whose deadline has passed are gone, and nothing else has changed. -/
def Collected (now : ℤ) (ks ks' : Keyspace) : Prop :=
  ∀ key, ks' key = ks key ∨ ks' key = none ∧ (ks key).any (·.expired now)

end Keyspace

def Keyspace.Sampled (ks : Keyspace) (sample : Sample) : SampleAnswer → Prop
  | .victim key => (ks key).isSome
  | .more sample' => ∀ best ∈ sample'.best, best ∈ sample.best ∨ (ks best.1).isSome

def view (s : Store) : Keyspace := fun key => (s.lookup key).map Entry.item

/-- What the critical sections of mutations can see of a store: keyspace and journal. -/
structure Image where
  keyspace : Keyspace
  journal : Option (List Record)

def image (s : Store) : Image := ⟨s.view, s.journal⟩

def Image.propagate (w : Image) (record : Record) : Image :=
  { w with journal := w.journal.map (· ++ [record]) }

def ActSpec : Program.ActionSpec sig Input Image
  | .now, i, r, w, w' => r = i.time ∧ w' = w
  | .propagate record, _, _, w, w' => w' = w.propagate record
  | .getRead key now, _, r, w, w' => r = w.keyspace.readAnswer key now ∧ w' = w
  | .getCollect key, i, _, w, w' => w' = { w with keyspace := w.keyspace.collect key i.time }
  | .lookup key, _, r, w, w' => r.map Entry.item = w.keyspace key ∧ w' = w
  | .set key val expiresAt, _, _, w, w' =>
    w' = { w with keyspace := w.keyspace.put key val expiresAt }
  | .delete key, _, _, w, w' => w' = { w with keyspace := w.keyspace.remove key }
  | .mset pairs, _, _, w, w' => w' = { w with keyspace := w.keyspace.putAll pairs }
  | .del keys now, _, r, w, w' =>
    r = Keyspace.deleted now keys w.keyspace ∧ w' = { w with keyspace := w.keyspace.removeAll keys }
  | .expireAt key deadline now, _, r, w, w' =>
    r = (w.keyspace.expireKey key deadline now).1 ∧
      w' = { w with keyspace := (w.keyspace.expireKey key deadline now).2 }
  | .shardLive i now, _, r, w, w' =>
    (r : ℕ∞) = {key | shardIndex key = i ∧ w.keyspace.Live now key}.encard ∧ w' = w
  | .shardSnapshot i now, _, r, w, w' =>
    (∃ keys : List Key, keys.Nodup ∧
      (∀ key, key ∈ keys ↔ shardIndex key = i ∧ w.keyspace.Live now key) ∧
      r = keys.map w.keyspace.record) ∧ w' = w
  | .sampleShard _ sample, _, r, w, w' => w.keyspace.Sampled sample r ∧ w' = w
  | .expireShard _ now _ _, _, _, w, w' =>
    w.keyspace.Collected now w'.keyspace ∧ w'.journal = w.journal
  | _, _, _, w, w' => w' = w

section ActSpec

variable {i : Input} {w w' : Image}

@[simp] lemma actSpec_now {r : ℤ} : ActSpec .now i r w w' ↔ r = i.time ∧ w' = w := Iff.rfl

@[simp] lemma actSpec_config {r : ℤ × EvictionPolicy} : ActSpec .config i r w w' ↔ w' = w := Iff.rfl

@[simp] lemma actSpec_stats {r : Stats} : ActSpec .stats i r w w' ↔ w' = w := Iff.rfl

@[simp] lemma actSpec_lockDurableMutation {r : Unit} :
    ActSpec .lockDurableMutation i r w w' ↔ w' = w := Iff.rfl

@[simp] lemma actSpec_unlockDurableMutation {r : Unit} :
    ActSpec .unlockDurableMutation i r w w' ↔ w' = w := Iff.rfl

@[simp] lemma actSpec_lockShard {j : ShardId} {r : Unit} :
    ActSpec (.lockShard j) i r w w' ↔ w' = w := Iff.rfl

@[simp] lemma actSpec_unlockShard {j : ShardId} {r : Unit} :
    ActSpec (.unlockShard j) i r w w' ↔ w' = w := Iff.rfl

@[simp] lemma actSpec_propagate {record : Record} {r : Unit} :
    ActSpec (.propagate record) i r w w' ↔ w' = w.propagate record := Iff.rfl

@[simp] lemma actSpec_getRead {key : Key} {now : ℤ} {r : GetAnswer} :
    ActSpec (.getRead key now) i r w w' ↔ r = w.keyspace.readAnswer key now ∧ w' = w := Iff.rfl

@[simp] lemma actSpec_getCollect {key : Key} {r : Unit} :
    ActSpec (.getCollect key) i r w w' ↔
    w' = { w with keyspace := w.keyspace.collect key i.time } := Iff.rfl

@[simp] lemma actSpec_lookup {key : Key} {r : Option Entry} :
    ActSpec (.lookup key) i r w w' ↔ r.map Entry.item = w.keyspace key ∧ w' = w := Iff.rfl

@[simp] lemma actSpec_set {key : Key} {val : Bytes} {expiresAt : Time} {r : Unit} :
    ActSpec (.set key val expiresAt) i r w w' ↔
    w' = { w with keyspace := w.keyspace.put key val expiresAt } :=
  Iff.rfl

@[simp] lemma actSpec_delete {key : Key} {r : Unit} :
    ActSpec (.delete key) i r w w' ↔ w' = { w with keyspace := w.keyspace.remove key } := Iff.rfl

@[simp] lemma actSpec_mset {pairs : List (Key × Bytes)} {r : Unit} :
    ActSpec (.mset pairs) i r w w' ↔ w' = { w with keyspace := w.keyspace.putAll pairs } := Iff.rfl

@[simp] lemma actSpec_del {keys : List Key} {now : ℤ} {r : ℕ × List Key} :
    ActSpec (.del keys now) i r w w' ↔ r = Keyspace.deleted now keys w.keyspace ∧
      w' = { w with keyspace := w.keyspace.removeAll keys } := Iff.rfl

@[simp] lemma actSpec_expireAt {key : Key} {deadline : Time} {now : ℤ} {r : ExpireAnswer} :
    ActSpec (.expireAt key deadline now) i r w w' ↔ r = (w.keyspace.expireKey key deadline now).1 ∧
      w' = { w with keyspace := (w.keyspace.expireKey key deadline now).2 } := Iff.rfl

@[simp] lemma actSpec_shardUsed {j : ShardId} {r : ℤ} : ActSpec (.shardUsed j) i r w w' ↔ w' = w :=
  Iff.rfl

@[simp] lemma actSpec_shardLive {j : ShardId} {now : ℤ} {r : ℕ} :
    ActSpec (.shardLive j now) i r w w' ↔
      (r : ℕ∞) = {key | shardIndex key = j ∧ w.keyspace.Live now key}.encard ∧ w' = w := Iff.rfl

@[simp] lemma actSpec_tick {r : Unit} : ActSpec .tick i r w w' ↔ w' = w := Iff.rfl

@[simp] lemma actSpec_expireShard {j : ShardId} {now : ℤ} {n scanned : ℕ} {r : ℕ × ℕ} :
    ActSpec (.expireShard j now n scanned) i r w w' ↔
      w.keyspace.Collected now w'.keyspace ∧ w'.journal = w.journal := Iff.rfl

@[simp] lemma actSpec_sampleShard {j : ShardId} {sample : Sample} {r : SampleAnswer} :
    ActSpec (.sampleShard j sample) i r w w' ↔ w.keyspace.Sampled sample r ∧ w' = w := Iff.rfl

@[simp] lemma actSpec_evicted {r : Unit} : ActSpec .evicted i r w w' ↔ w' = w := Iff.rfl

def Act.mutates : Act → Bool
  | .propagate _ | .getCollect _ | .set _ _ _ | .delete _ | .mset _ | .del _ _ | .expireAt _ _ _ |
    .expireShard _ _ _ _ => true
  | _ => false

lemma ActSpec.unchanged {a : Act} {r : a.Resp} (ha : a.mutates = false) (h : ActSpec a i r w w') :
    w' = w := by
  cases a with
  | now => exact h.2
  | getRead key now => exact h.2
  | lookup key => exact h.2
  | shardLive j now => exact h.2
  | shardSnapshot j now => exact h.2
  | sampleShard j sample => exact h.2
  | propagate | getCollect | set | delete | mset | del | expireAt | expireShard =>
    exact absurd ha Bool.true_eq_false.mp
  | _ => exact h

end ActSpec

lemma lookup_updateShard (s : Store) (i : ShardId) (sh : Shard) (key : Key) :
    (s.updateShard i sh).lookup key = if shardIndex key = i then sh.data.lookup key
    else s.lookup key := by
  simp only [lookup, readShard, updateShard, Function.update_apply]
  split_ifs <;> rfl

lemma lookup_setLocked (s : Store) (key : Key) (val : Bytes) (expiresAt : Time) :
    (s.setLockedInWriteLockedShard key val expiresAt).lookup key =
    some ⟨val, s.clock, expiresAt⟩ := by
  simp [setLockedInWriteLockedShard, lookup_updateShard, Shard.set]

lemma view_setLocked (s : Store) (key : Key) (val : Bytes) (expiresAt : Time) :
    (s.setLockedInWriteLockedShard key val expiresAt).view = s.view.put key val expiresAt := by
  funext key'
  simp only [view, setLockedInWriteLockedShard, lookup_updateShard, Keyspace.put,
    Function.update_apply]
  by_cases hk : key' = key
  · subst hk
    simp [Shard.set, Entry.item]
  · simp only [hk, if_false, Shard.set, AList.lookup_insert_ne hk]
    split_ifs with hi
    · simp [lookup, readShard, hi]
    · rfl

lemma view_deleteLocked (s : Store) (key : Key) :
    (s.deleteLockedInWriteLockedShard key).view = s.view.remove key := by
  funext key'
  simp only [view, deleteLockedInWriteLockedShard, lookup_updateShard, Keyspace.remove,
    Function.update_apply]
  by_cases hk : key' = key
  · subst hk
    simp [Shard.delete]
  · simp only [hk, if_false, Shard.delete, AList.lookup_erase_ne hk]
    split_ifs with hi
    · simp [lookup, readShard, hi]
    · rfl

lemma view_apply (s : Store) (key : Key) : s.view key = (s.lookup key).map Entry.item := rfl

lemma view_touch (s : Store) (key : Key) (e : Entry) (he : s.lookup key = some e) (e' : Entry)
    (hi : e'.item = e.item) (sh : Shard) (hd : sh.data = (s.readShard key).data.insert key e') :
    (s.updateShard (shardIndex key) sh).view = s.view := by
  funext key'
  simp only [view, lookup_updateShard, hd]
  by_cases hk : key' = key
  · subst hk
    simp [he, hi]
  · rw [AList.lookup_insert_ne hk]
    split_ifs with hi
    · simp [lookup, readShard, hi]
    · rfl

lemma getReadSection_spec (s : Store) (key : Key) (now : ℤ) :
    (s.getReadSection key now).1 = s.view.readAnswer key now ∧
    (s.getReadSection key now).2.image = s.image := by
  unfold getReadSection Keyspace.readAnswer
  cases he : s.lookup key with
  | none =>
    rw [view_apply, he]
    exact ⟨rfl, rfl⟩
  | some e =>
    rw [view_apply, he]
    simp only [Option.map_some, Entry.item_expired]
    by_cases hx : e.expired now = true
    · simp only [hx, if_true]
      exact ⟨trivial, trivial⟩
    · rw [Bool.not_eq_true] at hx
      simp only [hx, Bool.false_eq_true, if_false]
      refine ⟨rfl, ?_⟩
      have ht : ((s.readShard key).touch s.clock key).data =
          (s.readShard key).data.insert key { e with atime := s.clock } := by
        have : (s.readShard key).data.lookup key = some e := he
        simp [Shard.touch, this]
      have hv := view_touch s key e he { e with atime := s.clock } rfl _ ht
      simp only [image]
      exact congrArg (fun v => Image.mk v s.journal) hv

lemma getCollectSection_image (s : Store) (key : Key) (now : ℤ) :
    (s.getCollectSection key now).image = { s.image with keyspace := s.view.collect key now } := by
  unfold getCollectSection Keyspace.collect
  cases he : s.lookup key with
  | none => simp [view_apply, he, image]
  | some e =>
    simp only [view_apply, he, Option.map_some, Option.any_some, Entry.item_expired]
    split_ifs
    · simp only [image, view_deleteLocked]
      rfl
    · rfl

lemma msetSection_image (pairs : List (Key × Bytes)) (s : Store) :
    (s.msetSection pairs).image = { s.image with keyspace := s.view.putAll pairs } := by
  induction pairs generalizing s with
  | nil => rfl
  | cons p pairs ih =>
    refine (ih (s.setLockedInWriteLockedShard p.1 p.2 none)).trans ?_
    simp only [image, view_setLocked]
    rfl

lemma Keyspace.remove_eq_self {ks : Keyspace} {key : Key} (hk : ks key = none) :
    ks.remove key = ks :=
  Function.update_eq_self_iff.2 hk.symm

lemma delSection_spec (now : ℤ) (keys : List Key) (s : Store) :
    (delSection now keys s).1 = Keyspace.deleted now keys s.view ∧
      (delSection now keys s).2.image = { s.image with keyspace := s.view.removeAll keys } := by
  induction keys generalizing s with
  | nil => exact ⟨rfl, rfl⟩
  | cons key keys ih =>
    unfold delSection Keyspace.deleted
    cases he : s.lookup key with
    | none =>
      have hn : s.view key = none := by simp [view_apply, he]
      simp only [hn]
      obtain ⟨h₁, h₂⟩ := ih s
      refine ⟨h₁, h₂.trans ?_⟩
      simp only [Keyspace.removeAll, List.foldl_cons, Keyspace.remove_eq_self hn]
    | some e =>
      have hn : s.view key = some e.item := by simp [view_apply, he]
      obtain ⟨h₁, h₂⟩ := ih (s.deleteLockedInWriteLockedShard key)
      rw [view_deleteLocked] at h₁ h₂
      simp only [hn, h₁]
      exact ⟨rfl, h₂⟩

lemma expireAtSection_spec (s : Store) (key : Key) (deadline : Time) (now : ℤ) :
    (s.expireAtSection key deadline now).1 = (s.view.expireKey key deadline now).1 ∧
      (s.expireAtSection key deadline now).2.image =
        { s.image with keyspace := (s.view.expireKey key deadline now).2 } := by
  unfold expireAtSection Keyspace.expireKey
  have hd : (s.deleteLockedInWriteLockedShard key).image =
      { s.image with keyspace := s.view.remove key } := by
    simp only [image, view_deleteLocked]
    rfl
  cases he : s.lookup key with
  | none => simp [view_apply, he, image]
  | some e =>
    simp only [view_apply, he, Option.map_some, Entry.item_expired]
    by_cases hx : e.expired now = true
    · simp only [hx, if_true]
      exact ⟨trivial, hd⟩
    · rw [Bool.not_eq_true] at hx
      simp only [hx, Bool.false_eq_true, if_false]
      cases deadline with
      | none => exact ⟨rfl, hd⟩
      | some d =>
        simp only
        split_ifs
        · refine ⟨rfl, ?_⟩
          have hv := view_setLocked s key e.val (some d)
          have hl :
            (s.updateShard (shardIndex key) ((s.readShard key).setDeadline key e (some d))).view =
              (s.setLockedInWriteLockedShard key e.val (some d)).view := by
            funext key'
            simp only [view, setLockedInWriteLockedShard, lookup_updateShard,
              Shard.setDeadline, Shard.set]
            split_ifs with hi
            · by_cases hk : key' = key
              · subst hk
                simp [Entry.item]
              · simp [AList.lookup_insert_ne hk]
            · rfl
          simp only [image, hl, hv]
          rfl
        · exact ⟨rfl, hd⟩

lemma Shard.expireKeys_lookup (now : ℤ) (n : ℕ) (keys : List Key) (key' : Key) :
    ∀ (sh : Shard) (scanned expired : ℕ),
      (Shard.expireKeys now n keys sh scanned expired).1.data.lookup key' = sh.data.lookup key' ∨
      (Shard.expireKeys now n keys sh scanned expired).1.data.lookup key' = none ∧
        (sh.data.lookup key').any (·.expired now) := by
  induction keys with
  | nil => exact fun sh _ _ => .inl rfl
  | cons key keys ih =>
    intro sh scanned expired
    unfold Shard.expireKeys
    split_ifs
    · exact .inl rfl
    · cases he : sh.data.lookup key with
      | none => exact ih _ _ _
      | some e =>
        simp only
        split_ifs with hx
        · by_cases hk : key' = key
          · subst hk
            refine .inr ⟨?_, by simp [he, hx]⟩
            rcases ih ⟨sh.data.erase key', sh.expiring.erase key', sh.used - entrySize key' e.val⟩
              (scanned + 1) (expired + 1) with h | h
            · simpa using h
            · exact h.1
          · have := ih ⟨sh.data.erase key, sh.expiring.erase key, sh.used - entrySize key e.val⟩
              (scanned + 1) (expired + 1)
            simpa only [AList.lookup_erase_ne hk] using this
        · exact ih _ _ _

lemma expireShardSection_collected (s : Store) (i : ShardId) (now : ℤ) (n scanned : ℕ)
    (order : MapOrder) :
    s.view.Collected now (s.expireShardSection i now n scanned order).2.view := by
  intro key
  have hl := lookup_updateShard s i
    (Shard.expireKeys now n (order.keys (s.shards i).expiring.keys) (s.shards i) scanned 0).1 key
  have hv : (s.expireShardSection i now n scanned order).2.view key =
      ((s.updateShard i (Shard.expireKeys now n (order.keys (s.shards i).expiring.keys)
        (s.shards i) scanned 0).1).lookup key).map Entry.item := rfl
  rw [hv, hl, view_apply]
  split_ifs with hi
  · subst hi
    rcases Shard.expireKeys_lookup now n (order.keys (s.shards (shardIndex key)).expiring.keys) key
      (s.shards (shardIndex key)) scanned 0 with h | ⟨h, hx⟩
    · exact .inl (by rw [h]; rfl)
    · refine .inr ⟨by rw [h]; rfl, ?_⟩
      have : ((s.lookup key).map Entry.item).any (·.expired now) = (s.lookup key).any
          (·.expired now) := by
        cases s.lookup key <;> rfl
      rw [this]
      exact hx
  · exact .inl rfl

lemma live_iff (s : Store) (now : ℤ) (key : Key) :
    s.view.Live now key ↔ ∃ e, s.lookup key = some e ∧ e.expired now = false := by
  simp only [Keyspace.Live, view_apply, Option.map_eq_some_iff]
  constructor
  · rintro ⟨it, ⟨e, he, rfl⟩, hx⟩
    exact ⟨e, he, hx⟩
  · rintro ⟨e, he, hx⟩
    exact ⟨e.item, ⟨e, he, rfl⟩, hx⟩

lemma WellFormed.lookup_shard {s : Store} (hs : WellFormed s) (i : ShardId)
    (key : Key) (e : Entry) :
    (s.shards i).data.lookup key = some e ↔ shardIndex key = i ∧ s.lookup key = some e := by
  constructor
  · intro he
    have hi := (hs i).routed key (AList.lookup_isSome.1 (by rw [he]; rfl))
    subst hi
    exact ⟨rfl, he⟩
  · rintro ⟨rfl, he⟩
    exact he

lemma shardLive_spec {s : Store} (hs : WellFormed s) (i : ShardId) (now : ℤ) :
    ((((s.shards i).data.entries.filter fun e => !e.2.expired now).length : ℕ) : ℕ∞) =
      {key | shardIndex key = i ∧ s.view.Live now key}.encard := by
  set l := (s.shards i).data.entries.filter fun e => !e.2.expired now with hl
  have hn : (l.map Sigma.fst).Nodup :=
    List.Nodup.sublist (List.Sublist.map _ List.filter_sublist) (s.shards i).data.nodupKeys
  have hset : {key | shardIndex key = i ∧ s.view.Live now key} =
      ((l.map Sigma.fst).toFinset : Set Key) := by
    ext key
    simp only [Set.mem_ofPred_eq, live_iff, List.coe_toFinset, List.mem_map, hl, List.mem_filter,
      Bool.not_eq_true']
    constructor
    · rintro ⟨hi, e, he, hx⟩
      exact ⟨⟨key, e⟩, ⟨AList.mem_lookup_iff.1 ((hs.lookup_shard i key e).2 ⟨hi, he⟩), hx⟩, rfl⟩
    · rintro ⟨⟨key', e⟩, ⟨he, hx⟩, rfl⟩
      have he' := (hs.lookup_shard i key' e).1 (AList.mem_lookup_iff.2 he)
      exact ⟨he'.1, e, he'.2, hx⟩
  rw [hset, Set.encard_coe_eq_coe_finsetCard, List.toFinset_card_of_nodup hn, List.length_map]

lemma shardSnapshot_spec {s : Store} (hs : WellFormed s) (i : ShardId) (now : ℤ)
    (order : MapOrder) :
    ∃ keys : List Key, keys.Nodup ∧ (∀ key, key ∈ keys ↔ shardIndex key = i ∧ s.view.Live now key) ∧
      shardSnapshotSection (s.shards i) now order = keys.map s.view.record := by
  let live (key : Key) : Bool := ((s.shards i).data.lookup key).any fun e => !e.expired now
  have hlive (key : Key) : live key = true ↔ shardIndex key = i ∧ s.view.Live now key := by
    simp only [live, Option.any_eq_true, live_iff, Bool.not_eq_true', hs.lookup_shard i key]
    constructor
    · rintro ⟨e, ⟨hi, he⟩, hx⟩
      exact ⟨hi, e, he, hx⟩
    · rintro ⟨hi, e, he, hx⟩
      exact ⟨e, ⟨hi, he⟩, hx⟩
  refine ⟨(order.keys (s.shards i).data.keys).filter live, ?_, fun key => ?_, ?_⟩
  · exact List.Nodup.filter _ ((order.perm _).nodup_iff.2 (s.shards i).data.nodupKeys)
  · rw [List.mem_filter, (order.perm _).mem_iff, hlive]
    refine ⟨fun h => h.2, fun h => ⟨?_, h⟩⟩
    obtain ⟨e, he, -⟩ := Option.any_eq_true _ _ |>.1 ((hlive key).2 h)
    exact AList.lookup_isSome.1 (by rw [he]; rfl)
  · unfold shardSnapshotSection
    induction order.keys (s.shards i).data.keys with
    | nil => rfl
    | cons key keys ih =>
      rw [List.filterMap_cons, List.filter_cons, ih]
      cases he : (s.shards i).data.lookup key with
      | none => simp [live, he]
      | some e =>
        have hv := ((hs.lookup_shard i key e).1 he).2
        cases hx :
          e.expired now <;> simp [live, he, hx, Keyspace.record, view_apply, hv, Entry.item]

lemma sampleKeys_cons_of_lookup {s : Store} {key : Key} {e : Entry} (he : s.lookup key = some e)
    (keys : List Key) (sample : Sample) :
    ∃ next : Sample, (∀ best ∈ next.best, best ∈ sample.best ∨ best.1 = key) ∧
      sampleKeys s (key :: keys) sample = if next.scanned < evictSampleSize then
      sampleKeys s keys next else next := by
  cases hbest : sample.best with
  | none =>
    refine ⟨⟨some (key, e.atime), sample.scanned + 1⟩, fun best hb => ?_, by
      simp only [sampleKeys, he, hbest]⟩
    obtain rfl := Option.some.inj hb
    exact .inr rfl
  | some old =>
    by_cases hlt : e.atime < old.2
    · refine ⟨⟨some (key, e.atime), sample.scanned + 1⟩, fun best hb => ?_, by
        simp only [sampleKeys, he, hbest, if_pos hlt]⟩
      obtain rfl := Option.some.inj hb
      exact .inr rfl
    · exact ⟨⟨some old, sample.scanned + 1⟩, fun best hb => .inl hb, by
        simp only [sampleKeys, he, hbest, if_neg hlt]⟩

lemma sampleKeys_best (s : Store) (keys : List Key) :
    ∀ (sample : Sample), ∀ best ∈ (sampleKeys s keys sample).best,
    best ∈ sample.best ∨ best.1 ∈ keys ∧ (s.view best.1).isSome := by
  induction keys with
  | nil => exact fun _ _ hb => .inl hb
  | cons key keys ih =>
    intro sample best hb
    cases he : s.lookup key with
    | none =>
      rw [sampleKeys, he] at hb
      exact (ih sample best hb).imp_right (And.imp_left (List.mem_cons_of_mem key))
    | some e =>
      obtain ⟨next, hnext, heq⟩ := sampleKeys_cons_of_lookup he keys sample
      have hkey : best ∈ next.best → best ∈ sample.best ∨ best.1 ∈ key :: keys ∧
          (s.view best.1).isSome := by
        intro hb
        refine (hnext best hb).imp_right fun hkey => ?_
        rw [hkey]
        exact ⟨List.mem_cons_self, by simp [view_apply, he]⟩
      rw [heq] at hb
      split_ifs at hb
      · rcases ih next best hb with hb | hb
        · exact hkey hb
        · exact .inr (hb.imp_left (List.mem_cons_of_mem key))
      · exact hkey hb

lemma sampleShardSection_spec {s : Store} (hs : WellFormed s) (i : ShardId) (sample : Sample)
    (order : MapOrder) : s.view.Sampled sample (s.sampleShardSection i sample order) := by
  unfold sampleShardSection
  split
  · exact fun best hb => (sampleKeys_best s _ sample best hb).imp_right And.right
  · split
    · exact fun best hb => .inl hb
    · rename_i key keys hk
      have hmem : key ∈ (s.shards i).data.keys := (order.perm _).mem_iff.1 (hk ▸ List.mem_cons_self)
      have hi := (hs i).routed key hmem
      have hl := AList.lookup_isSome.2 hmem
      subst hi
      change ((s.lookup key).map Entry.item).isSome
      rw [Option.isSome_map]
      exact hl
  · exact fun best hb => (sampleKeys_best s _ sample best hb).imp_right And.right

lemma perform_spec (a : Act) (i : Input) (s : Store) (hs : WellFormed s) :
    ActSpec a i (perform a i s).1 s.image (perform a i s).2.image := by
  cases a with
  | getRead key now => exact getReadSection_spec s key now
  | getCollect key => exact getCollectSection_image s key i.time
  | lookup key => exact ⟨rfl, rfl⟩
  | set key val expiresAt =>
    exact congrArg (Image.mk · s.journal) (view_setLocked s key val expiresAt)
  | delete key => exact congrArg (Image.mk · s.journal) (view_deleteLocked s key)
  | mset pairs => exact msetSection_image pairs s
  | del keys now => exact delSection_spec now keys s
  | expireAt key deadline now => exact expireAtSection_spec s key deadline now
  | shardLive j now => exact ⟨shardLive_spec hs j now, rfl⟩
  | shardSnapshot j now => exact ⟨shardSnapshot_spec hs j now i.order, rfl⟩
  | sampleShard j sample => exact ⟨sampleShardSection_spec hs j sample i.order, rfl⟩
  | expireShard j now n scanned =>
    exact ⟨expireShardSection_collected s j now n scanned i.order, rfl⟩
  | now => exact ⟨rfl, rfl⟩
  | _ => rfl

lemma runs_image {α : Type} {p : Prog α} {inputs : ℕ → Input} {s s' : Store} {n : ℕ} {b : α}
    (hs : WellFormed s) (h : Program.Runs (Program.performs (S := sig) perform) p inputs s n b s') :
    Program.Runs ActSpec p inputs s.image n b s'.image := by
  refine Program.Reaches.mono (fun a i r w w' hw ha => ?_) hs h
  have hr : perform a i w = (r, w') := ha
  have h₁ := perform_wellFormed a i w hw
  have h₂ := perform_spec a i w hw
  rw [hr] at h₁ h₂
  exact ⟨h₁, h₂⟩

lemma exec_image {α : Type} (p : Prog α) (inputs : ℕ → Input) (s : Store) (hs : WellFormed s) :
    Program.Runs ActSpec p inputs s.image (exec p inputs s).2.1 (exec p inputs s).1
      (exec p inputs s).2.2.image :=
  runs_image hs (Program.runs_run (S := sig) perform p inputs s)

end RedisClone.Store
