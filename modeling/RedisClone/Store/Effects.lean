import RedisClone.Store.Keyspace

/-! What each operation of the store answers, does to the keyspace and journals, when no
other thread comes between its critical sections. -/

namespace RedisClone.Store

open Lib Lib.Program Lib.Decimal

inductive Mutation
  | put (key : Key) (val : Bytes) (expiresAt : Time)
  | putAll (pairs : List (Key × Bytes))
  | remove (keys : List Key)
  | touch (key : Key) (d : ℤ)
  deriving DecidableEq, Repr

def Mutation.record : Mutation → Record
  | .put key val expiresAt => setRecord key val expiresAt
  | .putAll pairs => msetRecord pairs
  | .remove keys => cmdDEL :: keys
  | .touch key d => [cmdPEXPIREAT, key, unixMillis d]

structure Effect (α : Type) where
  answer : α
  keyspace : Keyspace
  mutations : List Mutation

def Effect.records {α : Type} (e : Effect α) : List Record := e.mutations.map Mutation.record

def Effect.map {α β : Type} (f : α → β) (e : Effect α) : Effect β :=
  ⟨f e.answer, e.keyspace, e.mutations⟩

namespace Keyspace

def putEffect (ks : Keyspace) (key : Key) (val : Bytes) (expiresAt : Time) : Effect Unit :=
  ⟨(), ks.put key val expiresAt, [.put key val expiresAt]⟩

def delEffect (ks : Keyspace) (keys : List Key) (now : ℤ) : Effect ℕ :=
  let found := deleted now keys ks
  ⟨found.1, ks.removeAll keys, if found.2 = [] then [] else [.remove found.2]⟩

def setWithTTLEffect (ks : Keyspace) (key : Key) (val : Bytes) (d now : ℤ) : Effect Unit :=
  if d ≤ 0 then (ks.delEffect [key] now).map fun _ => () else ks.putEffect key val (some (now + d))

def setWithDeadlineEffect (ks : Keyspace) (key : Key) (val : Bytes) (deadline : Time)
    (now later : ℤ) : Effect Unit :=
  if deadline.after now then ks.putEffect key val deadline
    else (ks.delEffect [key] later).map fun _ => ()

def expireMutations (key : Key) : ExpireAnswer → List Mutation
  | .missing => []
  | .collected | .deleted => [.remove [key]]
  | .kept d => [.touch key d]

def expireFound : ExpireAnswer → Bool
  | .missing | .collected => false
  | .deleted | .kept _ => true

def expireEffect (ks : Keyspace) (key : Key) (deadline : Time) (now : ℤ) : Effect Bool :=
  let found := ks.expireKey key deadline now
  ⟨expireFound found.1, found.2, expireMutations key found.1⟩

def getEffect (ks : Keyspace) (key : Key) (now later : ℤ) : Effect (Option Bytes) :=
  match ks.readAnswer key now with
  | .missing => ⟨none, ks, []⟩
  | .hit val => ⟨some val, ks, []⟩
  | .expired => ⟨none, ks.collect key later, []⟩

def itemDeadline (it : Option Item) : Time := it.bind Item.expiresAt

def itemCounter : Option Item → Option ℤ
  | none => some 0
  | some it => parseInt64 it.val

def incrementEffect (ks : Keyspace) (key : Key) (delta : Int64) (now : ℤ) : Effect (Option ℤ) :=
  let ks := ks.collect key now
  match itemCounter (ks key) with
  | none => ⟨none, ks, []⟩
  | some n =>
    if sumOverflows n delta.toInt then ⟨none, ks, []⟩
    else
      let n := wrap64 (n + delta.toInt)
      ⟨some n, ks.put key (formatInt n) (itemDeadline (ks key)),
        [.put key (formatInt n) (itemDeadline (ks key))]⟩

def appendEffect (ks : Keyspace) (key : Key) (suffix : Bytes) (now : ℤ) : Effect ℕ :=
  let ks := ks.collect key now
  let val := ((ks key).map Item.val).getD [] ++ suffix
  ⟨val.length, ks.put key val (itemDeadline (ks key)), [.put key val (itemDeadline (ks key))]⟩

def ttlAnswer (ks : Keyspace) (key : Key) (now : ℤ) : TTLAnswer :=
  match ks key with
  | none => .keyMissing
  | some it =>
    match it.expiresAt with
    | none => .keyPersistent
    | some d => if d ≤ now then .keyMissing else .keyVolatile (saturatingSub d now)

def existing (ks : Keyspace) (now : ℤ) (keys : List Key) : ℕ :=
  keys.countP fun key => (ks key).any fun it => !it.expired now

end Keyspace

open Keyspace in
noncomputable def Op.effect (times : ℕ → ℤ) (ks : Keyspace) : Op → Effect Answer
  | .get key => (ks.getEffect key (times 0) (times 2)).map .value
  | .set key val => (ks.putEffect key val none).map fun _ => .unit
  | .setWithTTL key val d => (ks.setWithTTLEffect key val d (times 0)).map fun _ => .unit
  | .setWithDeadline key val deadline =>
    (ks.setWithDeadlineEffect key val deadline (times 0) (times 1)).map fun _ => .unit
  | .mset pairs => ⟨.unit, ks.putAll pairs, [.putAll pairs]⟩
  | .increment key delta => (ks.incrementEffect key delta (times 0)).map .number
  | .append key suffix => (ks.appendEffect key suffix (times 0)).map .count
  | .expire key d => (ks.expireEffect key (some (times 0 + d)) (times 1)).map .flag
  | .expireAt key deadline => (ks.expireEffect key deadline (times 0)).map .flag
  | .ttl key => ⟨.ttl (ks.ttlAnswer key (times 0)), ks, []⟩
  | .del keys => (ks.delEffect keys (times 0)).map .count
  | .exists_ keys => ⟨.count (ks.existing (times 0) keys), ks, []⟩
  | .dbSize => ⟨.count {key | ks.Live (times 0) key}.ncard, ks, []⟩

def Image.apply (w : Image) (ks : Keyspace) (records : List Record) : Image :=
  ⟨ks, w.journal.map (· ++ records)⟩

@[simp] lemma Image.apply_keyspace (w : Image) (ks : Keyspace) (records : List Record) :
    (w.apply ks records).keyspace = ks := rfl

@[simp] lemma Image.apply_apply (w : Image) (ks ks' : Keyspace) (rs rs' : List Record) :
    (w.apply ks rs).apply ks' rs' = w.apply ks' (rs ++ rs') := by
  simp [Image.apply, Function.comp_def]

lemma Image.apply_nil (w : Image) (ks : Keyspace) : w.apply ks [] = { w with keyspace := ks } := by
  simp [Image.apply]

lemma Image.apply_self (w : Image) : w.apply w.keyspace [] = w := Image.apply_nil w w.keyspace

structure Effect.Holds {α : Type} (e : Effect α) (w : Image) (b : α) (w' : Image) : Prop where
  answer : b = e.answer
  image : w' = w.apply e.keyspace e.records

def HasEffect {α : Type} (p : Prog α) (effect : (ℕ → ℤ) → Keyspace → Effect α) : Prop :=
  ∀ ⦃inputs w n b w'⦄, Runs ActSpec p inputs w n b w' →
    (effect (fun i => (inputs i).time) w.keyspace).Holds w b w'

lemma HasEffect.map {α β : Type} {p : Prog α} {effect : (ℕ → ℤ) → Keyspace → Effect α}
    (hp : HasEffect p effect) (f : α → β) :
    HasEffect (f <$> p) fun times ks => (effect times ks).map f := by
  intro inputs w n b w' h
  obtain ⟨a, ha, rfl⟩ := runs_map.1 h
  obtain ⟨h₁, h₂⟩ := hp ha
  exact ⟨congrArg f h₁, h₂⟩

lemma HasEffect.andReturn {α β : Type} {p : Prog α} {effect : (ℕ → ℤ) → Keyspace → Effect α}
    (hp : HasEffect p effect) (f : α → β) :
    HasEffect (p >>= fun a => pure (f a)) fun times ks => (effect times ks).map f := by
  have hm := hp.map f
  rwa [map_eq_pure_bind] at hm

lemma get_effect (key : Key) :
    HasEffect (get key) fun times ks => ks.getEffect key (times 0) (times 2) := by
  intro inputs w n b w' h
  beta_reduce
  simp only [get, invoke, call, act_bind, done_bind, runs_act, actSpec_now, actSpec_getRead] at h
  obtain ⟨_, _, _, ⟨rfl, rfl⟩, ⟨r, w₁, _, ⟨hr, rfl⟩, h, -⟩, -⟩ := h
  simp only [Keyspace.getEffect, ← hr]
  cases r with
  | missing =>
    simp only [pure_eq, runs_done] at h
    exact ⟨h.2.1, h.2.2.trans (Image.apply_self _).symm⟩
  | hit val =>
    simp only [pure_eq, runs_done] at h
    exact ⟨h.2.1, h.2.2.trans (Image.apply_self _).symm⟩
  | expired =>
    simp only [runs_act, actSpec_getCollect, pure_eq, runs_done] at h
    obtain ⟨_, _, _, rfl, ⟨-, rfl, rfl⟩, -⟩ := h
    exact ⟨rfl, (Image.apply_nil _ _).symm⟩

lemma setTo_effect (key : Key) (val : Bytes) (expiresAt : Time) :
    HasEffect (setTo key val expiresAt) fun _ ks => ks.putEffect key val expiresAt := by
  intro inputs w n b w' h
  beta_reduce
  simp [setTo, setLocked, invoke, call] at h
  exact ⟨rfl, h.1⟩

lemma runs_lockAll {ids : List ShardId} {inputs : ℕ → Input} {w w' : Image} {n : ℕ} {b : Unit}
    (h : Runs ActSpec (lockAll ids) inputs w n b w') : w' = w := by
  induction ids generalizing inputs n with
  | nil =>
    simp only [lockAll, pure_eq, runs_done] at h
    exact h.2.2
  | cons i ids ih =>
    simp [lockAll, invoke, call] at h
    obtain ⟨m, h, -⟩ := h
    exact ih h

lemma runs_unlockAll {ids : List ShardId} {inputs : ℕ → Input} {w w' : Image} {n : ℕ} {b : Unit}
    (h : Runs ActSpec (unlockAll ids) inputs w n b w') : w' = w := by
  induction ids generalizing inputs n with
  | nil =>
    simp only [unlockAll, pure_eq, runs_done] at h
    exact h.2.2
  | cons i ids ih =>
    simp [unlockAll, invoke, call] at h
    obtain ⟨m, h, -⟩ := h
    exact ih h

lemma runs_lockWriteShards {α : Type} {keys : List Key} {f : List ShardId → Prog α}
    {inputs : ℕ → Input} {w w' : Image} {n : ℕ} {b : α}
    (h : Runs ActSpec (lockWriteShards keys >>= f) inputs w n b w') :
    ∃ inputs' m, Runs ActSpec (f (shardIds keys)) inputs' w m b w' := by
  simp only [lockWriteShards, runs_bind, pure_eq, runs_done] at h
  obtain ⟨_, _, _, m, ⟨_, _, _, _, hl, ⟨-, rfl, rfl⟩, -⟩, h, -⟩ := h
  rw [runs_lockAll hl] at h
  exact ⟨_, m, h⟩

lemma runs_unlockWriteShards {α : Type} {ids : List ShardId} {a : α}
    {inputs : ℕ → Input} {w w' : Image} {n : ℕ} {b : α}
    (h : Runs ActSpec (unlockWriteShards ids >>= fun _ => .done a) inputs w n b w') :
    b = a ∧ w' = w := by
  simp only [runs_bind, runs_done] at h
  obtain ⟨_, _, _, _, hl, ⟨-, rfl, rfl⟩, -⟩ := h
  exact ⟨rfl, runs_unlockAll hl⟩

lemma del_effect (keys : List Key) :
    HasEffect (del keys) fun times ks => ks.delEffect keys (times 0) := by
  intro inputs w n b w' h
  beta_reduce
  simp [del, invoke, call] at h
  obtain ⟨m, h, -⟩ := h
  obtain ⟨inputs', m', h⟩ := runs_lockWriteShards h
  simp at h
  obtain ⟨k, h, -⟩ := h
  by_cases hr : (Keyspace.deleted (inputs 0).time keys w.keyspace).2 = []
  · simp [hr] at h
    obtain ⟨_, h, -⟩ := h
    obtain ⟨hb, hw⟩ := runs_unlockWriteShards h
    exact ⟨hb, by simp [hw, Keyspace.delEffect, Effect.records, hr, Image.apply]⟩
  · simp [hr] at h
    obtain ⟨_, h, -⟩ := h
    obtain ⟨hb, hw⟩ := runs_unlockWriteShards h
    exact ⟨hb, by
      simp [hw, Keyspace.delEffect, Effect.records, hr, Mutation.record, Image.apply,
        Image.propagate]⟩

lemma mset_effect (pairs : List (Key × Bytes)) :
    HasEffect (mset pairs) fun _ ks => ⟨(), ks.putAll pairs, [.putAll pairs]⟩ := by
  intro inputs w n b w' h
  beta_reduce
  simp [mset, invoke, call] at h
  obtain ⟨m, h, -⟩ := h
  obtain ⟨inputs', m', h⟩ := runs_lockWriteShards h
  simp at h
  obtain ⟨k, h, -⟩ := h
  exact ⟨rfl, runs_unlockAll h⟩

lemma setWithTTL_effect (key : Key) (val : Bytes) (d : ℤ) :
    HasEffect (setWithTTL key val d) fun times ks => ks.setWithTTLEffect key val d (times 0) := by
  intro inputs w n b w' h
  beta_reduce
  unfold setWithTTL at h
  unfold Keyspace.setWithTTLEffect
  split_ifs at h ⊢ with hd
  · obtain ⟨_, _, _, _, h, h', -⟩ := runs_bind.1 h
    simp at h'
    obtain ⟨-, rfl⟩ := h'
    exact ⟨rfl, (del_effect [key] h).image⟩
  · simp [invoke, call] at h
    obtain ⟨m, h, -⟩ := h
    exact setTo_effect key val _ h

lemma setWithDeadline_effect (key : Key) (val : Bytes) (deadline : Time) :
    HasEffect (setWithDeadline key val deadline) fun times ks =>
      ks.setWithDeadlineEffect key val deadline (times 0) (times 1) := by
  intro inputs w n b w' h
  beta_reduce
  unfold Keyspace.setWithDeadlineEffect
  simp [setWithDeadline, invoke, call] at h
  obtain ⟨m, h, -⟩ := h
  split_ifs at h ⊢ with hd
  · exact setTo_effect key val _ h
  · obtain ⟨_, _, _, _, h, h', -⟩ := runs_bind.1 h
    simp at h'
    obtain ⟨-, rfl⟩ := h'
    exact ⟨rfl, (del_effect [key] h).image⟩

lemma expireAt_effect (key : Key) (deadline : Time) :
    HasEffect (expireAt key deadline) fun times ks => ks.expireEffect key deadline (times 0) := by
  intro inputs w n b w' h
  beta_reduce
  simp [expireAt, invoke, call] at h
  obtain ⟨m, h, -⟩ := h
  simp only [Keyspace.expireEffect]
  cases hr : (w.keyspace.expireKey key deadline (inputs 0).time).1 with
  | missing =>
    simp [hr] at h
    obtain ⟨⟨rfl, rfl⟩, -⟩ := h
    exact ⟨rfl, (Image.apply_nil _ _).symm⟩
  | collected =>
    simp [hr] at h
    obtain ⟨⟨rfl, rfl⟩, -⟩ := h
    exact ⟨rfl, rfl⟩
  | deleted =>
    simp [hr] at h
    obtain ⟨⟨rfl, rfl⟩, -⟩ := h
    exact ⟨rfl, rfl⟩
  | kept d =>
    simp [hr] at h
    obtain ⟨⟨rfl, rfl⟩, -⟩ := h
    exact ⟨rfl, rfl⟩

lemma expire_effect (key : Key) (d : ℤ) :
    HasEffect (expire key d) fun times ks => ks.expireEffect key (some (times 0 + d))
      (times 1) := by
  intro inputs w n b w' h
  beta_reduce
  simp [expire, invoke, call] at h
  obtain ⟨m, h, -⟩ := h
  exact expireAt_effect key _ h

lemma runs_deleteIfExpired {key : Key} {now : ℤ} {e : Option Entry} {inputs : ℕ → Input}
    {w w' : Image} {n : ℕ} {b : Option Entry} (he : e.map Entry.item = w.keyspace key)
    (h : Runs ActSpec (deleteIfExpired key now e) inputs w n b w') :
    w' = { w with keyspace := w.keyspace.collect key now } ∧
    b.map Entry.item = w'.keyspace key := by
  cases e with
  | none =>
    simp only [deleteIfExpired, pure_eq, runs_done] at h
    obtain ⟨-, rfl, rfl⟩ := h
    refine ⟨?_, he⟩
    simp only [Option.map_none] at he
    simp [Keyspace.collect, ← he]
  | some e =>
    simp only [Option.map_some] at he
    simp only [deleteIfExpired] at h
    split_ifs at h with hx
    · simp [invoke, call] at h
      obtain ⟨⟨rfl, rfl⟩, -⟩ := h
      simp [Keyspace.collect, ← he, hx, Keyspace.remove]
    · simp only [pure_eq, runs_done] at h
      obtain ⟨-, rfl, rfl⟩ := h
      refine ⟨?_, he⟩
      simp [Keyspace.collect, ← he, hx]

lemma counterValue_eq (e : Option Entry) :
    counterValue e = Keyspace.itemCounter (e.map Entry.item) := by
  cases e <;> rfl

lemma deadlineOf_eq (e : Option Entry) :
    deadlineOf e = Keyspace.itemDeadline (e.map Entry.item) := by
  cases e <;> rfl

lemma increment_effect (key : Key) (delta : Int64) :
    HasEffect (increment key delta) fun times ks => ks.incrementEffect key delta (times 0) := by
  intro inputs w n b w' h
  beta_reduce
  simp [increment, invoke, call] at h
  obtain ⟨r, m, ⟨hr, h⟩, -⟩ := h
  obtain ⟨e, w₁, _, _, hd, h, -⟩ := runs_bind.1 h
  obtain ⟨rfl, he⟩ := runs_deleteIfExpired hr hd
  simp only [counterValue_eq, deadlineOf_eq, he] at h
  simp only [Keyspace.incrementEffect]
  cases hc : Keyspace.itemCounter (w.keyspace.collect key (inputs 0).time key) with
  | none =>
    simp [hc] at h
    obtain ⟨⟨rfl, rfl⟩, -⟩ := h
    exact ⟨rfl, (Image.apply_nil _ _).symm⟩
  | some c =>
    simp only [hc] at h
    simp only
    split_ifs at h ⊢ with ho
    · simp at h
      obtain ⟨⟨rfl, rfl⟩, -⟩ := h
      exact ⟨rfl, (Image.apply_nil _ _).symm⟩
    · simp [setLocked, invoke, call] at h
      obtain ⟨⟨rfl, rfl⟩, -⟩ := h
      exact ⟨rfl, rfl⟩

lemma append_effect (key : Key) (suffix : Bytes) :
    HasEffect (append key suffix) fun times ks => ks.appendEffect key suffix (times 0) := by
  intro inputs w n b w' h
  beta_reduce
  simp [append, invoke, call] at h
  obtain ⟨r, m, ⟨hr, h⟩, -⟩ := h
  obtain ⟨e, w₁, _, _, hd, h, -⟩ := runs_bind.1 h
  obtain ⟨rfl, he⟩ := runs_deleteIfExpired hr hd
  change e.map Entry.item = w.keyspace.collect key (inputs 0).time key at he
  have hv : e.map Entry.val = (w.keyspace.collect key (inputs 0).time key).map Item.val := by
    rw [← he, Option.map_map]
    rfl
  simp [setLocked, invoke, call, deadlineOf_eq, he, hv] at h
  obtain ⟨⟨rfl, rfl⟩, -⟩ := h
  refine ⟨?_, rfl⟩
  simp [Keyspace.appendEffect]

lemma ttl_effect (key : Key) :
    HasEffect (ttl key) fun times ks => ⟨ks.ttlAnswer key (times 0), ks, []⟩ := by
  intro inputs w n b w' h
  beta_reduce
  simp [ttl, invoke, call] at h
  obtain ⟨r, m, ⟨hr, h⟩, -⟩ := h
  simp only [Keyspace.ttlAnswer, ← hr]
  cases r with
  | none =>
    simp only [runs_done] at h
    exact ⟨h.2.1, h.2.2.trans (Image.apply_self _).symm⟩
  | some e =>
    simp only [Option.map_some, Entry.item]
    cases hx : e.expiresAt with
    | none =>
      simp only [hx, runs_done] at h
      exact ⟨h.2.1, h.2.2.trans (Image.apply_self _).symm⟩
    | some d =>
      simp only [hx, runs_done] at h
      exact ⟨h.2.1, h.2.2.trans (Image.apply_self _).symm⟩

lemma runs_countExisting {now : ℤ} {keys : List Key} {c : ℕ} {inputs : ℕ → Input}
    {w w' : Image} {n b : ℕ} (h : Runs ActSpec (countExisting now keys c) inputs w n b w') :
    b = c + w.keyspace.existing now keys ∧ w' = w := by
  induction keys generalizing inputs c n with
  | nil =>
    simp only [countExisting, pure_eq, runs_done] at h
    exact ⟨h.2.1, h.2.2⟩
  | cons key keys ih =>
    simp only [countExisting, invoke, call, act_bind, done_bind, runs_act, actSpec_lookup] at h
    obtain ⟨r, _, m, ⟨hr, rfl⟩, h, -⟩ := h
    cases r with
    | none =>
      obtain ⟨rfl, rfl⟩ := ih h
      simp [Keyspace.existing, ← hr]
    | some e =>
      obtain ⟨rfl, rfl⟩ := ih h
      simp only [Keyspace.existing, List.countP_cons, ← hr, Option.map_some, Option.any_some,
        Entry.item_expired]
      cases e.expired
        now <;> simp only [Bool.not_true, Bool.not_false] <;> simp [Nat.add_assoc, Nat.add_comm]

lemma exists_effect (keys : List Key) :
    HasEffect (exists_ keys) fun times ks => ⟨ks.existing (times 0) keys, ks, []⟩ := by
  intro inputs w n b w' h
  beta_reduce
  simp [exists_, invoke, call] at h
  obtain ⟨m, h, -⟩ := h
  obtain ⟨rfl, rfl⟩ := runs_countExisting h
  exact ⟨Nat.zero_add _, (Image.apply_self _).symm⟩

lemma runs_sumLive {now : ℤ} {ids : List ShardId} {c : ℕ} {inputs : ℕ → Input}
    {w w' : Image} {n b : ℕ} (hn : ids.Nodup)
    (h : Runs ActSpec (sumShards (fun i => invoke (.shardLive i now)) ids c) inputs w n b w') :
    (b : ℕ∞) = c + {key | shardIndex key ∈ ids ∧ w.keyspace.Live now key}.encard ∧ w' = w := by
  induction ids generalizing inputs c n with
  | nil =>
    simp only [sumShards, pure_eq, runs_done] at h
    simp [h.2.1, h.2.2]
  | cons i ids ih =>
    simp only [sumShards, invoke, call, act_bind, done_bind, runs_act, actSpec_shardLive] at h
    obtain ⟨m, _, _, ⟨hm, rfl⟩, h, -⟩ := h
    obtain ⟨hi, hn⟩ := List.nodup_cons.1 hn
    obtain ⟨hb, rfl⟩ := ih hn h
    refine ⟨?_, rfl⟩
    have hu : {key | shardIndex key ∈ i :: ids ∧ w'.keyspace.Live now key} =
        {key | shardIndex key = i ∧ w'.keyspace.Live now key} ∪
          {key | shardIndex key ∈ ids ∧ w'.keyspace.Live now key} := by
      ext key
      simp only [List.mem_cons, Set.mem_ofPred_eq, Set.mem_union]
      tauto
    rw [hb, hu, Set.encard_union_eq, ← hm, Nat.cast_add, add_assoc]
    rw [Set.disjoint_left]
    rintro key ⟨rfl, -⟩ ⟨hk, -⟩
    exact hi hk

lemma dbSize_effect :
    HasEffect dbSize fun times ks => ⟨{key | ks.Live (times 0) key}.ncard, ks, []⟩ := by
  intro inputs w n b w' h
  beta_reduce
  simp [dbSize, invoke, call] at h
  obtain ⟨m, h, -⟩ := h
  obtain ⟨hb, rfl⟩ := runs_sumLive (List.nodup_finRange _) h
  refine ⟨?_, (Image.apply_self _).symm⟩
  simp only [List.mem_finRange, true_and, Nat.cast_zero, zero_add] at hb
  rw [Set.ncard, ← hb, ENat.toNat_natCast]

lemma Op.program_effect (o : Op) : HasEffect o.program fun times ks => o.effect times ks := by
  intro inputs w n b w' h
  cases o with
  | get key => exact (get_effect key).map Answer.value h
  | set key val => exact (setTo_effect key val none).map (fun _ => Answer.unit) h
  | setWithTTL key val d => exact (setWithTTL_effect key val d).map (fun _ => Answer.unit) h
  | setWithDeadline key val deadline =>
    exact (setWithDeadline_effect key val deadline).map (fun _ => Answer.unit) h
  | mset pairs => exact (mset_effect pairs).map (fun _ => Answer.unit) h
  | increment key delta => exact (increment_effect key delta).map Answer.number h
  | append key suffix => exact (append_effect key suffix).map Answer.count h
  | expire key d => exact (expire_effect key d).map Answer.flag h
  | expireAt key deadline => exact (expireAt_effect key deadline).map Answer.flag h
  | ttl key => exact (ttl_effect key).map Answer.ttl h
  | del keys => exact (del_effect keys).map Answer.count h
  | exists_ keys => exact (exists_effect keys).map Answer.count h
  | dbSize => exact dbSize_effect.map Answer.count h

end RedisClone.Store
