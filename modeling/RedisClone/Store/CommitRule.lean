import RedisClone.Store.Changes
import RedisClone.Store.LockRule

/-! The rule on commits: whoever has changed the keyspace holds `commitMu` until the record of the
change is in the journal, and reads the shards for a rewrite one after the other. -/

namespace RedisClone.Store

open Lib Lib.Program Lib.Decimal

inductive Copying
  | idle
  | reading (todo : List ShardId) (records : List Record)
  | ready (records : List Record)

/-- Where a thread stands: the locks it keeps from one section to the next, the change it has made
and not journalled yet, and its rewrite. -/
structure Stand where
  gate : Bool
  shards : Finset ShardId
  due : Option Mutation
  copying : Copying

namespace Stand

def idle : Stand := ⟨false, ∅, none, .idle⟩

def next (h : Stand) : (a : Act) → a.Resp → Stand
  | .lockDurableMutation, _ => { h with gate := true }
  | .unlockDurableMutation, _ => { h with gate := false }
  | .lockShard i, _ => { h with shards := insert i h.shards }
  | .unlockShard i, _ => { h with shards := h.shards.erase i }
  | .set key val expiresAt, _ => { h with due := some (.put key val expiresAt) }
  | .delete key, _ => { h with due := some (.remove [key]) }
  | .mset pairs, _ => { h with due := some (.putAll pairs) }
  | .del _ _, r => { h with due := if r.2 = [] then none else some (.remove r.2) }
  | .expireAt key _ _, r => { h with due := (Keyspace.expireMutations key r).head? }
  | .propagate _, _ => { h with due := none }
  | .shardSnapshot _ _, r =>
    match h.copying with
    | .reading (_ :: todo) records => { h with copying := .reading todo (records ++ r) }
    | _ => h
  | _, _ => h

def allows (T : ℤ) (h : Stand) : Act → Prop
  | .lockDurableMutation => h.gate = false
  | .unlockDurableMutation => h.gate = true ∧ h.due = none
  | .unlockShard i => i ∈ h.shards ∧ h.due = none
  | .set _ _ _ | .delete _ => h.gate = true ∧ h.due = none
  | .mset pairs => h.gate = true ∧ h.due = none ∧ ∀ p ∈ pairs, shardIndex p.1 ∈ h.shards
  | .del keys _ => h.gate = true ∧ h.due = none ∧ ∀ key ∈ keys, shardIndex key ∈ h.shards
  | .expireAt key _ _ => h.gate = true ∧ h.due = none ∧ shardIndex key ∈ h.shards
  | .propagate record => h.gate = true ∧ ∃ m, h.due = some m ∧ record = m.record
  | .shardSnapshot i time => time ≤ T ∧ ∃ todo records, h.copying = .reading (i :: todo) records
  | .expireShard _ time _ _ => time ≤ T
  | _ => True

end Stand

abbrev Commits (T : ℤ) {α : Type} (D : Stand → α → Prop) (h : Stand) (p : Prog α) : Prop :=
  Follows (S := sig) (Early T) (Stand.allows T) Stand.next D h p

abbrev Brings (T : ℤ) (h h' : Stand) {α : Type} (p : Prog α) : Prop :=
  Commits T (fun g _ => g = h') h p

section Methods

variable {T : ℤ} {α β : Type} {D : Stand → α → Prop} {h h' h'' : Stand}

lemma commits_act {a : Act} {f : a.Resp → Prog α} (ha : h.allows T a)
    (hf : ∀ r, Early T a r → Commits T D (h.next a r) (f r)) :
    Commits T D h (invoke a >>= f) := Follows.act ha hf

lemma brings_act {a : Act} {f : a.Resp → Prog α} (ha : h.allows T a)
    (hf : ∀ r, Commits T D (h.next a r) (f r)) :
    Commits T D h (invoke a >>= f) := Follows.act ha fun r _ => hf r

lemma Brings.bind {p : Prog β} {f : β → Prog α} (hp : Brings T h h' p)
    (hf : ∀ b, Commits T D h' (f b)) : Commits T D h (p >>= f) :=
  Follows.bind hp fun g b hg => by
    rw [hg]
    exact hf b

lemma Brings.map {p : Prog β} (hp : Brings T h h' p) (f : β → α) : Brings T h h' (f <$> p) :=
  Follows.map f hp

lemma brings_pure (b : α) : Brings T h h (pure b : Prog α) := .done rfl

def Free (T : ℤ) (a : Act) : Prop := ∀ h : Stand, h.allows T a ∧ ∀ r, h.next a r = h

lemma brings_free {p : Prog α} (hp : Within (Free T) (Early T) p) : Brings T h h p :=
  Follows.of_within (fun _ ha => (ha h).1) (fun _ r ha => (ha h).2 r) hp

lemma free_of_quiet {a : Act} (ha : Quiet a) : Free T a := by
  cases a with
  | now | config | stats | getRead | getCollect | lookup | shardUsed | shardLive => exact fun _ =>
      ⟨trivial, fun _ => rfl⟩
  | _ => exact absurd ha id

lemma brings_quiet {p : Prog α} (hp : Only Quiet p) : Brings T h h p :=
  brings_free (hp.mono (fun _ ha => free_of_quiet ha) (fun _ _ _ => trivial) fun _ _ => trivial)

lemma brings_sampleShards (ids : List ShardId) (sample : Sample) :
    Brings T h h (sampleShards ids sample) :=
  brings_free (within_sampleShards (fun _ _ _ => ⟨trivial, fun _ => rfl⟩) ids sample)

variable {c : Copying}

lemma brings_lockAll (ids : List ShardId) : ∀ shards : Finset ShardId,
    Brings T ⟨true, shards, none, c⟩ ⟨true, ids.toFinset ∪ shards, none, c⟩ (lockAll ids) := by
  induction ids with
  | nil =>
    intro shards
    rw [List.toFinset_nil, Finset.empty_union]
    exact brings_pure ()
  | cons i ids ih =>
    intro shards
    rw [List.toFinset_cons, Finset.insert_union, ← Finset.union_insert]
    exact brings_act (a := .lockShard i) trivial fun _ => ih (insert i shards)

lemma brings_unlockAll {ids : List ShardId} (hids : ids.Nodup) :
    ∀ {shards : Finset ShardId}, (∀ i ∈ ids, i ∈ shards) →
    Brings T ⟨false, shards, none, c⟩ ⟨false, shards \ ids.toFinset, none, c⟩ (unlockAll ids) := by
  induction ids with
  | nil =>
    intro shards _
    rw [List.toFinset_nil, Finset.sdiff_empty]
    exact brings_pure ()
  | cons i ids ih =>
    intro shards hs
    obtain ⟨hi, hids⟩ := List.nodup_cons.1 hids
    rw [List.toFinset_cons, Finset.sdiff_insert, ← Finset.erase_sdiff_comm]
    refine brings_act (a := .unlockShard i) ⟨hs i List.mem_cons_self, rfl⟩ fun _ =>
      ih hids fun j hj => ?_
    exact Finset.mem_erase.2 ⟨fun he => hi (he ▸ hj), hs j (List.mem_cons_of_mem i hj)⟩

lemma mem_shardIds {keys : List Key} {key : Key} (hk : key ∈ keys) :
    shardIndex key ∈ (shardIds keys).toFinset := by
  rw [List.mem_toFinset, shardIds, List.mem_insertionSort, List.mem_eraseDups]
  exact List.mem_map_of_mem hk

lemma brings_lockWriteShards (keys : List Key) {f : List ShardId → Prog α}
    (hf : Commits T D ⟨true, (shardIds keys).toFinset, none, c⟩ (f (shardIds keys))) :
    Commits T D ⟨true, ∅, none, c⟩ (lockWriteShards keys >>= f) := by
  have hlock := brings_lockAll (T := T) (c := c) (shardIds keys) ∅
  rw [Finset.union_empty] at hlock
  rw [lockWriteShards, Program.bind_assoc]
  exact hlock.bind fun _ => hf

lemma brings_unlockWriteShards (keys : List Key) :
    Brings T ⟨false, (shardIds keys).toFinset, none, c⟩ ⟨false, ∅, none, c⟩
      (unlockWriteShards (shardIds keys)) := by
  have hheld : ∀ i ∈ (shardIds keys).reverse, i ∈ (shardIds keys).toFinset := by simp
  have hunlock :=
    brings_unlockAll (T := T) (c := c) (List.nodup_reverse.2 (shardIds_sorted keys).nodup) hheld
  rwa [List.toFinset_reverse, Finset.sdiff_self] at hunlock

lemma brings_setLocked (key : Key) (val : Bytes) (expiresAt : Time) :
    Brings T ⟨true, ∅, none, c⟩ ⟨true, ∅, none, c⟩ (setLocked key val expiresAt) :=
  brings_act (a := .set key val expiresAt) ⟨rfl, rfl⟩ fun _ =>
    Follows.act (S := sig) (a := .propagate (setRecord key val expiresAt)) ⟨rfl, _, rfl, rfl⟩
      fun _ _ => .done rfl

lemma brings_unlock (a : α) :
    Brings T ⟨true, ∅, none, .idle⟩ .idle
      (invoke .unlockDurableMutation >>= fun _ => (pure a : Prog α)) :=
  brings_act (a := .unlockDurableMutation) ⟨rfl, rfl⟩ fun _ => .done rfl

lemma brings_setTo (key : Key) (val : Bytes) (expiresAt : Time) :
    Brings T .idle .idle (setTo key val expiresAt) :=
  brings_act (a := .lockDurableMutation) rfl fun _ =>
      (brings_setLocked key val expiresAt).bind fun _ =>
    Follows.act (S := sig) (a := .unlockDurableMutation) ⟨rfl, rfl⟩ fun _ _ => .done rfl

lemma brings_del (keys : List Key) : Brings T .idle .idle (del keys) := by
  have hrest (n : ℕ) : Brings T ⟨true, (shardIds keys).toFinset, none, .idle⟩ .idle
      (invoke .unlockDurableMutation >>= fun _ => unlockWriteShards (shardIds keys) >>= fun _ =>
          (pure n : Prog ℕ)) :=
    brings_act (a := .unlockDurableMutation) ⟨rfl, rfl⟩ fun _ =>
      (brings_unlockWriteShards keys).bind fun _ => .done rfl
  refine brings_act (a := .now) trivial fun now => brings_act (a := .lockDurableMutation) rfl
    fun _ => brings_lockWriteShards keys ?_
  refine brings_act (a := .del keys now) ⟨rfl, rfl, fun key hk => mem_shardIds hk⟩ fun r => ?_
  by_cases hr : r.2 = []
  · simpa [Stand.next, Stand.idle, hr] using hrest r.1
  · simpa [Stand.next, Stand.idle, hr] using brings_act (T := T) (a := .propagate (cmdDEL :: r.2))
      (h := ⟨true, (shardIds keys).toFinset, some (.remove r.2), .idle⟩) ⟨rfl, _, rfl, rfl⟩
        fun _ => hrest r.1

lemma brings_mset (pairs : List (Key × Bytes)) : Brings T .idle .idle (mset pairs) := by
  refine brings_act (a := .lockDurableMutation) rfl fun _ => brings_lockWriteShards _ ?_
  refine brings_act (a := .mset pairs) ⟨rfl, rfl, fun p hp => mem_shardIds (List.mem_map_of_mem hp)⟩
    fun _ => ?_
  refine brings_act (a := .propagate (msetRecord pairs)) ⟨rfl, _, rfl, rfl⟩ fun _ => ?_
  exact brings_act (a := .unlockDurableMutation) ⟨rfl, rfl⟩ fun _ => brings_unlockWriteShards _

lemma deleteIfExpired_early {key : Key} {now : ℤ} {e : Option Entry} (hnow : now ≤ T)
    (he : ∀ x ∈ e, x.expired T = false) : deleteIfExpired key now e = pure e := by
  cases e with
  | none => rfl
  | some e =>
    have hlive : e.expired now = false := by
      rw [← Bool.not_eq_true]
      intro hx
      have hdead : e.item.expired T = true := Keyspace.expired_mono hnow hx
      exact Bool.noConfusion ((he e rfl).symm.trans hdead)
    simp only [deleteIfExpired, hlive, Bool.false_eq_true, if_false]

lemma brings_increment (key : Key) (delta : Int64) :
    Brings T .idle .idle (increment key delta) := by
  refine commits_act (a := .now) trivial fun now hnow => brings_act (a := .lockDurableMutation)
    rfl fun _ => ?_
  refine commits_act (a := .lookup key) trivial fun r hr => ?_
  rw [deleteIfExpired_early hnow hr, pure_bind]
  cases counterValue r with
  | none => exact brings_unlock none
  | some n =>
    simp only
    split_ifs
    · exact brings_unlock none
    · exact (brings_setLocked _ _ _).bind fun _ => brings_unlock _

lemma brings_append (key : Key) (suffix : Bytes) : Brings T .idle .idle (append key suffix) := by
  refine commits_act (a := .now) trivial fun now hnow => brings_act (a := .lockDurableMutation)
    rfl fun _ => ?_
  refine commits_act (a := .lookup key) trivial fun r hr => ?_
  rw [deleteIfExpired_early hnow hr, pure_bind]
  exact (brings_setLocked _ _ _).bind fun _ => brings_unlock _

lemma brings_expireAt (key : Key) (deadline : Time) :
    Brings T .idle .idle (expireAt key deadline) := by
  have hrest (b : Bool) : Brings T ⟨true, {shardIndex key}, none, .idle⟩ .idle
      (invoke (.unlockShard (shardIndex key)) >>= fun _ => invoke .unlockDurableMutation >>=
          fun _ => (pure b : Prog Bool)) := by
    refine brings_act (a := .unlockShard _) ⟨Finset.mem_singleton_self _, rfl⟩ fun _ => ?_
    simpa [Stand.next] using brings_unlock b
  refine brings_act (a := .now) trivial fun now =>
    brings_act (a := .lockDurableMutation) rfl fun _ => ?_
  refine brings_act (a := .lockShard _) trivial fun _ => ?_
  refine brings_act (a := .expireAt key deadline now) ⟨rfl, rfl, Finset.mem_insert_self _ _⟩
    fun answer => ?_
  cases answer with
  | missing => exact hrest false
  | collected =>
    exact brings_act (a := .propagate [cmdDEL, key]) ⟨rfl, _, rfl, rfl⟩ fun _ => hrest false
  | deleted =>
    exact brings_act (a := .propagate [cmdDEL, key]) ⟨rfl, _, rfl, rfl⟩ fun _ => hrest true
  | kept d =>
    exact brings_act (a := .propagate [cmdPEXPIREAT, key, unixMillis d]) ⟨rfl, _, rfl, rfl⟩
      fun _ => hrest true

lemma brings_op (o : Op) : Brings T .idle .idle o.program := by
  cases o with
  | get key => exact (brings_quiet (quiet_get key)).map _
  | set key val => exact (brings_setTo key val none).map _
  | setWithTTL key val d =>
    refine Brings.map ?_ _
    simp only [Store.setWithTTL]
    split_ifs
    · exact (brings_del [key]).bind fun _ => .done rfl
    · exact brings_act (a := .now) trivial fun now => brings_setTo key val _
  | setWithDeadline key val deadline =>
    refine Brings.map (brings_act (a := .now) trivial fun now => ?_) _
    split_ifs
    · exact brings_setTo key val deadline
    · exact (brings_del [key]).bind fun _ => .done rfl
  | mset pairs => exact (brings_mset pairs).map _
  | increment key delta => exact (brings_increment key delta).map _
  | append key suffix => exact (brings_append key suffix).map _
  | expire key d =>
    exact Brings.map (brings_act (a := .now) trivial fun now => brings_expireAt key _) _
  | expireAt key deadline => exact (brings_expireAt key deadline).map _
  | ttl key => exact (brings_quiet (quiet_ttl key)).map _
  | del keys => exact (brings_del keys).map _
  | exists_ keys => exact (brings_quiet (quiet_exists keys)).map _
  | dbSize => exact (brings_quiet quiet_dbSize).map _

abbrev Evicting (T : ℤ) (h : Stand) (p : Prog Enforced) : Prop :=
  Commits T (fun g e => (∀ evicted, e ≠ .running evicted) → g = .idle) h p

lemma brings_used : Brings T h h used := brings_quiet quiet_used

lemma evicting_unlock (evicted : ℕ) (fits : Bool) : Evicting T ⟨true, ∅, none, .idle⟩
    (invoke .unlockDurableMutation >>= fun _ => (pure (.finished evicted fits) : Prog Enforced)) :=
  brings_act (a := .unlockDurableMutation) ⟨rfl, rfl⟩ fun _ => .done fun _ => rfl

lemma evicting_evictLoop (maxMemory : ℤ) (fuel : ℕ) : ∀ evicted,
    Evicting T ⟨true, ∅, none, .idle⟩ (evictLoop maxMemory fuel evicted) := by
  induction fuel with
  | zero => exact fun evicted => .done fun h => absurd rfl (h evicted)
  | succ fuel ih =>
    intro evicted
    refine brings_used.bind fun u => ?_
    split_ifs
    · refine (brings_sampleShards allShards ⟨none, 0⟩).bind fun r => ?_
      cases r with
      | none => exact evicting_unlock evicted false
      | some key =>
        refine brings_act (a := .delete key) ⟨rfl, rfl⟩ fun _ =>
          brings_act (a := .evicted) trivial fun _ => ?_
        exact brings_act (a := .propagate [cmdDEL, key]) ⟨rfl, _, rfl, rfl⟩ fun _ => ih _
    · exact evicting_unlock evicted true

lemma evicting_enforceMemoryLimit (fuel : ℕ) : Evicting T .idle (enforceMemoryLimit fuel) := by
  refine brings_act (a := .config) trivial fun r => ?_
  simp only
  split
  · exact .done fun _ => rfl
  · refine brings_act (a := .lockDurableMutation) rfl fun _ => brings_used.bind fun u => ?_
    split_ifs
    · exact evicting_unlock 0 true
    · exact evicting_unlock 0 false
    · exact evicting_evictLoop _ fuel 0

lemma brings_activeExpireCycle : Brings T .idle .idle activeExpireCycle := by
  have hsample (n : ℕ) : Brings T .idle .idle (expireSample n) := by
    refine commits_act (a := .now) trivial fun now hnow => brings_act (a := .tick) trivial fun _ =>
      ?_
    exact brings_free (within_expireShards (fun _ _ _ h => ⟨hnow, fun _ => rfl⟩) n _ 0 0)
  have hrounds (rounds : ℕ) :
      ∀ scanned expired, Brings T .idle .idle (expireRounds rounds scanned expired) := by
    induction rounds with
    | zero => exact fun _ _ => .done rfl
    | succ rounds ih =>
      refine fun scanned expired => (hsample _).bind fun r => ?_
      simp only
      split_ifs
      · exact .done rfl
      · exact ih _ _
  exact hrounds _ 0 0

lemma commits_snapshotShards {now : ℤ} (hnow : now ≤ T) (ids : List ShardId) : ∀ out : List Record,
    Commits T (fun g records => g = ⟨false, ∅, none, .reading [] records⟩)
      ⟨false, ∅, none, .reading ids out⟩ (snapshotShards now ids out) := by
  induction ids with
  | nil => exact fun out => .done rfl
  | cons i ids ih =>
    exact fun out => brings_act (a := .shardSnapshot i now) ⟨hnow, ids, out, rfl⟩ fun records =>
      ih _

lemma commits_aofSnapshot : Commits T (fun g records => g = ⟨false, ∅, none, .reading [] records⟩)
    ⟨false, ∅, none, .reading allShards []⟩ aofSnapshot := by
  refine commits_act (a := .now) trivial fun now hnow => ?_
  have hlen :
      Brings T ⟨false, ∅, none, .reading allShards []⟩
          ⟨false, ∅, none, .reading allShards []⟩ len :=
    brings_free (within_sumShards
        (fun i => within_last (a := .shardLen i) fun _ => ⟨trivial, fun _ => rfl⟩) _ _)
  exact hlen.bind fun _ => commits_snapshotShards hnow allShards []

end Methods

end RedisClone.Store
