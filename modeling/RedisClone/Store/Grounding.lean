import RedisClone.Lib.UpdateLog
import RedisClone.Store.CommitRule
import RedisClone.Store.CommitOrder
import RedisClone.Store.Durability

namespace RedisClone.Store

open Lib Lib.Program

def Mutation.mentions : Mutation → List Key
  | .put key _ _ | .touch key _ => [key]
  | .putAll pairs => pairs.map Prod.fst
  | .remove keys => keys

def Mutation.overwrites : Mutation → List Key
  | .touch _ _ => []
  | m => m.mentions

section Replay

variable {T : ℤ} {k : Key}

lemma Keyspace.putAll_of_not_mem {pairs : List (Key × Bytes)} (hk : k ∉ pairs.map Prod.fst) :
    ∀ ks : Keyspace, ks.putAll pairs k = ks k := by
  induction pairs with
  | nil => exact fun _ => rfl
  | cons p pairs ih =>
    intro ks
    rw [List.map_cons, List.mem_cons, not_or] at hk
    exact (ih hk.2 _).trans (Function.update_of_ne hk.1 _ _)

lemma Keyspace.putAll_congr {pairs : List (Key × Bytes)} :
    ∀ {ks ks' : Keyspace}, (k ∈ pairs.map Prod.fst ∨ ks k = ks' k) →
    ks.putAll pairs k = ks'.putAll pairs k := by
  induction pairs with
  | nil => exact fun h => h.resolve_left List.not_mem_nil
  | cons p pairs ih =>
    intro ks ks' h
    refine ih ?_
    by_cases hp : k = p.1
    · subst hp
      exact .inr (by simp only [put, Function.update_self])
    · rw [List.map_cons, List.mem_cons, or_iff_right hp] at h
      exact h.imp_right fun he => ((Function.update_of_ne hp _ _).trans he).trans
        (Function.update_of_ne hp _ _).symm

lemma Keyspace.expireKey_of_ne {key : Key} (hk : k ≠ key) (ks : Keyspace)
    (deadline : Time) (now : ℤ) : (ks.expireKey key deadline now).2 k = ks k := by
  unfold expireKey
  cases ks key with
  | none => rfl
  | some it =>
    cases deadline with
    | none => simp only; split_ifs <;> exact Function.update_of_ne hk _ _
    | some d => simp only; split_ifs <;> exact Function.update_of_ne hk _ _

lemma Mutation.replayed_of_not_mem {m : Mutation} (hk : k ∉ m.mentions) (ks : Keyspace) :
    m.replayed T ks k = ks k := by
  cases m with
  | put key val expiresAt =>
    have hne : k ≠ key := fun he => hk (List.mem_singleton.2 he)
    cases expiresAt with
    | none => exact Function.update_of_ne hne _ _
    | some d =>
      simp only [Mutation.replayed]
      split_ifs <;> exact Function.update_of_ne hne _ _
  | putAll pairs => exact Keyspace.putAll_of_not_mem hk ks
  | remove keys => exact (Keyspace.removeAll_apply keys k ks).trans (if_neg hk)
  | touch key d => exact Keyspace.expireKey_of_ne (fun he => hk (List.mem_singleton.2 he)) ks _ T

lemma Mutation.replayed_congr {m : Mutation} {ks ks' : Keyspace}
    (h : k ∈ m.overwrites ∨ ks k = ks' k) : m.replayed T ks k = m.replayed T ks' k := by
  cases m with
  | put key val expiresAt =>
    have hput (x : Option Item) : Function.update ks key x k = Function.update ks' key x k := by
      by_cases he : k = key
      · rw [he, Function.update_self, Function.update_self]
      · rw [Function.update_of_ne he, Function.update_of_ne he]
        exact h.resolve_left fun hk => he (List.mem_singleton.1 hk)
    cases expiresAt with
    | none => exact hput _
    | some d =>
      simp only [Mutation.replayed]
      split_ifs <;> exact hput _
  | putAll pairs => exact Keyspace.putAll_congr h
  | remove keys =>
    simp only [Mutation.replayed, Keyspace.removeAll_apply]
    split_ifs with hk
    · rfl
    · exact h.resolve_left hk
  | touch key d =>
    have he := h.resolve_left List.not_mem_nil
    by_cases hk : k = key
    · subst hk
      simp only [Mutation.replayed, Keyspace.expireKey, he]
      cases ks' k with
      | none => exact he
      | some it =>
        simp only
        split_ifs <;> simp only [Keyspace.remove, Keyspace.put, Function.update_self]
    · simp only [Mutation.replayed, Keyspace.expireKey_of_ne hk, he]

end Replay

def replays (T : ℤ) : UpdateLog Key (Option Item) Mutation where
  act m k x := m.replayed T (fun _ => x) k
  mentions := Mutation.mentions
  overwrites := Mutation.overwrites
  act_of_not_mem hk _ := Mutation.replayed_of_not_mem hk _
  act_const hk _ _ := Mutation.replayed_congr (.inl hk)

lemma replays_replay (T : ℤ) (ms : List Mutation) (ks : Keyspace) :
    (replays T).replay ms ks = replayedAll T ms ks := by
  unfold UpdateLog.replay replayedAll
  congr 1
  funext ks m k
  exact Mutation.replayed_congr (.inr rfl)

/-- What a thread that holds `commitMu` has stored and not journalled yet, and the key it has given
a deadline. -/
structure Debt where
  gate : Bool
  stored : List Key
  stamped : Option Key

namespace Debt

def idle : Debt := ⟨false, [], none⟩

def holding : Debt := ⟨true, [], none⟩

def next (h : Debt) : (a : Act) → a.Resp → Debt
  | .lockDurableMutation, _ => { h with gate := true }
  | .unlockDurableMutation, _ => { h with gate := false }
  | .set key _ _, _ => { h with stored := [key] }
  | .mset pairs, _ => { h with stored := pairs.map Prod.fst }
  | .expireAt key _ _, .kept _ => { h with stamped := some key }
  | .propagate _, _ => { h with stored := [], stamped := none }
  | _, _ => h

def Settles (h : Debt) (m : Mutation) : Prop :=
  (∀ key ∈ h.stored, key ∈ m.overwrites) ∧ ∀ key ∈ m.mentions, key ∈ m.overwrites ∨
    h.stamped = some key

def allows (h : Debt) : Act → Prop
  | .lockDurableMutation => h.gate = false
  | .unlockDurableMutation | .set _ _ _ | .mset _ | .expireAt _ _ _ => h = holding
  | .propagate record => h.gate = true ∧ ∃ m : Mutation, record = m.record ∧ h.Settles m
  | _ => True

end Debt

abbrev Repays {α : Type} (D : Debt → α → Prop) (h : Debt) (p : Prog α) : Prop :=
  Follows (S := sig) (fun _ _ => True) Debt.allows Debt.next D h p

abbrev Clears (h h' : Debt) {α : Type} (p : Prog α) : Prop := Repays (fun g _ => g = h') h p

section Methods

variable {α β : Type} {D : Debt → α → Prop} {h h' : Debt}

lemma repays_act {a : Act} {f : a.Resp → Prog α} (ha : h.allows a)
    (hf : ∀ r, Repays D (h.next a r) (f r)) :
    Repays D h (invoke a >>= f) := Follows.act ha fun r _ => hf r

lemma Clears.bind {p : Prog β} {f : β → Prog α} (hp : Clears h h' p) (hf : ∀ b, Repays D h' (f b)) :
    Repays D h (p >>= f) :=
  Follows.bind hp fun g b hg => by
    rw [hg]
    exact hf b

lemma Clears.map {p : Prog β} (hp : Clears h h' p) (f : β → α) : Clears h h' (f <$> p) :=
  Follows.map f hp

def Act.aside : Act → Prop
  | .lockDurableMutation | .unlockDurableMutation | .set _ _ _ | .mset _ | .expireAt _ _ _
  | .propagate _ => False
  | _ => True

lemma Debt.allows_aside {a : Act} (ha : a.aside) : h.allows a := by
  cases a with
  | lockDurableMutation | unlockDurableMutation | set | mset | expireAt | propagate =>
    exact absurd ha id
  | _ => exact trivial

lemma Debt.next_aside {a : Act} (ha : a.aside) (r : a.Resp) : h.next a r = h := by
  cases a with
  | lockDurableMutation | unlockDurableMutation | set | mset | expireAt | propagate =>
    exact absurd ha id
  | _ => rfl

lemma clears_aside {p : Prog α} (hp : Only Act.aside p) : Clears h h p :=
  Follows.of_within (fun _ ha => Debt.allows_aside ha) (fun _ r ha => Debt.next_aside ha r) hp

lemma clears_quiet {p : Prog α} (hp : Only Quiet p) : Clears h h p := by
  refine clears_aside (hp.mono (fun a ha => ?_) (fun _ _ _ => trivial) fun _ _ => trivial)
  cases a with
  | now | config | stats | getRead | getCollect | lookup | shardUsed | shardLive => exact trivial
  | _ => exact absurd ha id

lemma clears_locks (keys : List Key) : Clears h h (lockWriteShards keys) := by
  have hall (ids : List ShardId) : Only Act.aside (lockAll ids) := by
    induction ids with
    | nil => exact .done _
    | cons i ids ih => exact Only.act (S := sig) (a := .lockShard i) trivial fun _ => ih
  exact clears_aside ((hall _).bind fun _ => .done _)

lemma clears_unlocks (ids : List ShardId) : Clears h h (unlockWriteShards ids) := by
  have hall (ids : List ShardId) : Only Act.aside (unlockAll ids) := by
    induction ids with
    | nil => exact .done _
    | cons i ids ih => exact Only.act (S := sig) (a := .unlockShard i) trivial fun _ => ih
  exact clears_aside (hall _)

lemma Debt.settles_nil {m : Mutation} (hm : m.overwrites = m.mentions) : holding.Settles m :=
  ⟨fun _ hk => absurd hk List.not_mem_nil, fun _ hk => .inl (hm ▸ hk)⟩

lemma Debt.settles_stored {m : Mutation} (hm : m.overwrites = m.mentions) :
    Debt.Settles ⟨true, m.mentions, none⟩ m :=
  ⟨fun _ hk => hm ▸ hk, fun _ hk => .inl (hm ▸ hk)⟩

lemma repays_unlock {f : Unit → Prog α} (hf : Repays D .idle (f ())) :
    Repays D .holding (invoke .unlockDurableMutation >>= f) :=
  repays_act (a := .unlockDurableMutation) rfl fun _ => hf

lemma repays_remove {keys : List Key} {f : Unit → Prog α} (hf : Repays D .holding (f ())) :
    Repays D .holding (invoke (.propagate (cmdDEL :: keys)) >>= f) :=
  repays_act (a := .propagate (cmdDEL :: keys)) ⟨rfl, .remove keys, rfl, Debt.settles_nil rfl⟩
    fun _ => hf

lemma clears_setLocked (key : Key) (val : Bytes) (expiresAt : Time) :
    Clears .holding .holding (setLocked key val expiresAt) :=
  repays_act (a := .set key val expiresAt) rfl fun _ =>
    Follows.act (S := sig) (a := .propagate (setRecord key val expiresAt))
      ⟨rfl, .put key val expiresAt, rfl, Debt.settles_stored (m := .put key val expiresAt) rfl⟩
        fun _ _ => .done rfl

lemma clears_setTo (key : Key) (val : Bytes) (expiresAt : Time) :
    Clears .idle .idle (setTo key val expiresAt) :=
  repays_act (a := .lockDurableMutation) rfl fun _ =>
      (clears_setLocked key val expiresAt).bind fun _ =>
    Follows.act (S := sig) (a := .unlockDurableMutation) rfl fun _ _ => .done rfl

lemma clears_del (keys : List Key) : Clears .idle .idle (del keys) := by
  refine repays_act (a := .now) trivial fun now =>
    repays_act (a := .lockDurableMutation) rfl fun _ => ?_
  refine (clears_locks keys).bind fun ids => repays_act (a := .del keys now) trivial fun r => ?_
  have hrest : Clears .holding .idle (invoke .unlockDurableMutation >>= fun _ =>
      unlockWriteShards ids >>= fun _ => (pure r.1 : Prog ℕ)) :=
    repays_unlock ((clears_unlocks ids).bind fun _ => .done rfl)
  change Clears .holding .idle _
  by_cases hr : r.2 = []
  · simpa [hr] using hrest
  · simpa [hr] using repays_remove (f := fun _ => invoke .unlockDurableMutation >>= fun _ =>
      unlockWriteShards ids >>= fun _ => (pure r.1 : Prog ℕ)) hrest

lemma clears_mset (pairs : List (Key × Bytes)) : Clears .idle .idle (mset pairs) := by
  refine repays_act (a := .lockDurableMutation) rfl fun _ => (clears_locks _).bind fun ids => ?_
  refine repays_act (a := .mset pairs) rfl fun _ => ?_
  refine repays_act (a := .propagate (msetRecord pairs))
    ⟨rfl, .putAll pairs, rfl, Debt.settles_stored (m := .putAll pairs) rfl⟩ fun _ => ?_
  exact repays_unlock (clears_unlocks ids)

lemma clears_deleteIfExpired (key : Key) (now : ℤ) (e : Option Entry) :
    Clears h h (deleteIfExpired key now e) :=
  clears_aside ((obeys_deleteIfExpired trivial now trivial).mono (fun _ ha => ha) (fun _ _ hr => hr)
    fun _ _ => trivial)

lemma clears_increment (key : Key) (delta : Int64) : Clears .idle .idle (increment key delta) := by
  refine repays_act (a := .now) trivial fun now =>
    repays_act (a := .lockDurableMutation) rfl fun _ => ?_
  refine repays_act (a := .lookup key) trivial fun r =>
    (clears_deleteIfExpired key now r).bind fun e => ?_
  cases counterValue e with
  | none => exact repays_unlock (.done rfl)
  | some n =>
    simp only
    split_ifs
    · exact repays_unlock (.done rfl)
    · exact (clears_setLocked _ _ _).bind fun _ => repays_unlock (.done rfl)

lemma clears_append (key : Key) (suffix : Bytes) : Clears .idle .idle (append key suffix) := by
  refine repays_act (a := .now) trivial fun now =>
    repays_act (a := .lockDurableMutation) rfl fun _ => ?_
  refine repays_act (a := .lookup key) trivial fun r =>
    (clears_deleteIfExpired key now r).bind fun e => ?_
  exact (clears_setLocked _ _ _).bind fun _ => repays_unlock (.done rfl)

lemma clears_expireAt (key : Key) (deadline : Time) :
    Clears .idle .idle (expireAt key deadline) := by
  have hrest (b : Bool) : Clears .holding .idle (invoke (.unlockShard (shardIndex key)) >>= fun _ =>
      invoke .unlockDurableMutation >>= fun _ => (pure b : Prog Bool)) :=
    repays_act (a := .unlockShard _) trivial fun _ => repays_unlock (.done rfl)
  refine repays_act (a := .now) trivial fun now =>
    repays_act (a := .lockDurableMutation) rfl fun _ => ?_
  refine repays_act (a := .lockShard _) trivial fun _ =>
    repays_act (a := .expireAt key deadline now) rfl fun answer => ?_
  cases answer with
  | missing => exact hrest false
  | collected => exact repays_remove (hrest false)
  | deleted => exact repays_remove (hrest true)
  | kept d =>
    refine repays_act (a := .propagate [cmdPEXPIREAT, key, unixMillis d])
      ⟨rfl, .touch key d, rfl, ?_⟩ fun _ => hrest true
    exact ⟨fun _ hk => absurd hk List.not_mem_nil, fun k hk =>
      .inr (congrArg some (List.mem_singleton.1 hk).symm)⟩

lemma clears_op (o : Op) : Clears .idle .idle o.program := by
  cases o with
  | get key => exact (clears_quiet (quiet_get key)).map _
  | set key val => exact (clears_setTo key val none).map _
  | setWithTTL key val d =>
    refine Clears.map ?_ _
    simp only [Store.setWithTTL]
    split_ifs
    · exact (clears_del [key]).bind fun _ => .done rfl
    · exact repays_act (a := .now) trivial fun now => clears_setTo key val _
  | setWithDeadline key val deadline =>
    refine Clears.map (repays_act (a := .now) trivial fun now => ?_) _
    split_ifs
    · exact clears_setTo key val deadline
    · exact (clears_del [key]).bind fun _ => .done rfl
  | mset pairs => exact (clears_mset pairs).map _
  | increment key delta => exact (clears_increment key delta).map _
  | append key suffix => exact (clears_append key suffix).map _
  | expire key d =>
    exact Clears.map (repays_act (a := .now) trivial fun now => clears_expireAt key _) _
  | expireAt key deadline => exact (clears_expireAt key deadline).map _
  | ttl key => exact (clears_quiet (quiet_ttl key)).map _
  | del keys => exact (clears_del keys).map _
  | exists_ keys => exact (clears_quiet (quiet_exists keys)).map _
  | dbSize => exact (clears_quiet quiet_dbSize).map _

def Enforced.settled (h : Debt) (e : Enforced) : Prop :=
  (∀ evicted, e ≠ .running evicted) → h = .idle

lemma repays_evictLoop (maxMemory : ℤ) (fuel : ℕ) : ∀ evicted,
    Repays (fun g e => Enforced.settled g e) .holding (evictLoop maxMemory fuel evicted) := by
  induction fuel with
  | zero => exact fun evicted => .done fun h => absurd rfl (h evicted)
  | succ fuel ih =>
    intro evicted
    refine (clears_quiet quiet_used).bind fun u => ?_
    split_ifs
    · have hsample : Clears .holding .holding (sampleShards allShards ⟨none, 0⟩) :=
        clears_aside (within_sampleShards (fun _ _ => trivial) allShards ⟨none, 0⟩)
      refine hsample.bind fun r => ?_
      cases r with
      | none => exact repays_unlock (.done fun _ => rfl)
      | some key =>
        refine repays_act (a := .delete key) trivial fun _ =>
          repays_act (a := .evicted) trivial fun _ => ?_
        exact repays_remove (ih _)
    · exact repays_unlock (.done fun _ => rfl)

lemma repays_enforceMemoryLimit (fuel : ℕ) :
    Repays (fun g e => Enforced.settled g e) .idle (enforceMemoryLimit fuel) := by
  refine repays_act (a := .config) trivial fun r => ?_
  simp only
  split
  · exact .done fun _ => rfl
  · refine repays_act (a := .lockDurableMutation) rfl fun _ =>
      (clears_quiet quiet_used).bind fun u => ?_
    split_ifs
    · exact repays_unlock (.done fun _ => rfl)
    · exact repays_unlock (.done fun _ => rfl)
    · exact repays_evictLoop _ fuel 0

lemma clears_activeExpireCycle : Clears h h activeExpireCycle := by
  have hsample (n : ℕ) : Clears h h (expireSample n) :=
    repays_act (a := .now) trivial fun now => repays_act (a := .tick) trivial fun _ =>
      clears_aside (within_expireShards (fun _ _ _ => trivial) n _ 0 0)
  have hrounds (rounds : ℕ) :
      ∀ scanned expired, Clears h h (expireRounds rounds scanned expired) := by
    induction rounds with
    | zero => exact fun _ _ => .done rfl
    | succ rounds ih =>
      refine fun scanned expired => (hsample _).bind fun r => ?_
      simp only
      split_ifs
      · exact .done rfl
      · exact ih _ _
  exact hrounds _ 0 0

lemma clears_aofSnapshot : Clears h h aofSnapshot := by
  have hshards (now : ℤ) (ids : List ShardId) :
      ∀ out : List Record, Only Act.aside (snapshotShards now ids out) := by
    induction ids with
    | nil => exact fun out => .done _
    | cons i ids ih =>
      exact fun out => Only.act (S := sig) (a := .shardSnapshot i now) trivial fun records => ih _
  have hlen : Only Act.aside len :=
    within_sumShards (fun i => within_last (a := .shardLen i) trivial) _ _
  exact clears_aside
    (Only.act (S := sig) (a := .now) trivial fun now => hlen.bind fun _ => hshards now allShards [])

end Methods

section Threads

variable {ι : Type} {T : ℤ}

/-- What there is in the keyspace the journal has written, or the thread that holds `commitMu` is
about to. -/
structure Solvent (T : ℤ) (hs : ι → Debt) (ms : List Mutation) (w : World ι) : Prop where
  wellFormed : WellFormed w.store
  journal : w.store.journal = some (ms.map Mutation.record)
  grounded : (replays T).Grounded ms
  gate : ∀ t, (hs t).gate = true → w.locks.gate = some t
  outside : ∀ t, (hs t).gate = false → hs t = .idle
  present : ∀ k, (w.store.view k).isSome = true → k ∈ (replays T).overwritten ms ∨
    ∃ t, k ∈ (hs t).stored
  stamped : ∀ t, ∀ k ∈ (hs t).stamped, k ∈ (replays T).overwritten ms

variable {hs : ι → Debt} {ms : List Mutation} {w w' : World ι} {t u : ι} {k : Key}

lemma Solvent.gate_unique (hS : Solvent T hs ms w) (ht : (hs t).gate = true)
    (hu : (hs u).gate = true) : u = t :=
  Option.some.inj ((hS.gate u hu).symm.trans (hS.gate t ht))

lemma Solvent.gate_of_stored (hS : Solvent T hs ms w) (hk : k ∈ (hs u).stored) :
    (hs u).gate = true := by
  rw [← Bool.not_eq_false]
  intro hg
  rw [hS.outside u hg] at hk
  exact absurd hk List.not_mem_nil

lemma Solvent.overwritten_of_holding (hS : Solvent T hs ms w) (ht : hs t = .holding)
    (hk : (w.store.view k).isSome = true) : k ∈ (replays T).overwritten ms := by
  refine (hS.present k hk).resolve_right ?_
  rintro ⟨u, hu⟩
  obtain rfl := hS.gate_unique (congrArg Debt.gate ht) (hS.gate_of_stored hu)
  rw [ht] at hu
  exact absurd hu List.not_mem_nil

lemma ActSpec.aside {a : Act} {i : Input} {r : a.Resp} {w w' : Image} (ha : a.aside)
    (h : ActSpec a i r w w') :
    w'.journal = w.journal ∧ ∀ k, (w'.keyspace k).isSome = true → (w.keyspace k).isSome = true := by
  cases a with
  | lockDurableMutation | unlockDurableMutation | set | mset | expireAt | propagate =>
    exact absurd ha id
  | getCollect key =>
    obtain rfl := actSpec_getCollect.1 h
    refine ⟨rfl, fun k hk => ?_⟩
    obtain ⟨it, hit⟩ := Option.isSome_iff_exists.1 hk
    exact Option.isSome_iff_exists.2 ⟨it, Keyspace.of_collect hit⟩
  | delete key =>
    obtain rfl := actSpec_delete.1 h
    refine ⟨rfl, fun k hk => ?_⟩
    obtain ⟨it, hit⟩ := Option.isSome_iff_exists.1 hk
    exact Option.isSome_iff_exists.2 ⟨it, Keyspace.of_remove hit⟩
  | del keys time =>
    obtain ⟨-, rfl⟩ := actSpec_del.1 h
    refine ⟨rfl, fun k hk => ?_⟩
    simp only [Keyspace.removeAll_apply] at hk
    split_ifs at hk
    · exact absurd hk Bool.false_ne_true
    · exact hk
  | expireShard j time n scanned =>
    obtain ⟨hc, hj⟩ := actSpec_expireShard.1 h
    refine ⟨hj, fun k hk => ?_⟩
    rcases hc k with he | ⟨he, -⟩
    · rwa [he] at hk
    · rw [he] at hk
      exact absurd hk Bool.false_ne_true
  | _ =>
    obtain rfl := ActSpec.unchanged rfl h
    exact ⟨rfl, fun _ hk => hk⟩

lemma Act.inner_of_aside {a : Act} (ha : a.aside) : a.inner := by
  cases a with
  | lockDurableMutation | unlockDurableMutation => exact ha
  | _ => exact trivial

lemma Solvent.aside (hS : Solvent T hs ms w) (hwf : WellFormed w'.store)
    (hj : w'.store.journal = w.store.journal) (hl : w'.locks.gate = w.locks.gate)
    (hview : ∀ k, (w'.store.view k).isSome = true → (w.store.view k).isSome = true) :
    Solvent T hs ms w' :=
  ⟨hwf, hj.trans hS.journal, hS.grounded, fun u hu => hl.trans (hS.gate u hu), hS.outside,
    fun k hk => hS.present k (hview k hk), hS.stamped⟩

variable [DecidableEq ι]

lemma Solvent.inner (hS : Solvent T hs ms w) (hl : w'.locks.gate = w.locks.gate) (h' : Debt)
    (hh : h' = hs t ∨ h'.gate = true ∧ (hs t).gate = true) :
    (∀ u, (Function.update hs t h' u).gate = true → w'.locks.gate = some u) ∧
      ∀ u, (Function.update hs t h' u).gate = false → Function.update hs t h' u = .idle := by
  have hgate : h'.gate = (hs t).gate := by
    rcases hh with rfl | ⟨h₁, h₂⟩
    · rfl
    · rw [h₁, h₂]
  constructor
  · intro u hu
    rw [hl]
    by_cases he : u = t
    · subst he
      rw [Function.update_self, hgate] at hu
      exact hS.gate u hu
    · rw [Function.update_of_ne he] at hu
      exact hS.gate u hu
  · intro u hu
    by_cases he : u = t
    · subst he
      rw [Function.update_self] at hu ⊢
      rcases hh with rfl | ⟨h₁, -⟩
      · exact hS.outside u hu
      · exact absurd (h₁.symm.trans hu) Bool.true_eq_false.mp
    · rw [Function.update_of_ne he] at hu ⊢
      exact hS.outside u hu

lemma Solvent.holding (hS : Solvent T hs ms w) (ht : hs t = .holding) {h' : Debt}
    (hgate : h'.gate = true) (hwf : WellFormed w'.store) (hj : w'.store.journal = w.store.journal)
    (hl : w'.locks.gate = w.locks.gate)
    (hview : ∀ k, (w'.store.view k).isSome = true → k ∈ h'.stored ∨ (w.store.view k).isSome = true)
    (hstamp : ∀ k ∈ h'.stamped, (w.store.view k).isSome = true) :
    Solvent T (Function.update hs t h') ms w' := by
  obtain ⟨hgates, houtside⟩ := hS.inner hl h' (.inr ⟨hgate, congrArg Debt.gate ht⟩)
  refine ⟨hwf, hj.trans hS.journal, hS.grounded, hgates, houtside, fun k hk => ?_, fun u k hk => ?_⟩
  · rcases hview k hk with hk | hk
    · exact .inr ⟨t, by rwa [Function.update_self]⟩
    · exact .inl (hS.overwritten_of_holding ht hk)
  · by_cases hu : u = t
    · subst hu
      rw [Function.update_self] at hk
      exact hS.overwritten_of_holding ht (hstamp k hk)
    · rw [Function.update_of_ne hu] at hk
      exact hS.stamped u k hk

lemma Solvent.propagate (hS : Solvent T hs ms w) (ht : (hs t).gate = true) {m : Mutation}
    (hm : (hs t).Settles m) (hwf : WellFormed w'.store)
    (hj : w'.store.journal = w.store.journal.map (· ++ [m.record]))
    (hl : w'.locks.gate = w.locks.gate) (hview : w'.store.view = w.store.view) :
    Solvent T (Function.update hs t { hs t with stored := [], stamped := none })
      (ms ++ [m]) w' := by
  obtain ⟨hgates, houtside⟩ := hS.inner hl { hs t with stored := [], stamped := none }
    (.inr ⟨ht, ht⟩)
  refine ⟨hwf, ?_, hS.grounded.snoc fun k hk => ?_, hgates, houtside, fun k hk => ?_,
    fun u k hk => ?_⟩
  · rw [hj, hS.journal, List.map_append]
    rfl
  · exact (hm.2 k hk).symm.imp_left (hS.stamped t k)
  · rw [hview] at hk
    rw [UpdateLog.mem_overwritten_snoc]
    rcases hS.present k hk with hk | ⟨u, hu⟩
    · exact .inl (.inl hk)
    · obtain rfl := hS.gate_unique ht (hS.gate_of_stored hu)
      exact .inl (.inr (hm.1 k hu))
  · rw [UpdateLog.mem_overwritten_snoc]
    by_cases hu : u = t
    · subst hu
      rw [Function.update_self] at hk
      exact absurd hk (Option.not_mem_none k)
    · rw [Function.update_of_ne hu] at hk
      exact .inl (hS.stamped u k hk)

lemma Solvent.turn (hS : Solvent T hs ms w) {h' : Debt} (hown : (hs t).stored = [])
    (hstamp : h'.stamped = none) (hstore : w'.store.image = w.store.image)
    (hwf : WellFormed w'.store)
    (hgate : ∀ u, (Function.update hs t h' u).gate = true → w'.locks.gate = some u)
    (houtside : h'.gate = false → h' = .idle) : Solvent T (Function.update hs t h') ms w' := by
  have hview : w'.store.view = w.store.view := congrArg Image.keyspace hstore
  refine ⟨hwf, (congrArg Image.journal hstore).trans hS.journal, hS.grounded, hgate, fun u hu => ?_,
    fun k hk => ?_, fun u k hk => ?_⟩
  · by_cases he : u = t
    · subst he
      rw [Function.update_self] at hu ⊢
      exact houtside hu
    · rw [Function.update_of_ne he] at hu ⊢
      exact hS.outside u hu
  · rw [hview] at hk
    refine (hS.present k hk).imp_right ?_
    rintro ⟨u, hu⟩
    have hne : u ≠ t := by
      rintro rfl
      rw [hown] at hu
      exact absurd hu List.not_mem_nil
    exact ⟨u, by rwa [Function.update_of_ne hne]⟩
  · by_cases he : u = t
    · subst he
      rw [Function.update_self, hstamp] at hk
      exact absurd hk (Option.not_mem_none k)
    · rw [Function.update_of_ne he] at hk
      exact hS.stamped u k hk

lemma Solvent.lock (hS : Solvent T hs ms w) (ht : (hs t).gate = false)
    (hstore : w'.store.image = w.store.image) (hwf : WellFormed w'.store)
    (hl : w.locks.after t true .lockDurableMutation = some w'.locks) :
    Solvent T (Function.update hs t { hs t with gate := true }) ms w' := by
  obtain ⟨hfree, hheld, -⟩ := Locks.after_acquire hl
  have hidle := hS.outside t ht
  refine hS.turn (by rw [hidle]; rfl) (by rw [hidle]; rfl) hstore hwf (fun u hu => ?_) nofun
  by_cases he : u = t
  · rw [he, hheld]
  · rw [Function.update_of_ne he] at hu
    exact absurd (hfree.symm.trans (hS.gate u hu)) nofun

lemma Solvent.unlock (hS : Solvent T hs ms w) (ht : hs t = .holding)
    (hstore : w'.store.image = w.store.image) (hwf : WellFormed w'.store) :
    Solvent T (Function.update hs t { hs t with gate := false }) ms w' := by
  refine hS.turn (by rw [ht]; rfl) (by rw [ht]; rfl) hstore hwf (fun u hu => ?_) fun _ => by
    rw [ht]; rfl
  by_cases he : u = t
  · subst he
    rw [Function.update_self] at hu
    exact absurd hu Bool.false_ne_true
  · rw [Function.update_of_ne he] at hu
    exact absurd (hS.gate_unique (congrArg Debt.gate ht) hu) he

lemma Keyspace.isSome_of_kept {ks : Keyspace} {key : Key} {deadline : Time} {now d : ℤ}
    (h : (ks.expireKey key deadline now).1 = .kept d) : (ks key).isSome = true := by
  cases hk : ks key with
  | none =>
    rw [expireKey, hk] at h
    exact ExpireAnswer.noConfusion h
  | some it => rfl

lemma Keyspace.isSome_expireKey {ks : Keyspace} {key : Key} {deadline : Time} {now : ℤ}
    (h : ((ks.expireKey key deadline now).2 k).isSome = true) : (ks k).isSome = true := by
  obtain ⟨it, hit⟩ := Option.isSome_iff_exists.1 h
  rcases of_expireKey hit with hk | ⟨old, d, rfl, hk, -⟩
  · exact Option.isSome_iff_exists.2 ⟨it, hk⟩
  · exact Option.isSome_iff_exists.2 ⟨old, hk⟩

lemma Debt.next_expireAt_gate (h : Debt) (key : Key) (deadline : Time) (now : ℤ)
    (r : ExpireAnswer) : (h.next (.expireAt key deadline now) r).gate = h.gate := by
  cases r <;> rfl

lemma Debt.stamped_expireAt {key : Key} {deadline : Time} {now : ℤ} {r : ExpireAnswer}
    (hk : k ∈ (holding.next (.expireAt key deadline now) r).stamped) :
    ∃ d, r = .kept d ∧ key = k := by
  cases r with
  | kept d => exact ⟨d, rfl, Option.some.inj hk⟩
  | _ => exact absurd hk (Option.not_mem_none k)

lemma Solvent.step {a : Act} {i : Input} {r : a.Resp} (hS : Solvent T hs ms w)
    (hok : (hs t).allows a) (h : World.act t a i w = some (r, w')) :
    ∃ ms, Solvent T (Function.update hs t ((hs t).next a r)) ms w' := by
  obtain ⟨hl, hwf, himage⟩ := World.act_spec hS.wellFormed h
  rw [hS.journal, Option.isSome_some] at hl
  have hsame (ha : a.inner) : w'.locks.gate = w.locks.gate := (Locks.after_other ha hl).1
  by_cases haside : a.aside
  · obtain ⟨hj, hview⟩ := himage.aside haside
    rw [Debt.next_aside haside, Function.update_eq_self]
    exact ⟨ms, hS.aside hwf hj (hsame (Act.inner_of_aside haside)) hview⟩
  cases a with
  | lockDurableMutation => exact ⟨ms, hS.lock hok (actSpec_lockDurableMutation.1 himage) hwf hl⟩
  | unlockDurableMutation => exact ⟨ms, hS.unlock hok (actSpec_unlockDurableMutation.1 himage) hwf⟩
  | set key val expiresAt =>
    have hi := actSpec_set.1 himage
    refine ⟨ms, hS.holding hok (congrArg Debt.gate hok) hwf (congrArg Image.journal hi)
      (hsame trivial) (fun k hk => ?_) fun k hk => ?_⟩
    · have hv : w'.store.view = w.store.view.put key val expiresAt := congrArg Image.keyspace hi
      rw [hv] at hk
      by_cases he : k = key
      · exact .inl (List.mem_singleton.2 he)
      · rw [Keyspace.put, Function.update_of_ne he] at hk
        exact .inr hk
    · simp only [Debt.next, show hs t = .holding from hok] at hk
      exact absurd hk (Option.not_mem_none k)
  | mset pairs =>
    have hi := actSpec_mset.1 himage
    refine ⟨ms, hS.holding hok (congrArg Debt.gate hok) hwf (congrArg Image.journal hi)
      (hsame trivial) (fun k hk => ?_) fun k hk => ?_⟩
    · have hv : w'.store.view = w.store.view.putAll pairs := congrArg Image.keyspace hi
      rw [hv] at hk
      by_cases hm : k ∈ pairs.map Prod.fst
      · exact .inl hm
      · rw [Keyspace.putAll_of_not_mem hm] at hk
        exact .inr hk
    · simp only [Debt.next, show hs t = .holding from hok] at hk
      exact absurd hk (Option.not_mem_none k)
  | expireAt key deadline time =>
    obtain ⟨rfl, hi⟩ := actSpec_expireAt.1 himage
    have hv : w'.store.view = (w.store.view.expireKey key deadline time).2 :=
      congrArg Image.keyspace hi
    refine ⟨ms, hS.holding hok ?_ hwf (congrArg Image.journal hi) (hsame trivial) (fun k hk => ?_)
      fun k hk => ?_⟩
    · rw [Debt.next_expireAt_gate, show hs t = .holding from hok]
      rfl
    · rw [hv] at hk
      exact .inr (Keyspace.isSome_expireKey hk)
    · rw [show hs t = .holding from hok] at hk
      obtain ⟨d, hd, rfl⟩ := Debt.stamped_expireAt hk
      exact Keyspace.isSome_of_kept hd
  | propagate record =>
    obtain ⟨hg, m, rfl, hm⟩ := hok
    have hi := actSpec_propagate.1 himage
    exact ⟨ms ++ [m], hS.propagate hg hm hwf (congrArg Image.journal hi) (hsame trivial)
      (congrArg Image.keyspace hi)⟩
  | _ => exact absurd trivial haside

lemma grounded_after (T : ℤ) {α : Type} {D : ι → Debt → α → Prop} {p : ι → Prog α}
    (hp : ∀ t, Repays (D t) .idle (p t)) (maxMemory : ℤ) (policy : EvictionPolicy)
    (inputs : ι → ℕ → Input) (schedule : List ι) :
    ∃ ms : List Mutation,
    ((booted true maxMemory policy p).after World.act inputs schedule).world.store.journal =
      some (ms.map Mutation.record) ∧ (replays T).Grounded ms := by
  have hstart : Solvent T (fun _ : ι => .idle) [] (booted true maxMemory policy p).world :=
    ⟨configured_wellFormed true maxMemory policy, rfl, fun _ hk => absurd hk List.not_mem_nil,
      nofun, fun _ _ => rfl, fun _ hk => absurd hk Bool.false_ne_true, fun _ k hk => absurd hk
        (Option.not_mem_none k)⟩
  have hstep (t : ι) (n : ℕ) (hs : ι → Debt) (a : Act) (r : a.Resp) (w w' : World ι)
    (hS : ∃ ms, Solvent T hs ms w)
      (hok : (hs t).allows a) (h : World.act t a (inputs t n) w = some (r, w')) :
      True ∧ ∃ ms, Solvent T (Function.update hs t ((hs t).next a r)) ms w' := by
    obtain ⟨ms, hS⟩ := hS
    exact ⟨trivial, hS.step hok h⟩
  obtain ⟨hs, -, ms, hS⟩ := Config.after_follow (S := sig)
    (J := fun hs w => ∃ ms, Solvent T hs ms w) hstep schedule _ hp ⟨[], hstart⟩
  exact ⟨ms, hS.journal, hS.grounded⟩

end Threads

end RedisClone.Store
