import RedisClone.Lib.LockOrder
import RedisClone.Store.Concurrency
import RedisClone.Store.Footprint

namespace RedisClone.Store

open Lib Lib.Program

structure Kept where
  gate : Bool
  shards : Finset ShardId

def Kept.none : Kept := ⟨false, ∅⟩

def Act.rule (h : Kept) : Act → Kept → Prop
  | .lockDurableMutation, h' => h = .none ∧ h' = ⟨true, ∅⟩
  | .unlockDurableMutation, h' => h.gate = true ∧ h' = { h with gate := false }
  | .lockShard i, h' => (∀ j ∈ h.shards, j < i) ∧ h' = { h with shards := insert i h.shards }
  | .unlockShard i, h' => i ∈ h.shards ∧ h' = { h with shards := h.shards.erase i }
  | a, h' => (a.within.isSome = true → h.shards = ∅) ∧ h' = h

abbrev Leads (h h' : Kept) {α : Type} (p : Prog α) : Prop := Carries Act.rule h h' p

section Methods

variable {h h' h'' : Kept} {α β : Type}

lemma Leads.act {a : Act} {f : a.Resp → Prog α} (ha : a.rule h h') (hf : ∀ r, Leads h' h'' (f r)) :
    Leads h h'' (invoke a >>= f) := Carries.act ha hf

lemma Leads.map {p : Prog α} (hp : Leads h h' p) (f : α → β) : Leads h h' (f <$> p) :=
  Carries.map hp f

lemma rule_self {gate : Bool} {a : Act} (ha : a.plumbing = false) : a.rule ⟨gate, ∅⟩ ⟨gate, ∅⟩ := by
  cases a <;> first | exact ⟨fun _ => rfl, rfl⟩ | cases ha

lemma rule_now : Act.now.rule h h := ⟨Bool.noConfusion, rfl⟩

lemma leads_lockAll (gate : Bool) {ids : List ShardId} (hids : ids.Pairwise (· < ·)) :
    ∀ {shards : Finset ShardId}, (∀ j ∈ shards, ∀ i ∈ ids, j < i) →
      Leads ⟨gate, shards⟩ ⟨gate, ids.toFinset ∪ shards⟩ (lockAll ids) := by
  induction hids with
  | nil =>
    intro shards _
    rw [List.toFinset_nil, Finset.empty_union]
    exact .done ()
  | @cons i ids hi _ ih =>
    intro shards hs
    refine Leads.act (a := .lockShard i) ⟨fun j hj => hs j hj i List.mem_cons_self, rfl⟩ fun _ => ?_
    have hrest : Leads ⟨gate, insert i shards⟩ ⟨gate, ids.toFinset ∪ insert i shards⟩
        (lockAll ids) := ih fun j hj k hk => by
      rcases Finset.mem_insert.1 hj with rfl | hj
      · exact hi k hk
      · exact hs j hj k (List.mem_cons_of_mem i hk)
    rwa [Finset.union_insert, ← Finset.insert_union, ← List.toFinset_cons] at hrest

lemma leads_unlockAll (gate : Bool) {ids : List ShardId} (hids : ids.Nodup) :
    ∀ {shards : Finset ShardId}, (∀ i ∈ ids, i ∈ shards) →
      Leads ⟨gate, shards⟩ ⟨gate, shards \ ids.toFinset⟩ (unlockAll ids) := by
  induction ids with
  | nil =>
    intro shards _
    rw [List.toFinset_nil, Finset.sdiff_empty]
    exact .done ()
  | cons i ids ih =>
    intro shards hs
    obtain ⟨hi, hids⟩ := List.nodup_cons.1 hids
    refine Leads.act (a := .unlockShard i) ⟨hs i List.mem_cons_self, rfl⟩ fun _ => ?_
    have hrest : Leads ⟨gate, shards.erase i⟩ ⟨gate, shards.erase i \ ids.toFinset⟩
        (unlockAll ids) := ih hids fun j hj =>
      Finset.mem_erase.2 ⟨fun he => hi (he ▸ hj), hs j (List.mem_cons_of_mem i hj)⟩
    rwa [Finset.erase_sdiff_comm, ← Finset.sdiff_insert, ← List.toFinset_cons] at hrest

lemma nodup_eraseDups (n : ℕ) : ∀ {ids : List ShardId}, ids.length ≤ n → ids.eraseDups.Nodup := by
  induction n with
  | zero =>
    intro ids hn
    obtain rfl := List.length_eq_zero_iff.1 (Nat.le_zero.1 hn)
    exact List.nodup_nil
  | succ n ih =>
    intro ids hn
    cases ids with
    | nil => exact List.nodup_nil
    | cons i ids =>
      have hrest :=
        ih ((List.length_filter_le (fun j => !j == i) ids).trans (Nat.le_of_succ_le_succ hn))
      simpa [List.eraseDups_cons] using hrest

lemma shardIds_sorted (keys : List Key) : (shardIds keys).SortedLT :=
  List.sortedLE_insertionSort.sortedLT_of_nodup
    ((List.perm_insertionSort _ _).nodup_iff.2 (nodup_eraseDups _ le_rfl))

lemma leads_lockWriteShards (gate : Bool) (keys : List Key) {f : List ShardId → Prog α}
    (hf : Leads ⟨gate, (shardIds keys).toFinset⟩ h (f (shardIds keys))) :
    Leads ⟨gate, ∅⟩ h (lockWriteShards keys >>= f) := by
  have hlock : Leads ⟨gate, ∅⟩ ⟨gate, (shardIds keys).toFinset ∪ ∅⟩ (lockAll (shardIds keys)) :=
    leads_lockAll gate (shardIds_sorted keys).pairwise (by simp)
  rw [Finset.union_empty] at hlock
  rw [lockWriteShards, Program.bind_assoc]
  exact hlock.bind fun _ => hf

lemma leads_unlockWriteShards (gate : Bool) (keys : List Key) :
    Leads ⟨gate, (shardIds keys).toFinset⟩ ⟨gate, ∅⟩ (unlockWriteShards (shardIds keys)) := by
  have hunlock : Leads ⟨gate, (shardIds keys).toFinset⟩
    ⟨gate, (shardIds keys).toFinset \ (shardIds keys).reverse.toFinset⟩
      (unlockWriteShards (shardIds keys)) :=
    leads_unlockAll gate (List.nodup_reverse.2 (shardIds_sorted keys).nodup) (by simp)
  rwa [List.toFinset_reverse, Finset.sdiff_self] at hunlock

lemma leads_get (key : Key) : Leads .none .none (get key) := by
  refine .act rule_now fun now => .act (rule_self rfl) fun r => ?_
  cases r with
  | missing | hit => exact .done _
  | expired => exact .act (rule_self rfl) fun _ => .done _

lemma leads_setLocked (key : Key) (val : Bytes) (expiresAt : Time) :
    Leads ⟨true, ∅⟩ ⟨true, ∅⟩ (setLocked key val expiresAt) :=
  .act (rule_self rfl) fun _ => .last ⟨nofun, rfl⟩

lemma leads_unlock (a : α) :
    Leads ⟨true, ∅⟩ .none (invoke .unlockDurableMutation >>= fun _ => (pure a : Prog α)) :=
  .act ⟨rfl, rfl⟩ fun _ => .done a

lemma leads_setTo (key : Key) (val : Bytes) (expiresAt : Time) :
    Leads .none .none (setTo key val expiresAt) :=
  .act ⟨rfl, rfl⟩ fun _ => (leads_setLocked key val expiresAt).bind fun _ => .last ⟨rfl, rfl⟩

lemma leads_del (keys : List Key) : Leads .none .none (del keys) := by
  have hrest (n : ℕ) :
      Leads ⟨true, (shardIds keys).toFinset⟩ .none (invoke .unlockDurableMutation >>= fun _ =>
      unlockWriteShards (shardIds keys) >>= fun _ => (pure n : Prog ℕ)) :=
    .act ⟨rfl, rfl⟩ fun _ => (leads_unlockWriteShards false keys).bind fun _ => .done n
  refine .act rule_now fun now => .act ⟨rfl, rfl⟩ fun _ => leads_lockWriteShards true keys ?_
  refine .act ⟨nofun, rfl⟩ fun r => ?_
  by_cases hr : r.2 = []
  · simpa [hr] using hrest r.1
  · simpa [hr] using Leads.act (a := .propagate (cmdDEL :: r.2)) ⟨nofun, rfl⟩ fun _ => hrest r.1

lemma leads_mset (pairs : List (Key × Bytes)) : Leads .none .none (mset pairs) := by
  refine .act ⟨rfl, rfl⟩ fun _ => leads_lockWriteShards true _ ?_
  refine .act ⟨nofun, rfl⟩ fun _ => .act ⟨nofun, rfl⟩ fun _ => .act ⟨rfl, rfl⟩ fun _ => ?_
  exact leads_unlockWriteShards false _

lemma leads_deleteIfExpired (key : Key) (now : ℤ) (e : Option Entry) :
    Leads ⟨true, ∅⟩ ⟨true, ∅⟩ (deleteIfExpired key now e) :=
  .only (fun _ h => h)
    ((obeys_deleteIfExpired (rule_self rfl) now trivial).mono (fun _ h => h) (fun _ _ h => h)
    fun _ _ => trivial)

lemma leads_increment (key : Key) (delta : Int64) : Leads .none .none (increment key delta) := by
  refine .act rule_now fun now => .act ⟨rfl, rfl⟩ fun _ => .act (rule_self rfl) fun r => ?_
  refine (leads_deleteIfExpired key now r).bind fun e => ?_
  cases counterValue e with
  | none => exact leads_unlock _
  | some n =>
    simp only
    split_ifs
    · exact leads_unlock _
    · exact (leads_setLocked _ _ _).bind fun _ => leads_unlock _

lemma leads_append (key : Key) (suffix : Bytes) : Leads .none .none (append key suffix) := by
  refine .act rule_now fun now => .act ⟨rfl, rfl⟩ fun _ => .act (rule_self rfl) fun r => ?_
  exact (leads_deleteIfExpired key now r).bind fun e => (leads_setLocked _ _ _).bind
    fun _ => leads_unlock _

lemma leads_expireAt (key : Key) (deadline : Time) : Leads .none .none (expireAt key deadline) := by
  have hrest (b : Bool) :
      Leads ⟨true, {shardIndex key}⟩ .none (invoke (.unlockShard (shardIndex key)) >>= fun _ =>
      invoke .unlockDurableMutation >>= fun _ => (pure b : Prog Bool)) := by
    refine .act ⟨Finset.mem_singleton_self _, rfl⟩ fun _ => ?_
    simpa using leads_unlock b
  refine .act rule_now fun now => .act ⟨rfl, rfl⟩ fun _ => .act ⟨by simp, rfl⟩
    fun _ => .act ⟨nofun, rfl⟩ fun answer => ?_
  cases answer with
  | missing => exact hrest false
  | collected => exact .act (a := .propagate [cmdDEL, key]) ⟨nofun, rfl⟩ fun _ => hrest false
  | deleted => exact .act (a := .propagate [cmdDEL, key]) ⟨nofun, rfl⟩ fun _ => hrest true
  | kept d =>
    exact .act (a := .propagate [cmdPEXPIREAT, key, unixMillis d]) ⟨nofun, rfl⟩ fun _ => hrest true

lemma leads_used (gate : Bool) : Leads ⟨gate, ∅⟩ ⟨gate, ∅⟩ used :=
  .only (fun _ h => h) (within_used fun _ => rule_self rfl)

lemma leads_pickVictim (gate : Bool) : Leads ⟨gate, ∅⟩ ⟨gate, ∅⟩ pickVictim :=
  .only (fun _ h => h) (within_sampleShards (fun _ _ => rule_self rfl) _ _)

lemma keeps_act {Q : α → Kept → Prop} {a : Act} {f : a.Resp → Prog α} {n : ℕ} (ha : a.rule h h')
    (hf : ∀ r m, m + 1 ≤ n → Keeps Act.rule Q m h' (f r)) :
    Keeps Act.rule Q n h (invoke a >>= f) := by
  cases n with
  | zero => exact .enough
  | succ n => exact Keeps.act ha fun r => hf r n le_rfl

lemma keeps_evictLoop (maxMemory : ℤ) (fuel : ℕ) : ∀ n ≤ fuel, ∀ evicted,
    Keeps Act.rule (fun _ g => g = .none) n ⟨true, ∅⟩ (evictLoop maxMemory fuel evicted) := by
  induction fuel with
  | zero =>
    intro n hn evicted
    obtain rfl := Nat.le_zero.1 hn
    exact .enough
  | succ fuel ih =>
    intro n hn evicted
    refine ((leads_used true).keeps n).bind fun u _ m hm hg => ?_
    subst hg
    split_ifs
    · refine ((leads_pickVictim true).keeps m).bind fun r _ m' hm' hg => ?_
      subst hg
      cases r with
      | none => exact (leads_unlock _).keeps m'
      | some key =>
        refine keeps_act (rule_self rfl) fun _ m₁ h₁ => keeps_act (rule_self rfl) fun _ m₂ h₂ => ?_
        exact keeps_act (a := .propagate [cmdDEL, key]) ⟨nofun, rfl⟩ fun _ m₃ h₃ =>
          ih m₃ (by omega) _
    · exact (leads_unlock _).keeps m

lemma keeps_enforceMemoryLimit {fuel n : ℕ} (hn : n ≤ fuel) :
    Keeps Act.rule (fun _ g => g = .none) n .none (enforceMemoryLimit fuel) := by
  refine keeps_act ⟨nofun, rfl⟩ fun r m hm => ?_
  simp only
  split
  · exact .done rfl
  · refine keeps_act (a := .lockDurableMutation) ⟨rfl, rfl⟩ fun _ m₁ h₁ => ?_
    refine ((leads_used true).keeps m₁).bind fun u _ m₂ h₂ hg => ?_
    subst hg
    split_ifs
    · exact (leads_unlock _).keeps m₂
    · exact (leads_unlock _).keeps m₂
    · exact keeps_evictLoop _ fuel m₂ (by omega) 0

lemma leads_op (o : Op) : Leads .none .none o.program := by
  cases o with
  | get key => exact (leads_get key).map _
  | set key val => exact (leads_setTo key val none).map _
  | setWithTTL key val d =>
    refine Leads.map ?_ _
    simp only [Store.setWithTTL]
    split_ifs
    · exact (leads_del [key]).bind fun _ => .done _
    · exact .act rule_now fun now => leads_setTo key val _
  | setWithDeadline key val deadline =>
    refine Leads.map (.act rule_now fun now => ?_) _
    split_ifs
    · exact leads_setTo key val deadline
    · exact (leads_del [key]).bind fun _ => .done _
  | mset pairs => exact (leads_mset pairs).map _
  | increment key delta => exact (leads_increment key delta).map _
  | append key suffix => exact (leads_append key suffix).map _
  | expire key d => exact Leads.map (.act rule_now fun now => leads_expireAt key _) _
  | expireAt key deadline => exact (leads_expireAt key deadline).map _
  | ttl key =>
    refine Leads.map
      (.act rule_now fun now => .act (a := .lookup key) (rule_self rfl) fun r => ?_) _
    cases r with
    | none => exact .done _
    | some e =>
      simp only
      cases e.expiresAt <;> exact .done _
  | del keys => exact (leads_del keys).map _
  | exists_ keys =>
    refine Leads.map (.act rule_now fun now => ?_) _
    exact .only (fun _ h => h) (within_countExisting now (fun _ _ => rule_self rfl) 0)
  | dbSize =>
    refine Leads.map (.act rule_now fun now => ?_) _
    exact .only (fun _ h => h)
      (within_sumShards (fun i => within_last (a := .shardLive i now) (rule_self rfl)) _ _)

lemma leads_len : Leads .none .none len :=
  .only (fun _ h => h)
    (within_sumShards (fun i => within_last (a := .shardLen i) (rule_self rfl)) _ _)

lemma leads_expireSample (n : ℕ) : Leads .none .none (expireSample n) := by
  refine .act rule_now fun now => .act (a := .tick) (rule_self rfl) fun _ => ?_
  exact .only (fun _ h => h) (within_expireShards (fun _ _ _ => rule_self rfl) n _ 0 0)

lemma leads_expireRounds (rounds : ℕ) :
    ∀ scanned expired, Leads .none .none (expireRounds rounds scanned expired) := by
  induction rounds with
  | zero => exact fun _ _ => .done _
  | succ rounds ih =>
    refine fun scanned expired => (leads_expireSample _).bind fun r => ?_
    simp only
    split_ifs
    · exact .done _
    · exact ih _ _

lemma leads_snapshotShards (now : ℤ) (ids : List ShardId) :
    ∀ out, Leads .none .none (snapshotShards now ids out) := by
  induction ids with
  | nil => exact fun _ => .done _
  | cons i ids ih => exact fun out => .act (a := .shardSnapshot i now) (rule_self rfl) fun _ => ih _

lemma leads_aofSnapshot : Leads .none .none aofSnapshot :=
  .act rule_now fun now => leads_len.bind fun _ => leads_snapshotShards now allShards []

end Methods

section Alone

variable {ι α : Type} [DecidableEq ι]

structure Locks.KeptBy (t : ι) (journalled : Bool) (h : Kept) (l : Locks ι) : Prop where
  gate : l.gate = if journalled ∧ h.gate then some t else none
  shards : ∀ i, l.shards i = if i ∈ h.shards then some t else none

omit [DecidableEq ι] in
lemma Locks.KeptBy.after {t : ι} {journalled : Bool} {h h' : Kept} {l : Locks ι} {a : Act}
    (hl : l.KeptBy t journalled h) (ha : a.rule h h') :
    ∃ l', l.after t journalled a = some l' ∧ l'.KeptBy t journalled h' := by
  obtain ⟨hgate, hshards⟩ := hl
  cases a with
  | lockDurableMutation =>
    obtain ⟨rfl, rfl⟩ := ha
    cases journalled with
    | false => exact ⟨l, rfl, by simpa using hgate, hshards⟩
    | true =>
      have hg : l.gate = none := by simpa [Kept.none] using hgate
      exact ⟨⟨some t, l.shards, l.commits ++ [t]⟩, by simp [Locks.after, hg], rfl, hshards⟩
  | unlockDurableMutation =>
    obtain ⟨-, rfl⟩ := ha
    cases journalled with
    | false => exact ⟨l, rfl, by simpa using hgate, hshards⟩
    | true => exact ⟨_, rfl, rfl, hshards⟩
  | lockShard i =>
    obtain ⟨hi, rfl⟩ := ha
    have hs : l.shards i = none := by
      rw [hshards, if_neg fun h => lt_irrefl i (hi i h)]
    refine ⟨⟨l.gate, Function.update l.shards i (some t), l.commits⟩, by simp [Locks.after, hs],
      hgate, fun j => ?_⟩
    by_cases hj : j = i <;> simp [hj, hshards]
  | unlockShard i =>
    obtain ⟨-, rfl⟩ := ha
    refine ⟨_, rfl, hgate, fun j => ?_⟩
    by_cases hj : j = i <;> simp [hj, hshards]
  | _ =>
    obtain ⟨hw, rfl⟩ := ha
    refine ⟨l, ?_, hgate, hshards⟩
    simp_all [Locks.after, Act.within]

omit [DecidableEq ι] in
lemma Locks.KeptBy.none {t : ι} {journalled : Bool} {l : Locks ι}
    (h : l.KeptBy t journalled .none) (u : ι) : l.KeptBy u journalled .none := by
  obtain ⟨hg, hs⟩ := h
  simp only [Kept.none, Bool.false_eq_true, and_false, if_false, Finset.notMem_empty] at hg hs
  exact ⟨by simpa [Kept.none] using hg, by simpa [Kept.none] using hs⟩

/-- A thread that meets no other goes through its program as `exec` does. -/
lemma runs_alone (inputs : ι → ℕ → Input) {t : ι} {Q : α → Kept → Prop} (p : Prog α) :
    ∀ {c : Threads ι α} {h : Kept}, c.prog t = p → WellFormed c.world.store →
    c.world.locks.KeptBy t c.world.store.journal.isSome h →
    let r := exec p (shift (c.taken t) (inputs t)) c.world.store
    Keeps Act.rule Q (r.2.1 + 1) h p →
      let c' := c.after World.act inputs (List.replicate r.2.1 t)
      c'.world.store = r.2.2 ∧ c'.prog t = .done r.1 ∧
      (∀ u, u ≠ t → c'.prog u = c.prog u ∧ c'.taken u = c.taken u) ∧
        ∃ h', Q r.1 h' ∧ c'.world.locks.KeptBy t c'.world.store.journal.isSome h' := by
  induction p with
  | done b =>
    intro c h hp _ hl r hk c'
    exact ⟨rfl, hp, fun _ _ => ⟨rfl, rfl⟩, h, hk.result, hl⟩
  | act a k ih =>
    intro c h hp hw hl r hk c'
    obtain ⟨h', ha, hrest⟩ := hk.next
    obtain ⟨locks, hlocks, hl'⟩ := hl.after ha
    let here := perform a (inputs t (c.taken t)) c.world.store
    let c₁ :
      Threads ι α := ⟨⟨here.2, locks⟩, Function.update c.prog t (k here.1),
        Function.update c.taken t (c.taken t + 1)⟩
    have hstep : c.step World.act inputs t = c₁ := by
      simp only [Config.step, hp, World.act, hlocks, Option.map_some]
      rfl
    let rest := exec (k here.1) (shift (c₁.taken t) (inputs t)) c₁.world.store
    have hr : r = (rest.1, rest.2.1 + 1, rest.2.2) := by
      simp only [r, rest, c₁, here, exec, run_act, shift_shift, shift_apply, Nat.zero_add,
        Function.update_self, Nat.add_comm 1]
    have hj : here.2.journal.isSome = c.world.store.journal.isSome :=
      (perform_spec a _ _ hw).journal_isSome
    have hih := ih here.1 (c := c₁) (h := h') (Function.update_self ..)
      (perform_wellFormed a _ _ hw) (hj ▸ hl')
    have hc' : c' = c₁.after World.act inputs (List.replicate rest.2.1 t) := by
      simp only [c', hr, List.replicate_succ, Config.after, List.foldl_cons, hstep]
    obtain ⟨hs, hd, hothers, hlast⟩ := hih (by rw [hr] at hrest; exact hrest _)
    rw [hc', hr]
    refine ⟨hs, hd, fun u hu => ?_, hlast⟩
    rw [(hothers u hu).1, (hothers u hu).2]
    exact ⟨Function.update_of_ne hu .., Function.update_of_ne hu ..⟩

end Alone

end RedisClone.Store
