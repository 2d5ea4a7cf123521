import RedisClone.Store.LockRule
import RedisClone.Aof.Log

/-! The locks of the store and of the log, step by step: `commitMu` comes before the shards,
these come in their order, and the mutex of the log comes last. -/

namespace RedisClone.Store

open Lib Lib.Program Aof

inductive Mutex
  | commitMu
  | shard (i : ShardId)
  | log
  deriving DecidableEq, Fintype

namespace Mutex

def rank : Mutex → ℕ
  | .commitMu => 0
  | .shard i => i + 1
  | .log => shardCount + 1

instance : Preorder Mutex := Preorder.lift rank

lemma lt_iff {l m : Mutex} : l < m ↔ l.rank < m.rank := Iff.rfl

end Mutex

/-- What the methods of the log do while they hold its mutex; only the snapshot of a rewrite is
written without it. -/
inductive LogSection
  | append (args : List Bytes)
  | sync (synced : Bool)
  | flush
  | err
  | close (synced : Bool)
  | beginRewrite
  | writeSnapshot (created : Bool) (faults : Faults) (snapshot : List (List Bytes))
  | abortRewrite
  | installRewrite (i : Log.Install)

@[reducible] def LogSection.Resp : LogSection → Type
  | .writeSnapshot _ _ _ => Bool
  | _ => Unit

def LogSection.perform (faults : Faults) : (a : LogSection) → Log → a.Resp × Log
  | .append args, l => ((), (l.append faults args).2)
  | .sync synced, l => ((), (l.sync faults synced).2)
  | .flush, l => ((), (l.flush faults).2)
  | .err, l => ((), l)
  | .close synced, l => ((), (l.syncLocked faults synced true).2)
  | .beginRewrite, l => ((), l.beginRewrite.2)
  | .writeSnapshot created faults snapshot, l =>
    match l.prepareRewrite created faults snapshot with
    | (some _, _) => (false, l)
    | (none, l') => (true, l')
  | .abortRewrite, l => ((), l.abortRewrite)
  | .installRewrite i, l => ((), (l.installRewrite i).2)

@[reducible] def sections : Signature :=
  ⟨Act ⊕ LogSection, fun a => Sum.rec Act.Resp LogSection.Resp a⟩

def performSection (faults : Faults) :
    (a : sections.Act) → Input → Store × Log → sections.Resp a × (Store × Log)
  | .inl a, i, w =>
    let done := perform a i w.1
    (done.1, done.2, w.2)
  | .inr a, _, w =>
    let done := a.perform faults w.2
    (done.1, w.1, done.2)

abbrev LockProg (α : Type) := Program (locking sections Mutex) α

section Sections

def body (a : Act) : LockProg a.Resp := Program.call (S := locking sections Mutex) (.body (.inl a))

def logBody (a : LogSection) : LockProg a.Resp :=
  Program.call (S := locking sections Mutex) (.body (.inr a))

def rlock (l : Mutex) : LockProg Unit := Program.call (S := locking sections Mutex) (.rlock l)

def runlock (l : Mutex) : LockProg Unit := Program.call (S := locking sections Mutex) (.runlock l)

def lock (l : Mutex) : LockProg Unit := do
  Program.call (S := locking sections Mutex) (.claim l)
  Program.call (S := locking sections Mutex) (.enter l)

def unlock (l : Mutex) : LockProg Unit := Program.call (S := locking sections Mutex) (.unlock l)

def reading (i : ShardId) (a : Act) : LockProg a.Resp := do
  rlock (.shard i)
  let r ← body a
  runlock (.shard i)
  return r

def writing (i : ShardId) (a : Act) : LockProg a.Resp := do
  lock (.shard i)
  let r ← body a
  unlock (.shard i)
  return r

def logged (a : LogSection) : LockProg a.Resp := do
  lock .log
  let r ← logBody a
  unlock .log
  return r

def withLocks (journalled : Bool) : (a : Act) → LockProg a.Resp
  | .lockDurableMutation => if journalled then lock .commitMu else body .lockDurableMutation
  | .unlockDurableMutation => if journalled then unlock .commitMu else body .unlockDurableMutation
  | .lockShard i => lock (.shard i)
  | .unlockShard i => unlock (.shard i)
  | .propagate record =>
    if journalled then do
      lock .log
      body (.propagate record)
      logBody (.append record)
      unlock .log
    else body (.propagate record)
  | .getRead key now => reading (shardIndex key) (.getRead key now)
  | .getCollect key => writing (shardIndex key) (.getCollect key)
  | .lookup key => reading (shardIndex key) (.lookup key)
  | .set key val expiresAt => writing (shardIndex key) (.set key val expiresAt)
  | .delete key => writing (shardIndex key) (.delete key)
  | .shardUsed i => reading i (.shardUsed i)
  | .shardLen i => reading i (.shardLen i)
  | .shardLive i now => reading i (.shardLive i now)
  | .shardSnapshot i now => reading i (.shardSnapshot i now)
  | .expireShard i now n scanned => writing i (.expireShard i now n scanned)
  | .sampleShard i sample => reading i (.sampleShard i sample)
  | a => body a

end Sections

/-- `BeginRewrite` and what follows it in `BGREWRITEAOF` are operations of their own here. -/
inductive Operation
  | op (o : Op)
  | len
  | used
  | enforceMemoryLimit
  | expireSample (n : ℕ)
  | activeExpireCycle
  | aofSnapshot
  | append (args : List Bytes)
  | sync (synced : Bool)
  | flush
  | err
  | close (synced : Bool)
  | beginRewrite
  | finishRewrite (created : Bool) (faults : Faults) (snapshot : List (List Bytes))
      (i : Log.Install)

def finishRewrite (created : Bool) (faults : Faults) (snapshot : List (List Bytes))
    (i : Log.Install) : LockProg Unit := do
  if ← logBody (.writeSnapshot created faults snapshot) then logged (.installRewrite i)
    else logged .abortRewrite

def Operation.steps (journalled : Bool) (fuel : ℕ) : Operation → LockProg Unit
  | .op o => (fun _ => ()) <$> o.program.expand (withLocks journalled)
  | .len => (fun _ => ()) <$> Store.len.expand (withLocks journalled)
  | .used => (fun _ => ()) <$> Store.used.expand (withLocks journalled)
  | .enforceMemoryLimit =>
    (fun _ => ()) <$> (Store.enforceMemoryLimit fuel).expand (withLocks journalled)
  | .expireSample n => (fun _ => ()) <$> (Store.expireSample n).expand (withLocks journalled)
  | .activeExpireCycle => (fun _ => ()) <$> Store.activeExpireCycle.expand (withLocks journalled)
  | .aofSnapshot => (fun _ => ()) <$> Store.aofSnapshot.expand (withLocks journalled)
  | .append args => logged (.append args)
  | .sync synced => logged (.sync synced)
  | .flush => logged .flush
  | .err => logged .err
  | .close synced => logged (.close synced)
  | .beginRewrite => logged .beginRewrite
  | .finishRewrite created faults snapshot i => Store.finishRewrite created faults snapshot i

def clientSteps (journalled : Bool) (fuel : ℕ) : List Operation → LockProg Unit
  | [] => return ()
  | o :: ops => do
    o.steps journalled fuel
    clientSteps journalled fuel ops

section Rules

def Kept.holds (journalled : Bool) (h : Kept) : Mutex → Hold
  | .commitMu => if journalled ∧ h.gate then .writing else .free
  | .shard i => if i ∈ h.shards then .writing else .free
  | .log => .free

abbrev Passes (h h' : Mutex → Hold) {α : Type} (p : LockProg α) : Prop := Carries lockRule h h' p

variable {h h' h'' : Mutex → Hold} {α β : Type}

lemma Passes.bind {p : LockProg α} {f : α → LockProg β} (hp : Passes h h' p)
    (hf : ∀ a, Passes h' h'' (f a)) : Passes h h'' (p >>= f) := Carries.bind hp hf

lemma Passes.act {a : (locking sections Mutex).Act} (ha : lockRule (S := sections) h a h') :
    Passes h h' (Program.call (S := locking sections Mutex) a) := Carries.last ha

lemma passes_body (a : Act) : Passes h h (body a) := .act rfl

lemma passes_logBody (a : LogSection) : Passes h h (logBody a) := .act rfl

lemma passes_lock {l : Mutex} (hl : ∀ m, h m ≠ .free → m < l) :
    Passes h (Function.update h l .writing) (lock l) := by
  refine Passes.bind (.act ⟨hl, rfl⟩) fun _ =>
    .act ⟨Function.update_self .., fun m hm => ?_, (Function.update_idem ..).symm⟩
  by_cases he : m = l
  · exact .inl he
  · rw [Function.update_of_ne he] at hm
    exact .inr (hl m hm)

lemma passes_unlock {l : Mutex} (hl : h l = .writing) :
    Passes h (Function.update h l .free) (unlock l) := .act ⟨hl, rfl⟩

lemma passes_giveBack {l : Mutex} (hl : h l = .free) :
    Passes (Function.update h l .writing) h (unlock l) := by
  have hunlock := passes_unlock (Function.update_self l Hold.writing h)
  rwa [Function.update_idem, ← hl, Function.update_eq_self] at hunlock

lemma passes_locked {l : Mutex} (hl : ∀ m, h m ≠ .free → m < l) {p : LockProg α}
    (hp : Passes (Function.update h l .writing) (Function.update h l .writing) p)
    (f : α → LockProg β) (hf : ∀ a, Passes h h' (f a)) :
    Passes h h' (lock l >>= fun _ => p >>= fun a => unlock l >>= fun _ => f a) := by
  have hfree : h l = .free := by_contra fun hx => lt_irrefl l (hl l hx)
  exact (passes_lock hl).bind fun _ => hp.bind fun a => (passes_giveBack hfree).bind fun _ => hf a

lemma passes_reading {i : ShardId} (hi : ∀ m, h m ≠ .free → m < .shard i) (a : Act) :
    Passes h h (reading i a) := by
  have hfree : h (.shard i) = .free := by_contra fun hx => lt_irrefl _ (hi _ hx)
  refine Passes.bind (.act ⟨hi, rfl⟩) fun _ => (passes_body a).bind fun r => ?_
  refine Passes.bind (.act ⟨Function.update_self .., rfl⟩) fun _ => ?_
  rw [Function.update_idem, ← hfree, Function.update_eq_self]
  exact .done r

lemma passes_writing {i : ShardId} (hi : ∀ m, h m ≠ .free → m < .shard i) (a : Act) :
    Passes h h (writing i a) :=
  passes_locked hi (passes_body a) _ .done

lemma passes_logged (hl : ∀ m, h m ≠ .free → m < .log) (a : LogSection) : Passes h h (logged a) :=
  passes_locked hl (passes_logBody a) _ .done

lemma Kept.holds_none (journalled : Bool) (m : Mutex) : Kept.none.holds journalled m = .free := by
  cases m <;> simp [Kept.none, Kept.holds]

lemma Kept.holds_below_log {journalled : Bool} (h : Kept) :
    ∀ m, h.holds journalled m ≠ .free → m < .log := by
  intro m hm
  rw [Mutex.lt_iff]
  cases m with
  | commitMu => exact Nat.succ_pos _
  | shard i => exact Nat.succ_lt_succ i.isLt
  | log => exact absurd rfl hm

lemma Kept.holds_below_shard {journalled : Bool} {h : Kept} {i : ShardId}
    (hi : ∀ j ∈ h.shards, j < i) : ∀ m, h.holds journalled m ≠ .free → m < .shard i := by
  intro m hm
  rw [Mutex.lt_iff]
  cases m with
  | commitMu => exact Nat.succ_pos _
  | shard j => exact Nat.succ_lt_succ (hi j (by_contra fun hj => hm (if_neg hj)))
  | log => exact absurd rfl hm

lemma Kept.holds_locked (shards : Finset ShardId) :
    Kept.holds true ⟨true, shards⟩ = Function.update (Kept.holds true ⟨false, shards⟩)
      .commitMu .writing := by
  funext m
  cases m <;> simp [Kept.holds]

lemma Kept.holds_unlocked (shards : Finset ShardId) :
    Kept.holds true ⟨false, shards⟩ = Function.update (Kept.holds true ⟨true, shards⟩)
      .commitMu .free := by
  funext m
  cases m <;> simp [Kept.holds]

lemma Kept.holds_false (b b' : Bool) (shards : Finset ShardId) :
    Kept.holds false ⟨b, shards⟩ = Kept.holds false ⟨b', shards⟩ := by
  funext m
  cases m <;> simp [Kept.holds]

lemma Kept.holds_insert (journalled : Bool) (h : Kept) (i : ShardId) :
    Kept.holds journalled { h with shards := insert i h.shards } =
      Function.update (h.holds journalled) (.shard i) .writing := by
  funext m
  cases m with
  | shard j => by_cases hj : j = i <;> simp [Kept.holds, hj]
  | _ => rfl

lemma Kept.holds_erase (journalled : Bool) (h : Kept) (i : ShardId) :
    Kept.holds journalled { h with shards := h.shards.erase i } =
      Function.update (h.holds journalled) (.shard i) .free := by
  funext m
  cases m with
  | shard j => by_cases hj : j = i <;> simp [Kept.holds, hj]
  | _ => rfl

lemma withLocks_passes {journalled : Bool} {h h' : Kept} {a : Act} (ha : a.rule h h') :
    Passes (h.holds journalled) (h'.holds journalled) (withLocks journalled a) := by
  have hshard (he : h.shards = ∅) (i : ShardId) : ∀ m, h.holds journalled m ≠ .free →
      m < .shard i :=
    Kept.holds_below_shard (by simp [he])
  cases a with
  | lockDurableMutation =>
    obtain ⟨rfl, rfl⟩ := ha
    cases journalled with
    | false =>
      rw [Kept.holds_false true false]
      exact passes_body _
    | true =>
      rw [Kept.holds_locked]
      exact passes_lock fun m hm => absurd (Kept.holds_none true m) hm
  | unlockDurableMutation =>
    obtain ⟨hg, rfl⟩ := ha
    cases journalled with
    | false =>
      rw [Kept.holds_false false h.gate]
      exact passes_body _
    | true =>
      obtain ⟨gate, shards⟩ := h
      obtain rfl : gate = true := hg
      rw [Kept.holds_unlocked]
      exact passes_unlock (by simp [Kept.holds])
  | lockShard i =>
    obtain ⟨hi, rfl⟩ := ha
    rw [Kept.holds_insert]
    exact passes_lock (Kept.holds_below_shard hi)
  | unlockShard i =>
    obtain ⟨hi, rfl⟩ := ha
    rw [Kept.holds_erase]
    exact passes_unlock (if_pos hi)
  | propagate record =>
    obtain ⟨-, rfl⟩ := ha
    simp only [withLocks]
    split_ifs
    · refine (passes_lock (Kept.holds_below_log _)).bind fun _ => (passes_body _).bind fun _ =>
        (passes_logBody _).bind fun _ => ?_
      exact passes_giveBack rfl
    · exact passes_body _
  | getRead | lookup | shardUsed | shardLen | shardLive | shardSnapshot | sampleShard =>
    obtain ⟨he, rfl⟩ := ha
    exact passes_reading (hshard (he rfl) _) _
  | getCollect | set | delete | expireShard =>
    obtain ⟨he, rfl⟩ := ha
    exact passes_writing (hshard (he rfl) _) _
  | _ =>
    obtain ⟨-, rfl⟩ := ha
    exact passes_body _

lemma withLocks_act (journalled : Bool) (a : Act) : ∃ b k, withLocks journalled a = .act b k := by
  cases a <;> cases journalled <;> exact ⟨_, _, rfl⟩

end Rules

section Clients

variable (journalled : Bool)

def noLocks : Mutex → Hold := fun _ => .free

lemma keeps_expand {α : Type} {p : Prog α} {n : ℕ}
    (hp : Keeps Act.rule (fun _ g => g = .none) n .none p) :
    Keeps lockRule (fun _ g => g = noLocks) n noLocks
      ((fun _ => ()) <$> p.expand (withLocks journalled)) := by
  have hnone : Kept.none.holds journalled = noLocks := funext (Kept.holds_none journalled)
  have hexp : Keeps lockRule (fun _ g => g = noLocks) n (Kept.none.holds journalled)
      (p.expand (withLocks journalled)) :=
    hp.expand (withLocks_act journalled) (fun h a h' n ha => (withLocks_passes ha).keeps n)
      fun _ _ hg => by rw [hg, hnone]
  rw [hnone] at hexp
  rw [map_eq_pure_bind]
  exact hexp.bind fun _ _ _ _ hg => .done hg

lemma passes_finishRewrite (created : Bool) (faults : Faults) (snapshot : List (List Bytes))
    (i : Log.Install) : Passes noLocks noLocks (finishRewrite created faults snapshot i) := by
  refine (passes_logBody _).bind fun written => ?_
  cases written with
  | true => exact passes_logged (fun _ hm => absurd rfl hm) (.installRewrite i)
  | false => exact passes_logged (fun _ hm => absurd rfl hm) .abortRewrite

lemma keeps_operation {fuel n : ℕ} (hn : n ≤ fuel) (o : Operation) :
    Keeps lockRule (fun _ g => g = noLocks) n noLocks (o.steps journalled fuel) := by
  have hlog (a : LogSection) : Passes noLocks noLocks (logged a) :=
    passes_logged (fun _ hm => absurd rfl hm) a
  cases o with
  | op o => exact keeps_expand journalled ((leads_op o).keeps n)
  | len => exact keeps_expand journalled ((leads_len).keeps n)
  | used => exact keeps_expand journalled ((leads_used false).keeps n)
  | enforceMemoryLimit => exact keeps_expand journalled (keeps_enforceMemoryLimit hn)
  | expireSample k => exact keeps_expand journalled ((leads_expireSample k).keeps n)
  | activeExpireCycle => exact keeps_expand journalled ((leads_expireRounds _ 0 0).keeps n)
  | aofSnapshot => exact keeps_expand journalled ((leads_aofSnapshot).keeps n)
  | append args => exact (hlog (.append args)).keeps n
  | sync synced => exact (hlog (.sync synced)).keeps n
  | flush => exact (hlog .flush).keeps n
  | err => exact (hlog .err).keeps n
  | close synced => exact (hlog (.close synced)).keeps n
  | beginRewrite => exact (hlog .beginRewrite).keeps n
  | finishRewrite created faults snapshot i =>
    exact (passes_finishRewrite created faults snapshot i).keeps n

lemma keeps_client {fuel : ℕ} (ops : List Operation) : ∀ n ≤ fuel,
    Keeps lockRule (fun _ g => g = noLocks) n noLocks (clientSteps journalled fuel ops) := by
  induction ops with
  | nil => exact fun n _ => .done rfl
  | cons o ops ih =>
    intro n hn
    refine (keeps_operation journalled hn o).bind fun _ _ m hm hg => ?_
    subst hg
    exact ih m (hm.trans hn)

variable {ι : Type} [DecidableEq ι]

def atStart (fuel : ℕ) (s : Store) (l : Log) (clients : ι → List Operation) :
    Config (locking sections Mutex) ι Unit (Guarded (Store × Log) Mutex ι) :=
  .start ⟨(s, l), fun _ => .free ι⟩ fun t => clientSteps s.journal.isSome fuel (clients t)

/-- In a run of fewer steps than there is fuel for evictions, some client can go on as long as
there is one that has not come to its end, and those who have hold no lock. -/
theorem operations_never_deadlock (s : Store) (l : Log) (faults : Faults)
    (clients : ι → List Operation) (inputs : ι → ℕ → Input) (schedule : List ι) (fuel : ℕ)
    (hfuel : schedule.length < fuel) :
    let c := (atStart fuel s l clients).after (Guarded.act (performSection faults)) inputs schedule
    ((∃ t, c.result t = none) →
      ∃ t, (c.next (Guarded.act (performSection faults)) inputs t).isSome) ∧
      ∀ t, (c.result t).isSome → ∀ m, (c.world.table m).writer ≠ some t ∧
      t ∉ (c.world.table m).readers := by
  intro c
  have hstart : Orderly (atStart fuel s l clients)
      (fuel - schedule.length - 1 + 1 + schedule.length) fun _ => noLocks :=
    ⟨HeldBy.free, fun t => keeps_client s.journal.isSome (clients t) _ (by omega)⟩
  obtain ⟨holds, h⟩ : ∃ holds, Orderly c (fuel - schedule.length - 1 + 1) holds :=
    hstart.after schedule
  refine ⟨fun ⟨t, ht⟩ => h.progress ht, fun t ht m => ?_⟩
  obtain ⟨b, hb⟩ := Option.isSome_iff_exists.1 ht
  exact h.released hb m

def crossing : Fin 2 → List Operation :=
  ![[.op (.del [ascii "a", ascii "b"])], [.op (.del [ascii "b", ascii "a"])]]

theorem operations_never_deadlock_crossing :
    let c := (atStart 20 Store.new.setJournal (.openLog .always []) crossing).after
      (Guarded.act (performSection fun _ => none)) (fun _ _ => ⟨0, .stored⟩)
      [0, 0, 0, 1, 1, 1, 1, 0, 0, 1]
    c.result 1 = none ∧ ∃ t,
    (c.next (Guarded.act (performSection fun _ => none)) (fun _ _ => ⟨0, .stored⟩) t).isSome := by
  intro c
  have hr : c.result 1 = none := by decide +kernel
  exact ⟨hr,
    (operations_never_deadlock Store.new.setJournal (.openLog .always []) (fun _ => none) crossing
    (fun _ _ => ⟨0, .stored⟩) [0, 0, 0, 1, 1, 1, 1, 0, 0, 1] 20 (by decide)).1 ⟨1, hr⟩⟩

end Clients

end RedisClone.Store
