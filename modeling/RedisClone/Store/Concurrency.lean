import RedisClone.Lib.Interleaving
import RedisClone.Store.Keyspace

namespace RedisClone.Store

open Lib Lib.Program

/-- Who holds `commitMu` and the locks of the shards. The last field is the history of
`commitMu`: the threads that have taken it, in that order. -/
structure Locks (ι : Type) where
  gate : Option ι
  shards : ShardId → Option ι
  commits : List ι

def Locks.free (ι : Type) : Locks ι := ⟨none, fun _ => none, []⟩

def Act.within : Act → Option ShardId
  | .getRead key _ | .getCollect key | .lookup key | .set key _ _ | .delete key =>
    some (shardIndex key)
  | .shardUsed i | .shardLen i | .shardLive i _ | .shardSnapshot i _ | .expireShard i _ _ _
  | .sampleShard i _ => some i
  | _ => none

/-- The locks after an action, if the thread need not wait. Without a journal `commitMu` is
left alone. -/
def Locks.after {ι : Type} (t : ι) (journalled : Bool) (l : Locks ι) : Act → Option (Locks ι)
  | .lockDurableMutation =>
    if journalled then
      if l.gate.isNone then some { l with gate := some t, commits := l.commits ++ [t] } else none
    else some l
  | .unlockDurableMutation => some (if journalled then { l with gate := none } else l)
  | .lockShard i =>
    if (l.shards i).isNone then some { l with shards := Function.update l.shards i (some t) }
      else none
  | .unlockShard i => some { l with shards := Function.update l.shards i none }
  | a => if a.within.all fun i => (l.shards i).isNone then some l else none

lemma ActSpec.journal_isSome {a : Act} {i : Input} {r : a.Resp} {w w' : Image}
    (h : ActSpec a i r w w') : w'.journal.isSome = w.journal.isSome := by
  cases a with
  | propagate record =>
    obtain rfl := actSpec_propagate.1 h
    exact Option.isSome_map
  | getCollect key =>
    obtain rfl := actSpec_getCollect.1 h
    rfl
  | set key val expiresAt =>
    obtain rfl := actSpec_set.1 h
    rfl
  | delete key =>
    obtain rfl := actSpec_delete.1 h
    rfl
  | mset pairs =>
    obtain rfl := actSpec_mset.1 h
    rfl
  | del keys now =>
    obtain ⟨-, rfl⟩ := actSpec_del.1 h
    rfl
  | expireAt key deadline now =>
    obtain ⟨-, rfl⟩ := actSpec_expireAt.1 h
    rfl
  | expireShard j now n scanned => rw [(actSpec_expireShard.1 h).2]
  | _ => rw [ActSpec.unchanged rfl h]

structure World (ι : Type) where
  store : Store
  locks : Locks ι

def World.act {ι : Type} : Semantics sig ι Input (World ι) := fun t a i w =>
  (w.locks.after t w.store.journal.isSome a).map fun locks =>
    let done := perform a i w.store
    (done.1, ⟨done.2, locks⟩)

lemma World.act_perform {ι : Type} {t : ι} {a : Act} {i : Input} {r : a.Resp} {w w' : World ι}
    (h : World.act t a i w = some (r, w')) : perform a i w.store = (r, w'.store) := by
  obtain ⟨locks, -, he⟩ := Option.map_eq_some_iff.1 h
  obtain ⟨rfl, rfl⟩ := Prod.mk.inj he
  rfl

structure World.Acts {ι : Type} (t : ι) (a : Act) (i : Input) (r : a.Resp) (w w' : World ι) :
    Prop where
  locks : w.locks.after t w.store.journal.isSome a = some w'.locks
  wellFormed : WellFormed w'.store
  image : ActSpec a i r w.store.image w'.store.image

lemma World.act_spec {ι : Type} {t : ι} {a : Act} {i : Input} {r : a.Resp} {w w' : World ι}
    (hw : WellFormed w.store) (h : World.act t a i w = some (r, w')) : World.Acts t a i r w w' := by
  obtain ⟨locks, hl, he⟩ := Option.map_eq_some_iff.1 h
  have h₁ := perform_wellFormed a i w.store hw
  have h₂ := perform_spec a i w.store hw
  obtain ⟨rfl, rfl⟩ := Prod.mk.inj he
  exact ⟨hl, h₁, h₂⟩

abbrev Threads (ι α : Type) := Config sig ι α (World ι)

def booted {ι α : Type} (journalled : Bool) (maxMemory : ℤ) (policy : EvictionPolicy)
    (p : ι → Prog α) : Threads ι α :=
  .start ⟨configured journalled maxMemory policy, .free ι⟩ p

end RedisClone.Store
