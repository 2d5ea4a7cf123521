import RedisClone.Store.Shard
import RedisClone.Lib.Program

/-! The keyspace and its operations. An operation is a program whose actions are the
critical sections of the source: what stands between a lock and its unlock is one
action, and the local code after it runs with it. -/

namespace RedisClone

open Lib Lib.Decimal

abbrev Record := List Bytes

inductive EvictionPolicy
  | noEviction
  | allKeysLRU
  | allKeysRandom
  | volatileLRU
  deriving DecidableEq, Repr

structure Stats where
  keyspaceHits : ℕ
  keyspaceMisses : ℕ
  evictedKeys : ℕ
  expiredKeys : ℕ
  deriving DecidableEq, Repr

/-- `journal` is `none` when durability is off; otherwise it holds the records given
to `Journal.Append` so far. -/
structure Store where
  shards : Store.ShardId → Store.Shard
  journal : Option (List Record)
  maxMemory : ℤ
  policy : EvictionPolicy
  clock : ℕ
  stats : Stats

namespace Store

def new : Store where
  shards _ := .empty
  journal := none
  maxMemory := 0
  policy := .noEviction
  clock := 0
  stats := ⟨0, 0, 0, 0⟩

def setJournal (s : Store) : Store := { s with journal := some [] }

def setMemoryLimit (s : Store) (maxMemory : ℤ) (policy : EvictionPolicy) : Store :=
  { s with maxMemory := maxMemory, policy := policy }

def readShard (s : Store) (key : Key) : Shard := s.shards (shardIndex key)

def lookup (s : Store) (key : Key) : Option Entry := (s.readShard key).data.lookup key

def updateShard (s : Store) (i : ShardId) (sh : Shard) : Store :=
  { s with shards := Function.update s.shards i sh }

def setLockedInWriteLockedShard (s : Store) (key : Key) (val : Bytes) (expiresAt : Time) : Store :=
  s.updateShard (shardIndex key) ((s.readShard key).set s.clock key val expiresAt)

def deleteLockedInWriteLockedShard (s : Store) (key : Key) : Store :=
  s.updateShard (shardIndex key) ((s.readShard key).delete key)

def propagate (s : Store) (record : Record) : Store :=
  { s with journal := s.journal.map (· ++ [record]) }

structure Input where
  time : ℤ
  order : MapOrder

inductive GetAnswer
  | missing
  | hit (val : Bytes)
  | expired
  deriving DecidableEq, Repr

inductive ExpireAnswer
  | missing
  | collected
  | deleted
  | kept (d : ℤ)
  deriving DecidableEq, Repr

def evictSampleSize : ℕ := 5

structure Sample where
  best : Option (Key × ℕ)
  scanned : ℕ
  deriving DecidableEq, Repr

inductive SampleAnswer
  | victim (key : Key)
  | more (sample : Sample)
  deriving DecidableEq, Repr

inductive Act
  | now
  | config
  | stats
  | lockDurableMutation
  | unlockDurableMutation
  | lockShard (i : ShardId)
  | unlockShard (i : ShardId)
  | propagate (record : Record)
  | getRead (key : Key) (now : ℤ)
  | getCollect (key : Key)
  | lookup (key : Key)
  | set (key : Key) (val : Bytes) (expiresAt : Time)
  | delete (key : Key)
  | mset (pairs : List (Key × Bytes))
  | del (keys : List Key) (now : ℤ)
  | expireAt (key : Key) (deadline : Time) (now : ℤ)
  | shardUsed (i : ShardId)
  | shardLen (i : ShardId)
  | shardLive (i : ShardId) (now : ℤ)
  | shardSnapshot (i : ShardId) (now : ℤ)
  | tick
  | expireShard (i : ShardId) (now : ℤ) (n scanned : ℕ)
  | sampleShard (i : ShardId) (sample : Sample)
  | evicted

@[reducible] def Act.Resp : Act → Type
  | .now => ℤ
  | .config => ℤ × EvictionPolicy
  | .stats => Stats
  | .getRead _ _ => GetAnswer
  | .lookup _ => Option Entry
  | .del _ _ => ℕ × List Key
  | .expireAt _ _ _ => ExpireAnswer
  | .shardUsed _ => ℤ
  | .shardLen _ | .shardLive _ _ => ℕ
  | .shardSnapshot _ _ => List Record
  | .expireShard _ _ _ _ => ℕ × ℕ
  | .sampleShard _ _ => SampleAnswer
  | _ => Unit

@[reducible] def sig : Signature := ⟨Act, Act.Resp⟩

abbrev Prog (α : Type) := Program sig α

abbrev invoke (a : Act) : Prog a.Resp := Program.call (S := sig) a

def getReadSection (s : Store) (key : Key) (now : ℤ) : GetAnswer × Store :=
  match s.lookup key with
  | none => (.missing, { s with stats.keyspaceMisses := s.stats.keyspaceMisses + 1 })
  | some e =>
    if e.expired now then (.expired, s)
    else
      (.hit e.val, { s.updateShard (shardIndex key) ((s.readShard key).touch s.clock key) with
        stats.keyspaceHits := s.stats.keyspaceHits + 1 })

def getCollectSection (s : Store) (key : Key) (now : ℤ) : Store :=
  match s.lookup key with
  | none => s
  | some e => if e.expired now then s.deleteLockedInWriteLockedShard key else s

def msetSection (s : Store) (pairs : List (Key × Bytes)) : Store :=
  pairs.foldl (fun s p => s.setLockedInWriteLockedShard p.1 p.2 none) s

def delSection (now : ℤ) : List Key → Store → (ℕ × List Key) × Store
  | [], s => ((0, []), s)
  | key :: keys, s =>
    match s.lookup key with
    | none => delSection now keys s
    | some e =>
      let rest := delSection now keys (s.deleteLockedInWriteLockedShard key)
      ((rest.1.1 + if e.expired now then 0 else 1, key :: rest.1.2), rest.2)

def expireAtSection (s : Store) (key : Key) (deadline : Time) (now : ℤ) : ExpireAnswer × Store :=
  match s.lookup key with
  | none => (.missing, s)
  | some e =>
    if e.expired now then (.collected, s.deleteLockedInWriteLockedShard key)
    else
      match deadline with
      | none => (.deleted, s.deleteLockedInWriteLockedShard key)
      | some d =>
        if now < d then
          (.kept d, s.updateShard (shardIndex key) ((s.readShard key).setDeadline key e (some d)))
        else (.deleted, s.deleteLockedInWriteLockedShard key)

def cmdSET : Bytes := ascii "SET"
def cmdMSET : Bytes := ascii "MSET"
def cmdDEL : Bytes := ascii "DEL"
def cmdPXAT : Bytes := ascii "PXAT"
def cmdPEXPIREAT : Bytes := ascii "PEXPIREAT"

def unixMillis (t : ℤ) : Bytes := formatInt (unixMilli t)

def setRecord (key : Key) (val : Bytes) : Time → Record
  | none => [cmdSET, key, val]
  | some d => [cmdSET, key, val, cmdPXAT, unixMillis d]

def shardSnapshotSection (sh : Shard) (now : ℤ) (order : MapOrder) : List Record :=
  (order.keys sh.data.keys).filterMap fun key =>
    (sh.data.lookup key).bind fun e =>
      if e.expired now then none else some (setRecord key e.val e.expiresAt)

def sampleKeys (s : Store) : List Key → Sample → Sample
  | [], sample => sample
  | key :: keys, sample =>
    match s.lookup key with
    | none => sampleKeys s keys sample
    | some e =>
      let best :=
        match sample.best with
        | none => some (key, e.atime)
        | some (k, a) => if e.atime < a then some (key, e.atime) else some (k, a)
      let sample : Sample := ⟨best, sample.scanned + 1⟩
      if sample.scanned < evictSampleSize then sampleKeys s keys sample else sample

def sampleShardSection (s : Store) (i : ShardId) (sample : Sample) (order : MapOrder) :
    SampleAnswer :=
  match s.policy with
  | .volatileLRU => .more (sampleKeys s (order.keys (s.shards i).expiring.keys) sample)
  | .allKeysRandom =>
    match order.keys (s.shards i).data.keys with
    | [] => .more sample
    | key :: _ => .victim key
  | _ => .more (sampleKeys s (order.keys (s.shards i).data.keys) sample)

def expireShardSection (s : Store) (i : ShardId) (now : ℤ) (n scanned : ℕ) (order : MapOrder) :
    (ℕ × ℕ) × Store :=
  let walked := Shard.expireKeys now n (order.keys (s.shards i).expiring.keys)
    (s.shards i) scanned 0
  (walked.2,
    { s.updateShard i walked.1 with stats.expiredKeys := s.stats.expiredKeys + walked.2.2 })

def perform : (a : Act) → Input → Store → a.Resp × Store
  | .now, i, s => (i.time, s)
  | .config, _, s => ((s.maxMemory, s.policy), s)
  | .stats, _, s => (s.stats, s)
  | .lockDurableMutation, _, s => ((), s)
  | .unlockDurableMutation, _, s => ((), s)
  | .lockShard _, _, s => ((), s)
  | .unlockShard _, _, s => ((), s)
  | .propagate record, _, s => ((), s.propagate record)
  | .getRead key now, _, s => s.getReadSection key now
  | .getCollect key, i, s => ((), s.getCollectSection key i.time)
  | .lookup key, _, s => (s.lookup key, s)
  | .set key val expiresAt, _, s => ((), s.setLockedInWriteLockedShard key val expiresAt)
  | .delete key, _, s => ((), s.deleteLockedInWriteLockedShard key)
  | .mset pairs, _, s => ((), s.msetSection pairs)
  | .del keys now, _, s => delSection now keys s
  | .expireAt key deadline now, _, s => s.expireAtSection key deadline now
  | .shardUsed i, _, s => ((s.shards i).used, s)
  | .shardLen i, _, s => ((s.shards i).data.keys.length, s)
  | .shardLive i now, _, s =>
    (((s.shards i).data.entries.filter fun e => !e.2.expired now).length, s)
  | .shardSnapshot i now, inp, s => (shardSnapshotSection (s.shards i) now inp.order, s)
  | .tick, _, s => ((), { s with clock := s.clock + 1 })
  | .expireShard i now n scanned, inp, s => s.expireShardSection i now n scanned inp.order
  | .sampleShard i sample, inp, s => (s.sampleShardSection i sample inp.order, s)
  | .evicted, _, s => ((), { s with stats.evictedKeys := s.stats.evictedKeys + 1 })

end Store

end RedisClone
