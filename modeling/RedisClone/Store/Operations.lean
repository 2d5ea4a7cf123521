import RedisClone.Store.Store
import Mathlib.Data.List.Sort

namespace RedisClone.Store

open Lib Lib.Decimal

def get (key : Key) : Prog (Option Bytes) := do
  let now ← invoke .now
  match ← invoke (.getRead key now) with
  | .missing => return none
  | .hit val => return some val
  | .expired => do
    invoke (.getCollect key)
    return none

def setLocked (key : Key) (val : Bytes) (expiresAt : Time) : Prog Unit := do
  invoke (.set key val expiresAt)
  invoke (.propagate (setRecord key val expiresAt))

def setTo (key : Key) (val : Bytes) (expiresAt : Time) : Prog Unit := do
  invoke .lockDurableMutation
  setLocked key val expiresAt
  invoke .unlockDurableMutation

def set (key : Key) (val : Bytes) : Prog Unit := setTo key val none

def shardIds (keys : List Key) : List ShardId :=
  (keys.map shardIndex).eraseDups.insertionSort (· ≤ ·)

def lockAll : List ShardId → Prog Unit
  | [] => return ()
  | i :: ids => do
    invoke (.lockShard i)
    lockAll ids

def unlockAll : List ShardId → Prog Unit
  | [] => return ()
  | i :: ids => do
    invoke (.unlockShard i)
    unlockAll ids

def lockWriteShards (keys : List Key) : Prog (List ShardId) := do
  lockAll (shardIds keys)
  return shardIds keys

def unlockWriteShards (ids : List ShardId) : Prog Unit := unlockAll ids.reverse

def del (keys : List Key) : Prog ℕ := do
  let now ← invoke .now
  invoke .lockDurableMutation
  let ids ← lockWriteShards keys
  let (n, removed) ← invoke (.del keys now)
  if removed ≠ [] then
    invoke (.propagate (cmdDEL :: removed))
  invoke .unlockDurableMutation
  unlockWriteShards ids
  return n

def setWithTTL (key : Key) (val : Bytes) (ttl : ℤ) : Prog Unit := do
  if ttl ≤ 0 then
    let _ ← del [key]
  else
    let now ← invoke .now
    setTo key val (some (now + ttl))

def setWithDeadline (key : Key) (val : Bytes) (deadline : Time) : Prog Unit := do
  let now ← invoke .now
  if deadline.after now then
    setTo key val deadline
  else
    let _ ← del [key]

def msetRecord (pairs : List (Key × Bytes)) : Record :=
  cmdMSET :: pairs.flatMap fun p => [p.1, p.2]

def pairUp : List Bytes → List (Key × Bytes)
  | key :: val :: rest => (key, val) :: pairUp rest
  | _ => []

lemma pairUp_flatMap (pairs : List (Key × Bytes)) :
    pairUp (pairs.flatMap fun p => [p.1, p.2]) = pairs := by
  induction pairs with
  | nil => rfl
  | cons p pairs ih =>
    simp only [List.flatMap_cons, List.cons_append, List.nil_append, pairUp, ih]

def mset (pairs : List (Key × Bytes)) : Prog Unit := do
  invoke .lockDurableMutation
  let ids ← lockWriteShards (pairs.map Prod.fst)
  invoke (.mset pairs)
  invoke (.propagate (msetRecord pairs))
  invoke .unlockDurableMutation
  unlockWriteShards ids

def sumOverflows (n delta : ℤ) : Bool :=
  (decide (0 < delta) && decide (wrap64 (maxInt64 - delta) < n)) ||
    (decide (delta < 0) && decide (n < wrap64 (minInt64 - delta)))

def deleteIfExpired (key : Key) (now : ℤ) : Option Entry → Prog (Option Entry)
  | none => return none
  | some e =>
    if e.expired now then do
      invoke (.delete key)
      return none
    else return some e

def counterValue : Option Entry → Option ℤ
  | none => some 0
  | some e => parseInt64 e.val

def deadlineOf (e : Option Entry) : Time := e.bind Entry.expiresAt

def increment (key : Key) (delta : Int64) : Prog (Option ℤ) := do
  let now ← invoke .now
  invoke .lockDurableMutation
  let e ← deleteIfExpired key now (← invoke (.lookup key))
  match counterValue e with
  | none => do
    invoke .unlockDurableMutation
    return none
  | some n =>
    if sumOverflows n delta.toInt then do
      invoke .unlockDurableMutation
      return none
    else do
      let n := wrap64 (n + delta.toInt)
      setLocked key (formatInt n) (deadlineOf e)
      invoke .unlockDurableMutation
      return some n

def append (key : Key) (suffix : Bytes) : Prog ℕ := do
  let now ← invoke .now
  invoke .lockDurableMutation
  let e ← deleteIfExpired key now (← invoke (.lookup key))
  let val := (e.map Entry.val).getD [] ++ suffix
  setLocked key val (deadlineOf e)
  invoke .unlockDurableMutation
  return val.length

def expireAt (key : Key) (deadline : Time) : Prog Bool := do
  let now ← invoke .now
  invoke .lockDurableMutation
  invoke (.lockShard (shardIndex key))
  let answer ← invoke (.expireAt key deadline now)
  match answer with
  | .missing => pure ()
  | .collected | .deleted => invoke (.propagate [cmdDEL, key])
  | .kept d => invoke (.propagate [cmdPEXPIREAT, key, unixMillis d])
  invoke (.unlockShard (shardIndex key))
  invoke .unlockDurableMutation
  return match answer with
    | .missing | .collected => false
    | .deleted | .kept _ => true

def expire (key : Key) (ttl : ℤ) : Prog Bool := do
  let now ← invoke .now
  expireAt key (some (now + ttl))

inductive TTLAnswer
  | keyMissing
  | keyPersistent
  | keyVolatile (d : ℤ)
  deriving DecidableEq, Repr

/-- `Time.Sub` saturates at the ends of the 64-bit range. -/
def saturatingSub (t u : ℤ) : ℤ := max minInt64 (min maxInt64 (t - u))

def ttl (key : Key) : Prog TTLAnswer := do
  let now ← invoke .now
  match ← invoke (.lookup key) with
  | none => return .keyMissing
  | some e =>
    match e.expiresAt with
    | none => return .keyPersistent
    | some d => return if d ≤ now then .keyMissing else .keyVolatile (saturatingSub d now)

def countExisting (now : ℤ) : List Key → ℕ → Prog ℕ
  | [], n => return n
  | key :: keys, n => do
    match ← invoke (.lookup key) with
    | none => countExisting now keys n
    | some e => countExisting now keys (if e.expired now then n else n + 1)

def exists_ (keys : List Key) : Prog ℕ := do
  let now ← invoke .now
  countExisting now keys 0

def allShards : List ShardId := List.finRange shardCount

def sumShards {N : Type} [Add N] (subtotal : ShardId → Prog N) : List ShardId → N → Prog N
  | [], n => return n
  | i :: ids, n => do
    let m ← subtotal i
    sumShards subtotal ids (n + m)

def len : Prog ℕ := sumShards (fun i => invoke (.shardLen i)) allShards 0

def dbSize : Prog ℕ := do
  let now ← invoke .now
  sumShards (fun i => invoke (.shardLive i now)) allShards 0

def used : Prog ℤ := sumShards (fun i => invoke (.shardUsed i)) allShards 0

def snapshotShards (now : ℤ) : List ShardId → List Record → Prog (List Record)
  | [], out => return out
  | i :: ids, out => do
    let records ← invoke (.shardSnapshot i now)
    snapshotShards now ids (out ++ records)

def aofSnapshot : Prog (List Record) := do
  let now ← invoke .now
  let _ ← len
  snapshotShards now allShards []

def activeExpireSampleSize : ℕ := 20
def activeExpireMaxRounds : ℕ := 16

def expireShards (now : ℤ) (n : ℕ) : List ShardId → ℕ → ℕ → Prog (ℕ × ℕ)
  | [], scanned, expired => return (scanned, expired)
  | i :: ids, scanned, expired =>
    if scanned = n then return (scanned, expired)
    else do
      let (scanned, gone) ← invoke (.expireShard i now n scanned)
      expireShards now n ids scanned (expired + gone)

def expireSample (n : ℕ) : Prog (ℕ × ℕ) := do
  let now ← invoke .now
  invoke .tick
  expireShards now n allShards 0 0

def expireRounds : ℕ → ℕ → ℕ → Prog (ℕ × ℕ)
  | 0, scanned, expired => return (scanned, expired)
  | rounds + 1, scanned, expired => do
    let (n, gone) ← expireSample activeExpireSampleSize
    if n = 0 ∨ 4 * gone < n then return (scanned + n, expired + gone)
    else expireRounds rounds (scanned + n) (expired + gone)

def activeExpireCycle : Prog (ℕ × ℕ) := expireRounds activeExpireMaxRounds 0 0

def sampleShards : List ShardId → Sample → Prog (Option Key)
  | [], sample => return sample.best.map Prod.fst
  | i :: ids, sample => do
    match ← invoke (.sampleShard i sample) with
    | .victim key => return some key
    | .more sample =>
      if sample.scanned ≥ evictSampleSize then return sample.best.map Prod.fst
      else sampleShards ids sample

def pickVictim : Prog (Option Key) := sampleShards allShards ⟨none, 0⟩

inductive Enforced
  | running (evicted : ℕ)
  | finished (evicted : ℕ) (ok : Bool)
  deriving DecidableEq, Repr

/-- The eviction loop for at most `fuel` rounds. One that has not come to an end by then
is still running: it has not returned and keeps the commit gate. -/
def evictLoop (maxMemory : ℤ) : ℕ → ℕ → Prog Enforced
  | 0, evicted => return .running evicted
  | fuel + 1, evicted => do
    if (← used) > maxMemory then
      match ← pickVictim with
      | none => do
        invoke .unlockDurableMutation
        return .finished evicted false
      | some key => do
        invoke (.delete key)
        invoke .evicted
        invoke (.propagate [cmdDEL, key])
        evictLoop maxMemory fuel (evicted + 1)
    else do
      invoke .unlockDurableMutation
      return .finished evicted true

def enforceMemoryLimit (fuel : ℕ) : Prog Enforced := do
  let (maxMemory, policy) ← invoke .config
  if maxMemory ≤ 0 then return .finished 0 true
  else do
    invoke .lockDurableMutation
    if (← used) ≤ maxMemory then do
      invoke .unlockDurableMutation
      return .finished 0 true
    else if policy = .noEviction then do
      invoke .unlockDurableMutation
      return .finished 0 false
    else evictLoop maxMemory fuel 0

inductive Op
  | get (key : Key)
  | set (key : Key) (val : Bytes)
  | setWithTTL (key : Key) (val : Bytes) (ttl : ℤ)
  | setWithDeadline (key : Key) (val : Bytes) (deadline : Time)
  | mset (pairs : List (Key × Bytes))
  | increment (key : Key) (delta : Int64)
  | append (key : Key) (suffix : Bytes)
  | expire (key : Key) (ttl : ℤ)
  | expireAt (key : Key) (deadline : Time)
  | ttl (key : Key)
  | del (keys : List Key)
  | exists_ (keys : List Key)
  | dbSize
  deriving DecidableEq, Repr

inductive Answer
  | unit
  | value (val : Option Bytes)
  | number (n : Option ℤ)
  | count (n : ℕ)
  | flag (b : Bool)
  | ttl (t : TTLAnswer)
  deriving DecidableEq, Repr

def Op.program : Op → Prog Answer
  | .get key => .value <$> Store.get key
  | .set key val => (fun _ => .unit) <$> Store.set key val
  | .setWithTTL key val d => (fun _ => .unit) <$> Store.setWithTTL key val d
  | .setWithDeadline key val deadline => (fun _ => .unit) <$> Store.setWithDeadline key val deadline
  | .mset pairs => (fun _ => .unit) <$> Store.mset pairs
  | .increment key delta => .number <$> Store.increment key delta
  | .append key suffix => .count <$> Store.append key suffix
  | .expire key d => .flag <$> Store.expire key d
  | .expireAt key deadline => .flag <$> Store.expireAt key deadline
  | .ttl key => .ttl <$> Store.ttl key
  | .del keys => .count <$> Store.del keys
  | .exists_ keys => .count <$> Store.exists_ keys
  | .dbSize => .count <$> Store.dbSize

inductive Call
  | op (o : Op)
  | activeExpireCycle
  | enforceMemoryLimit (fuel : ℕ)
  deriving DecidableEq, Repr

inductive Reply
  | answer (a : Answer)
  | expired (scanned expired : ℕ)
  | enforced (e : Enforced)
  deriving DecidableEq, Repr

def Call.program : Call → Prog Reply
  | .op o => .answer <$> o.program
  | .activeExpireCycle => (fun r => .expired r.1 r.2) <$> Store.activeExpireCycle
  | .enforceMemoryLimit fuel => .enforced <$> Store.enforceMemoryLimit fuel

def exec {α : Type} (p : Prog α) (inputs : ℕ → Input) (s : Store) : α × ℕ × Store :=
  p.run perform inputs s

lemma exec_done {α : Type} (b : α) (inputs : ℕ → Input) (s : Store) :
    exec (.done b) inputs s = (b, 0, s) := rfl

lemma exec_act {α : Type} (a : Act) (f : a.Resp → Prog α) (inputs : ℕ → Input) (s : Store) :
    exec (invoke a >>= f) inputs s =
      ((exec (f (perform a (inputs 0) s).1) (Program.shift 1 inputs) (perform a (inputs 0) s).2).1,
        (exec (f (perform a (inputs 0) s).1) (Program.shift 1 inputs)
          (perform a (inputs 0) s).2).2.1 + 1,
        (exec (f (perform a (inputs 0) s).1) (Program.shift 1 inputs)
          (perform a (inputs 0) s).2).2.2) := rfl

lemma exec_bind {α β : Type} (p : Prog α) (f : α → Prog β) (inputs : ℕ → Input) (s : Store) :
    exec (p >>= f) inputs s =
      let first := exec p inputs s
      let rest := exec (f first.1) (Program.shift first.2.1 inputs) first.2.2
      (rest.1, rest.2.1 + first.2.1, rest.2.2) :=
  Program.run_bind (S := sig) perform p f inputs s

lemma exec_congr {α : Type} (p : Prog α) {inputs inputs' : ℕ → Input} {s : Store}
    (h : ∀ i < (exec p inputs s).2.1, inputs' i = inputs i) : exec p inputs' s = exec p inputs s :=
  Program.run_congr (S := sig) perform p h

lemma exec_map {α β : Type} (p : Prog α) (f : α → β) (inputs : ℕ → Input) (s : Store) :
    exec (f <$> p) inputs s = (f (exec p inputs s).1, (exec p inputs s).2) := by
  rw [map_eq_pure_bind, exec_bind]
  simp [exec_done]

end RedisClone.Store
