import RedisClone.Basic
import Mathlib.Data.List.AList

namespace RedisClone.Store

def shardCount : ℕ := 32

abbrev ShardId := Fin shardCount

def fnv1a (key : Key) : UInt64 :=
  key.foldl (fun h b => (h ^^^ b.toUInt64) * 1099511628211) 14695981039346656037

def shardIndex (key : Key) : ShardId :=
  ⟨(fnv1a key &&& 31).toNat % shardCount, Nat.mod_lt _ (by decide)⟩

abbrev GoMap (V : Type) := AList (fun _ : Key => V)

/-- The order in which one `range` statement visits a map: any order at all. -/
structure MapOrder where
  keys : List Key → List Key
  perm : ∀ l, (keys l).Perm l

def MapOrder.stored : MapOrder := ⟨id, fun _ => .refl _⟩

structure Entry where
  val : Bytes
  atime : ℕ
  expiresAt : Time
  deriving DecidableEq, Repr

def expiredAt (expiresAt : Time) (now : ℤ) : Bool :=
  match expiresAt with
  | none => false
  | some d => decide (d ≤ now)

def Entry.expired (e : Entry) (now : ℤ) : Bool := expiredAt e.expiresAt now

structure Shard where
  data : GoMap Entry
  expiring : GoMap Unit
  used : ℤ

def Shard.empty : Shard := ⟨∅, ∅, 0⟩

def entryOverhead : ℤ := 128

def entrySize (key : Key) (val : Bytes) : ℤ := key.length + val.length + entryOverhead

def Shard.size (sh : Shard) (key : Key) : ℤ :=
  match sh.data.lookup key with
  | some e => entrySize key e.val
  | none => 0

def Shard.set (sh : Shard) (clock : ℕ) (key : Key) (val : Bytes) (expiresAt : Time) : Shard where
  data := sh.data.insert key ⟨val, clock, expiresAt⟩
  expiring := if expiresAt.isZero then sh.expiring.erase key else sh.expiring.insert key ()
  used := sh.used - sh.size key + entrySize key val

def Shard.delete (sh : Shard) (key : Key) : Shard where
  data := sh.data.erase key
  expiring := sh.expiring.erase key
  used := sh.used - sh.size key

def Shard.touch (sh : Shard) (clock : ℕ) (key : Key) : Shard :=
  match sh.data.lookup key with
  | none => sh
  | some e => { sh with data := sh.data.insert key { e with atime := clock } }

def Shard.setDeadline (sh : Shard) (key : Key) (e : Entry) (expiresAt : Time) : Shard :=
  { sh with
    data := sh.data.insert key { e with expiresAt := expiresAt }
    expiring := sh.expiring.insert key () }

/-- The sampler's walk over the volatile keys of one shard. It has its own copy of the
delete code, and drops an index entry whose key is gone. -/
def Shard.expireKeys (now : ℤ) (n : ℕ) : List Key → Shard → ℕ → ℕ → Shard × ℕ × ℕ
  | [], sh, scanned, expired => (sh, scanned, expired)
  | key :: keys, sh, scanned, expired =>
    if scanned = n then (sh, scanned, expired)
    else
      match sh.data.lookup key with
      | none =>
        expireKeys now n keys { sh with expiring := sh.expiring.erase key } (scanned + 1) expired
      | some e =>
        if e.expired now then
          expireKeys now n keys
            { data := sh.data.erase key
              expiring := sh.expiring.erase key
              used := sh.used - entrySize key e.val } (scanned + 1) (expired + 1)
        else expireKeys now n keys sh (scanned + 1) expired

end RedisClone.Store
