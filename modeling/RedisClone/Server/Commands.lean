import RedisClone.Store.Operations
import RedisClone.Resp.Writer

namespace RedisClone.Server

open Store Resp Lib.Decimal

/-- The functions of the Go library that the handlers call on text from the wire. -/
structure Platform where
  toUpper : Bytes → Bytes
  toLower : Bytes → Bytes
  equalFold : Bytes → Bytes → Bool
  pathMatch : Bytes → Bytes → Option Bool
  toUpper_ascii : ∀ s, (∀ b ∈ s, b < 128) → toUpper s = s.map upperByte
  toLower_ascii : ∀ s, (∀ b ∈ s, b < 128) → toLower s = s.map lowerByte

def Platform.asciiOnly : Platform where
  toUpper s := s.map upperByte
  toLower s := s.map lowerByte
  equalFold s t := decide (s.map upperByte = t.map upperByte)
  pathMatch pattern name := some (decide (pattern = name))
  toUpper_ascii _ _ := rfl
  toLower_ascii _ _ := rfl

/-- What a handler writes. A handler that indexes past its arguments panics before it has
written anything: the empty response. -/
abbrev Response := List WriteCall

structure Config where
  appendOnly : Bool
  appendFsync : Bytes
  appendFilename : Bytes
  dir : Bytes

structure Settings where
  platform : Platform
  aof : Bool
  config : Config

/-- What the rest of the process shows to one command: the latched error of the log, the
outcome of `BeginRewrite`, and the server's own counters. -/
structure Surroundings where
  aofErr : Option Bytes
  beginRewriteErr : Option Bytes
  connectedClients : ℤ
  commandCalls : ℕ

def ok : Response := [.simpleString (ascii "OK")]
def errSyntax : Response := [.error (ascii "ERR syntax error")]
def errInteger : Response := [.error (ascii "ERR value is not an integer or out of range")]

def safeNameByte (c : UInt8) : UInt8 :=
  if 0x20 ≤ c ∧ c < 0x7f ∧ c ≠ byteOf '\'' then c else byteOf '.'

def safeName (name : Bytes) : Bytes :=
  (name.take 128).map safeNameByte ++ if 128 < name.length then ascii "..." else []

def wrongArity (P : Platform) (name : Bytes) : Response :=
  [.error
    (ascii "ERR wrong number of arguments for '" ++ P.toLower (safeName name) ++ ascii "' command")]

def parseTTL (arg : Bytes) (unit : ℤ) : Option ℤ :=
  match parseInt64 arg with
  | none => none
  | some n => if maxInt64.tdiv unit < n ∨ n < minInt64.tdiv unit then none else some (n * unit)

structure ExpiryOption where
  unit : ℤ
  absolute : Bool

def expiryOptions (name : Bytes) : Option ExpiryOption :=
  if name = ascii "EX" then some ⟨nanosPerSecond, false⟩
  else if name = ascii "PX" then some ⟨nanosPerMilli, false⟩
  else if name = ascii "EXAT" then some ⟨nanosPerSecond, true⟩
  else if name = ascii "PXAT" then some ⟨nanosPerMilli, true⟩
  else none

def epochPlus (d : ℤ) : Time := some d

def ping : List Bytes → Prog Response
  | [msg] => return [.bulkString msg]
  | _ => return [.simpleString (ascii "PONG")]

def echo : List Bytes → Prog Response
  | msg :: _ => return [.bulkString msg]
  | [] => return []

def set (P : Platform) : List Bytes → Prog Response
  | [key, val] => do
    Store.set key val
    return ok
  | [key, val, opt, arg] =>
    match expiryOptions (P.toUpper opt) with
    | none => return errSyntax
    | some opt =>
      match parseTTL arg opt.unit with
      | none => return errInteger
      | some n =>
        if n ≤ 0 then return [.error (ascii "ERR invalid expire time in 'set' command")]
        else if opt.absolute then do
          setWithDeadline key val (epochPlus n)
          return ok
        else do
          setWithTTL key val n
          return ok
  | _ :: _ :: _ => return errSyntax
  | _ => return []

def bulkOrNull : Option Bytes → WriteCall
  | none => .nullBulkString
  | some v => .bulkString v

def get : List Bytes → Prog Response
  | key :: _ => do
    let v ← Store.get key
    return [bulkOrNull v]
  | [] => return []

def mgetValues : List Bytes → Prog Response
  | [] => return []
  | key :: keys => do
    let v ← Store.get key
    let rest ← mgetValues keys
    return bulkOrNull v :: rest

def mget (keys : List Bytes) : Prog Response := do
  let values ← mgetValues keys
  return .arrayHeader keys.length :: values

def mset (P : Platform) (args : List Bytes) : Prog Response :=
  if args.length % 2 ≠ 0 then return wrongArity P (ascii "MSET")
  else do
    Store.mset (pairUp args)
    return ok

def increment (delta : Int64) : List Bytes → Prog Response
  | key :: _ => do
    match ← Store.increment key delta with
    | none => return errInteger
    | some n => return [.integer n]
  | [] => return []

def incr (args : List Bytes) : Prog Response := increment 1 args
def decr (args : List Bytes) : Prog Response := increment (-1) args

def append : List Bytes → Prog Response
  | key :: suffix :: _ => do
    let n ← Store.append key suffix
    return [.integer n]
  | _ => return []

def strlen : List Bytes → Prog Response
  | key :: _ => do
    let v ← Store.get key
    return [.integer (v.elim 0 List.length : ℕ)]
  | [] => return []

def del (keys : List Bytes) : Prog Response := do
  let n ← Store.del keys
  return [.integer n]

def exists_ (keys : List Bytes) : Prog Response := do
  let n ← Store.exists_ keys
  return [.integer n]

def dbsize : Prog Response := do
  let n ← dbSize
  return [.integer n]

def policyName : EvictionPolicy → Bytes
  | .noEviction => ascii "noeviction"
  | .allKeysLRU => ascii "allkeys-lru"
  | .allKeysRandom => ascii "allkeys-random"
  | .volatileLRU => ascii "volatile-lru"

def infoLine (name : String) (value : Bytes) : Bytes := ascii name ++ value ++ crlf

def info (settings : Settings) (around : Surroundings) (args : List Bytes) : Prog Response := do
  let infoSection := match args with
    | [arg] => settings.platform.toLower arg
    | _ => ascii "all"
  let write (name : String) (body : Bytes) : Bytes :=
    if infoSection = ascii "all" ∨ infoSection = ascii name then body else []
  let usedMemory ← used
  let (maxMemory, policy) ← invoke .config
  let stats ← invoke .stats
  let keys ← dbSize
  return [.bulkString
    (write "memory" (infoLine "# Memory" [] ++ infoLine "used_memory:" (formatInt usedMemory) ++
      infoLine "maxmemory:" (formatInt maxMemory) ++
      infoLine "maxmemory_policy:" (policyName policy)) ++
    write "stats" (infoLine "# Stats" [] ++
      infoLine "keyspace_hits:" (formatNat stats.keyspaceHits) ++
      infoLine "keyspace_misses:" (formatNat stats.keyspaceMisses) ++
      infoLine "evicted_keys:" (formatNat stats.evictedKeys) ++
      infoLine "expired_keys:" (formatNat stats.expiredKeys)) ++
    write "clients" (infoLine "# Clients" [] ++
      infoLine "connected_clients:" (formatInt around.connectedClients)) ++
    write "stats" (infoLine "total_commands_processed:" (formatNat around.commandCalls)) ++
    write "persistence" (infoLine "# Persistence" [] ++
      infoLine "aof_enabled:" (ascii (if settings.aof then "1" else "0"))) ++
    write "keyspace" (infoLine "# Keyspace" [] ++ infoLine "db0:keys=" (formatNat keys)))]

def configGet (settings : Settings) : List Bytes → Prog Response
  | [] => return []
  | sub :: args =>
    if settings.platform.equalFold sub (ascii "GET") = false then
      return [.error (ascii "ERR unsupported CONFIG subcommand")]
    else
      match args with
      | [pattern] => do
        let (maxMemory, policy) ← invoke .config
        let table : List (Bytes × Bytes) :=
          [(ascii "maxmemory", formatInt maxMemory), (ascii "maxmemory-policy", policyName policy),
            (ascii "appendonly", ascii (if settings.config.appendOnly then "yes" else "no")),
            (ascii "appendfsync", settings.config.appendFsync),
            (ascii "appendfilename", settings.config.appendFilename),
            (ascii "dir", settings.config.dir)]
        match table.mapM fun s => (settings.platform.pathMatch pattern s.1).map fun m => (s, m) with
        | none => return [.error (ascii "ERR invalid CONFIG pattern")]
        | some found =>
          let matched := (found.filter Prod.snd).map Prod.fst
          return .arrayHeader (matched.length * 2) :: matched.flatMap fun s =>
            [.bulkString s.1, .bulkString s.2]
      | _ => return wrongArity settings.platform (ascii "CONFIG")

def bgrewriteaof (settings : Settings) (around : Surroundings) : Prog Response :=
  if settings.aof = false then
    return [.error (ascii "ERR BGREWRITEAOF called without appendonly enabled")]
  else
    match around.beginRewriteErr with
    | some err => return [.error (ascii "ERR " ++ err)]
    | none => return [.simpleString (ascii "Background append only file rewriting started")]

def integerOfBool (b : Bool) : Response := [.integer (if b then 1 else 0)]

def expireIn (unit : ℤ) : List Bytes → Prog Response
  | key :: arg :: _ =>
    match parseTTL arg unit with
    | none => return errInteger
    | some ttl => integerOfBool <$> Store.expire key ttl
  | _ => return []

def expireAtIn (unit : ℤ) : List Bytes → Prog Response
  | key :: arg :: _ =>
    match parseTTL arg unit with
    | none => return errInteger
    | some n => integerOfBool <$> Store.expireAt key (epochPlus n)
  | _ => return []

def expire (args : List Bytes) : Prog Response := expireIn nanosPerSecond args
def pexpire (args : List Bytes) : Prog Response := expireIn nanosPerMilli args
def expireat (args : List Bytes) : Prog Response := expireAtIn nanosPerSecond args
def pexpireat (args : List Bytes) : Prog Response := expireAtIn nanosPerMilli args

/-- Durations are 64-bit, so the sum for rounding can wrap. -/
def ttlIn (unit : ℤ) : List Bytes → Prog Response
  | key :: _ => do
    match ← Store.ttl key with
    | .keyMissing => return [.integer (-2)]
    | .keyPersistent => return [.integer (-1)]
    | .keyVolatile d => return [.integer (max 1 ((wrap64 (d + unit.tdiv 2)).tdiv unit))]
  | [] => return []

def ttl (args : List Bytes) : Prog Response := ttlIn nanosPerSecond args
def pttl (args : List Bytes) : Prog Response := ttlIn nanosPerMilli args

structure Command where
  minArgs : ℕ
  maxArgs : Option ℕ
  writes : Bool
  fn : Settings → Surroundings → List Bytes → Prog Response

def commandTable : List (String × Command) :=
  [("PING", ⟨0, some 1, false, fun _ _ args => ping args⟩),
    ("ECHO", ⟨1, some 1, false, fun _ _ args => echo args⟩),
    ("SET", ⟨2, some 4, true, fun settings _ args => set settings.platform args⟩),
    ("MSET", ⟨2, none, true, fun settings _ args => mset settings.platform args⟩),
    ("GET", ⟨1, some 1, false, fun _ _ args => get args⟩),
    ("MGET", ⟨1, none, false, fun _ _ args => mget args⟩),
    ("INCR", ⟨1, some 1, true, fun _ _ args => incr args⟩),
    ("DECR", ⟨1, some 1, true, fun _ _ args => decr args⟩),
    ("APPEND", ⟨2, some 2, true, fun _ _ args => append args⟩),
    ("STRLEN", ⟨1, some 1, false, fun _ _ args => strlen args⟩),
    ("DEL", ⟨1, none, true, fun _ _ args => del args⟩),
    ("EXISTS", ⟨1, none, false, fun _ _ args => exists_ args⟩),
    ("EXPIRE", ⟨2, some 2, true, fun _ _ args => expire args⟩),
    ("PEXPIRE", ⟨2, some 2, true, fun _ _ args => pexpire args⟩),
    ("EXPIREAT", ⟨2, some 2, true, fun _ _ args => expireat args⟩),
    ("PEXPIREAT", ⟨2, some 2, true, fun _ _ args => pexpireat args⟩),
    ("TTL", ⟨1, some 1, false, fun _ _ args => ttl args⟩),
    ("PTTL", ⟨1, some 1, false, fun _ _ args => pttl args⟩),
    ("DBSIZE", ⟨0, some 0, false, fun _ _ _ => dbsize⟩),
    ("INFO", ⟨0, some 1, false, fun settings around args => info settings around args⟩),
    ("CONFIG", ⟨2, none, false, fun settings _ args => configGet settings args⟩),
    ("BGREWRITEAOF", ⟨0, some 0, false, fun settings around _ => bgrewriteaof settings around⟩)]

def commands (name : Bytes) : Option Command :=
  (commandTable.find? fun c => ascii c.1 = name).map Prod.snd

def Command.arityOk (cmd : Command) (args : List Bytes) : Bool :=
  decide (cmd.minArgs ≤ args.length) && cmd.maxArgs.all fun m => decide (args.length ≤ m)

/-- `none` while the eviction before a write has not come to an end within its fuel. -/
def dispatch (settings : Settings) (around : Surroundings) (fuel : ℕ) :
    List Bytes → Prog (Option Response)
  | [] => return some []
  | first :: args =>
    let name := settings.platform.toUpper first
    match commands name with
    | none => return some [.error (ascii "ERR unknown command '" ++ safeName name ++ ascii "'")]
    | some cmd =>
      if cmd.arityOk args = false then return some (wrongArity settings.platform name)
      else if cmd.writes ∧ settings.aof ∧ around.aofErr ≠ none then
        return some [.error (ascii "MISCONF Errors writing to the AOF file")]
      else if cmd.writes then do
        match ← enforceMemoryLimit fuel with
        | .running _ => return none
        | .finished _ false =>
          return some [.error (ascii "OOM command not allowed when used memory > 'maxmemory'.")]
        | .finished _ true => some <$> cmd.fn settings around args
      else some <$> cmd.fn settings around args

inductive DispatchState
  | replied (b : Response)
  | preflight (fn : Prog Response) (p : Prog Enforced)
  | handler (p : Prog Response)

def errOOM : Response := [.error (ascii "OOM command not allowed when used memory > 'maxmemory'.")]

def arrive (settings : Settings) (around : Surroundings) (fuel : ℕ) : List Bytes → DispatchState
  | [] => .replied []
  | first :: args =>
    let name := settings.platform.toUpper first
    match commands name with
    | none => .replied [.error (ascii "ERR unknown command '" ++ safeName name ++ ascii "'")]
    | some cmd =>
      if cmd.arityOk args = false then .replied (wrongArity settings.platform name)
      else if cmd.writes ∧ settings.aof ∧ around.aofErr ≠ none then
        .replied [.error (ascii "MISCONF Errors writing to the AOF file")]
      else if cmd.writes then .preflight (cmd.fn settings around args) (enforceMemoryLimit fuel)
      else .handler (cmd.fn settings around args)

def DispatchState.rest : DispatchState → Prog (Option Response)
  | .replied b => return some b
  | .preflight fn p => do
    match ← p with
    | .running _ => return none
    | .finished _ false => return some errOOM
    | .finished _ true => some <$> fn
  | .handler p => some <$> p

lemma arrive_rest (settings : Settings) (around : Surroundings) (fuel : ℕ) (args : List Bytes) :
    (arrive settings around fuel args).rest = dispatch settings around fuel args := by
  cases args with
  | nil => rfl
  | cons first args =>
    simp only [arrive, dispatch]
    cases commands (settings.platform.toUpper first) with
    | none => rfl
    | some cmd =>
      simp only
      split_ifs <;> rfl

inductive Arrival (settings : Settings) (around : Surroundings) (fuel : ℕ) :
    List Bytes → DispatchState → Prop
  | empty : Arrival settings around fuel [] (.replied [])
  | unknown {first : Bytes} {args : List Bytes}
      (hc : commands (settings.platform.toUpper first) = none) :
      Arrival settings around fuel (first :: args) (.replied [.error
        (ascii "ERR unknown command '" ++ safeName (settings.platform.toUpper first) ++
          ascii "'")])
  | arity {first : Bytes} {args : List Bytes} {cmd : Command}
      (hc : commands (settings.platform.toUpper first) = some cmd)
      (ha : cmd.arityOk args = false) :
      Arrival settings around fuel (first :: args)
        (.replied (wrongArity settings.platform (settings.platform.toUpper first)))
  | misconf {first : Bytes} {args : List Bytes} {cmd : Command}
      (hc : commands (settings.platform.toUpper first) = some cmd)
      (hw : cmd.writes = true) : Arrival settings around fuel (first :: args)
        (.replied [.error (ascii "MISCONF Errors writing to the AOF file")])
  | preflight {first : Bytes} {args : List Bytes} {cmd : Command}
      (hc : commands (settings.platform.toUpper first) = some cmd)
      (ha : cmd.arityOk args = true) (hw : cmd.writes = true)
      (herr : settings.aof = true → around.aofErr = none) :
      Arrival settings around fuel (first :: args)
        (.preflight (cmd.fn settings around args) (enforceMemoryLimit fuel))
  | handler {first : Bytes} {args : List Bytes} {cmd : Command}
      (hc : commands (settings.platform.toUpper first) = some cmd)
      (ha : cmd.arityOk args = true) (hw : cmd.writes = false) :
      Arrival settings around fuel (first :: args) (.handler (cmd.fn settings around args))

lemma arrive_cases {settings : Settings} {around : Surroundings} {fuel : ℕ} {request : List Bytes}
    {phase : DispatchState} (h : arrive settings around fuel request = phase) :
    Arrival settings around fuel request phase := by
  subst h
  cases request with
  | nil => exact .empty
  | cons first args =>
    simp only [arrive]
    cases hc : commands (settings.platform.toUpper first) with
    | none => exact .unknown hc
    | some cmd =>
      simp only
      split_ifs with ha hm hw
      · exact .arity hc ha
      · exact .misconf hc hm.1
      · exact .preflight hc (Bool.not_eq_false _ ▸ ha) hw fun haof => by_contra
          fun hn => hm ⟨hw, haof, hn⟩
      · exact .handler hc (Bool.not_eq_false _ ▸ ha) (Bool.eq_false_iff.2 hw)

inductive LogError
  | unknownCommand (name : Bytes)
  | notWrite (name : Bytes)
  | wrongNumberOfArguments (name : Bytes) (n : ℕ)
  | reply (name msg : Bytes)
  deriving DecidableEq, Repr

def replyError : Response → Option Bytes
  | .error msg :: _ => some msg
  | _ => none

def replaying : Surroundings := ⟨none, none, 0, 0⟩

def unlogged : Settings := ⟨.asciiOnly, false, ⟨false, [], [], []⟩⟩

def applyLogged (settings : Settings) : List Bytes → Prog (Option LogError)
  | [] => return none
  | first :: rest =>
    let name := settings.platform.toUpper first
    match commands name with
    | none => return some (.unknownCommand (safeName name))
    | some cmd =>
      if cmd.writes = false then return some (.notWrite (safeName name))
      else if cmd.arityOk rest = false then
        return some (.wrongNumberOfArguments (safeName name) rest.length)
      else do
        let reply ← cmd.fn settings replaying rest
        return (replyError reply).map (.reply (safeName name))

end RedisClone.Server
