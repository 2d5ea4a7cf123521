import RedisClone.Server.Commands
import RedisClone.Store.Durability

namespace RedisClone.Server

open Store Resp Lib Lib.Program Lib.Decimal

section Texts

def Printable (b : UInt8) : Prop := 0x20 ≤ b ∧ b < 0x7f

lemma Printable.ne {b : UInt8} (h : Printable b) : b ≠ cr ∧ b ≠ lf := by
  constructor <;> rintro rfl <;> exact absurd h.1 (by decide)

lemma Printable.lower {b : UInt8} (h : Printable b) : Printable (lowerByte b) := by
  simp only [lowerByte, Printable] at h ⊢
  split_ifs with hl
  · simp only [UInt8.le_iff_toNat_le, UInt8.lt_iff_toNat_lt, UInt8.toNat_add, UInt8.reduceToNat,
      Nat.reducePow] at *
    omega
  · exact h

lemma printable_safeName (name : Bytes) : ∀ b ∈ safeName name, Printable b := by
  intro b hb
  rcases List.mem_append.1 hb with hb | hb
  · obtain ⟨c, -, rfl⟩ := List.mem_map.1 hb
    simp only [safeNameByte]
    split_ifs with h
    · exact ⟨h.1, h.2.1⟩
    · exact ⟨by decide, by decide⟩
  · split_ifs at hb
    · have hdots : (ascii "...").all (fun b => decide (0x20 ≤ b ∧ b < 0x7f)) = true := by decide
      have hdot : 0x20 ≤ b ∧ b < 0x7f := of_decide_eq_true (List.all_eq_true.1 hdots b hb)
      exact hdot
    · cases hb

lemma oneLine_safeName (name : Bytes) : OneLine (safeName name) :=
  fun b hb => (printable_safeName name b hb).ne

lemma wrongArity_eq (P : Platform) (name : Bytes) :
    ∃ msg, OneLine msg ∧ wrongArity P name = [.error msg] := by
  refine ⟨_, ?_, rfl⟩
  have hp := printable_safeName name
  have hlow (b : UInt8) (hb : b ∈ safeName name) : b < 128 := UInt8.lt_trans (hp b hb).2 (by decide)
  rw [P.toLower_ascii _ hlow]
  refine ((by decide : OneLine (ascii "ERR wrong number of arguments for '")).append ?_).append
    (by decide)
  intro b hb
  obtain ⟨c, hc, rfl⟩ := List.mem_map.1 hb
  exact (hp c hc).lower.ne

end Texts

def setOperation (P : Platform) : List Bytes → Option Op
  | [key, val] => some (.set key val)
  | [key, val, opt, arg] =>
    (expiryOptions (P.toUpper opt)).bind fun opt =>
      (parseTTL arg opt.unit).bind fun n =>
        if n ≤ 0 then none else some (if opt.absolute then .setWithDeadline key val (epochPlus n)
          else .setWithTTL key val n)
  | _ => none

def msetOperation (args : List Bytes) : Option Op :=
  if args.length % 2 ≠ 0 then none else some (.mset (pairUp args))

def appendOperation : List Bytes → Option Op
  | key :: suffix :: _ => some (.append key suffix)
  | _ => none

def expireOperation (unit : ℤ) : List Bytes → Option Op
  | key :: arg :: _ => (parseTTL arg unit).map fun d => .expire key d
  | _ => none

def expireAtOperation (unit : ℤ) : List Bytes → Option Op
  | key :: arg :: _ => (parseTTL arg unit).map fun n => .expireAt key (epochPlus n)
  | _ => none

def writeOperation (P : Platform) (name : Bytes) (args : List Bytes) : Option Op :=
  if name = ascii "SET" then setOperation P args
  else if name = ascii "MSET" then msetOperation args
  else if name = ascii "INCR" then args.head?.map fun key => .increment key 1
  else if name = ascii "DECR" then args.head?.map fun key => .increment key (-1)
  else if name = ascii "APPEND" then appendOperation args
  else if name = ascii "DEL" then some (.del args)
  else if name = ascii "EXPIRE" then expireOperation nanosPerSecond args
  else if name = ascii "PEXPIRE" then expireOperation nanosPerMilli args
  else if name = ascii "EXPIREAT" then expireAtOperation nanosPerSecond args
  else if name = ascii "PEXPIREAT" then expireAtOperation nanosPerMilli args
  else none

def operation (settings : Settings) : List Bytes → Option Op
  | [] => none
  | first :: args => writeOperation settings.platform (settings.platform.toUpper first) args

def replyTo : Answer → Response
  | .number none => errInteger
  | .number (some n) => [.integer n]
  | .count n => [.integer n]
  | .flag b => integerOfBool b
  | _ => ok

/-- The handler is the operation with a reply, or, where the arguments are as many as the command
wants, an error at once. -/
def Handles (legal : Prop) : Option Op → Prog Response → Prop
  | none, p => ∃ b, p = .done b ∧ (legal → ∃ msg, OneLine msg ∧ b = [.error msg])
  | some o, p => p = replyTo <$> o.program

section Writes

lemma handles_program {α : Type} {p : Prog α} {o : Op} {f : α → Answer} (ho : o.program = f <$> p)
    {legal : Prop} : Handles legal (some o) (p >>= fun a => pure (replyTo (f a))) := by
  simp only [Handles, ho, map_eq_pure_bind, bind_assoc, pure_bind]

lemma handles_error {msg : Bytes} (h : OneLine msg) {legal : Prop} :
    Handles legal none (pure [.error msg]) :=
  ⟨_, rfl, fun _ => ⟨msg, h, rfl⟩⟩

lemma handles_short {legal : Prop} (h : ¬legal) : Handles legal none (pure []) :=
  ⟨_, rfl, fun hl => absurd hl h⟩

lemma set_handles (P : Platform) :
    ∀ args, Handles (2 ≤ args.length) (setOperation P args) (Server.set P args)
  | [key, val] => handles_program (o := .set key val) rfl
  | [key, val, opt, arg] => by
    unfold Server.set setOperation
    simp only
    cases expiryOptions (P.toUpper opt) with
    | none => exact handles_error (by decide)
    | some opt =>
      simp only [Option.bind_some]
      cases parseTTL arg opt.unit with
      | none => exact handles_error (by decide)
      | some n =>
        simp only [Option.bind_some]
        split_ifs
        · exact handles_error (by decide)
        · exact handles_program (o := .setWithDeadline _ _ _) rfl
        · exact handles_program (o := .setWithTTL _ _ _) rfl
  | [] | [_] => handles_short (by simp)
  | [_, _, _] | _ :: _ :: _ :: _ :: _ :: _ => handles_error (by decide)

lemma mset_handles (P : Platform) (args : List Bytes) {legal : Prop} :
    Handles legal (msetOperation args) (Server.mset P args) := by
  unfold Server.mset msetOperation
  split_ifs
  · exact ⟨_, rfl, fun _ => wrongArity_eq P _⟩
  · exact handles_program (o := .mset _) rfl

lemma increment_handles (delta : Int64) (args : List Bytes) :
    Handles (1 ≤ args.length) (args.head?.map fun key => .increment key delta)
      (Server.increment delta args) := by
  cases args with
  | nil => exact handles_short (by simp)
  | cons key rest =>
    have hm : Server.increment delta (key :: rest) =
        (Store.increment key delta >>= fun r => pure (replyTo (.number r))) := by
      simp only [Server.increment]
      congr 1
      funext r
      cases r <;> rfl
    rw [hm]
    exact handles_program (o := .increment key delta) rfl

lemma append_handles : ∀ args, Handles (2 ≤ args.length) (appendOperation args) (Server.append args)
  | key :: suffix :: _ => handles_program (o := .append key suffix) rfl
  | [] | [_] => handles_short (by simp)

lemma expireIn_handles (unit : ℤ) :
    ∀ args, Handles (2 ≤ args.length) (expireOperation unit args) (expireIn unit args)
  | key :: arg :: _ => by
    simp only [expireIn, expireOperation]
    cases parseTTL arg unit with
    | none => exact handles_error (by decide)
    | some d => exact handles_program (o := .expire key d) rfl
  | [] | [_] => handles_short (by simp)

lemma expireAtIn_handles (unit : ℤ) :
    ∀ args, Handles (2 ≤ args.length) (expireAtOperation unit args) (expireAtIn unit args)
  | key :: arg :: _ => by
    simp only [expireAtIn, expireAtOperation]
    cases parseTTL arg unit with
    | none => exact handles_error (by decide)
    | some n => exact handles_program (o := .expireAt key (epochPlus n)) rfl
  | [] | [_] => handles_short (by simp)

end Writes

lemma commands_mem {name : Bytes} {cmd : Command} (hc : commands name = some cmd) :
    ∃ c ∈ commandTable, ascii c.1 = name ∧ c.2 = cmd := by
  obtain ⟨c, hf, rfl⟩ := Option.map_eq_some_iff.1 hc
  exact ⟨c, List.mem_of_find?_eq_some hf, by simpa using List.find?_some hf, rfl⟩

inductive WriteEntry : Bytes → Command → Prop
  | set :
      WriteEntry (ascii "SET")
        ⟨2, some 4, true, fun settings _ args => Server.set settings.platform args⟩
  | mset :
      WriteEntry (ascii "MSET")
        ⟨2, none, true, fun settings _ args => Server.mset settings.platform args⟩
  | incr : WriteEntry (ascii "INCR") ⟨1, some 1, true, fun _ _ args => Server.incr args⟩
  | decr : WriteEntry (ascii "DECR") ⟨1, some 1, true, fun _ _ args => Server.decr args⟩
  | append : WriteEntry (ascii "APPEND") ⟨2, some 2, true, fun _ _ args => Server.append args⟩
  | del : WriteEntry (ascii "DEL") ⟨1, none, true, fun _ _ args => Server.del args⟩
  | expire : WriteEntry (ascii "EXPIRE") ⟨2, some 2, true, fun _ _ args => Server.expire args⟩
  | pexpire : WriteEntry (ascii "PEXPIRE") ⟨2, some 2, true, fun _ _ args => Server.pexpire args⟩
  | expireat : WriteEntry (ascii "EXPIREAT") ⟨2, some 2, true, fun _ _ args => Server.expireat args⟩
  | pexpireat :
      WriteEntry (ascii "PEXPIREAT") ⟨2, some 2, true, fun _ _ args => Server.pexpireat args⟩

inductive ReadEntry : Bytes → Command → Prop
  | ping : ReadEntry (ascii "PING") ⟨0, some 1, false, fun _ _ args => Server.ping args⟩
  | echo : ReadEntry (ascii "ECHO") ⟨1, some 1, false, fun _ _ args => Server.echo args⟩
  | get : ReadEntry (ascii "GET") ⟨1, some 1, false, fun _ _ args => Server.get args⟩
  | mget : ReadEntry (ascii "MGET") ⟨1, none, false, fun _ _ args => Server.mget args⟩
  | strlen : ReadEntry (ascii "STRLEN") ⟨1, some 1, false, fun _ _ args => Server.strlen args⟩
  | exists_ : ReadEntry (ascii "EXISTS") ⟨1, none, false, fun _ _ args => Server.exists_ args⟩
  | ttl : ReadEntry (ascii "TTL") ⟨1, some 1, false, fun _ _ args => Server.ttl args⟩
  | pttl : ReadEntry (ascii "PTTL") ⟨1, some 1, false, fun _ _ args => Server.pttl args⟩
  | dbsize : ReadEntry (ascii "DBSIZE") ⟨0, some 0, false, fun _ _ _ => Server.dbsize⟩
  | info :
      ReadEntry (ascii "INFO")
        ⟨0, some 1, false, fun settings around args => Server.info settings around args⟩
  | config :
      ReadEntry (ascii "CONFIG")
        ⟨2, none, false, fun settings _ args => Server.configGet settings args⟩
  | bgrewriteaof :
      ReadEntry (ascii "BGREWRITEAOF")
        ⟨0, some 0, false, fun settings around _ => Server.bgrewriteaof settings around⟩

lemma commandTable_entries :
    ∀ c ∈ commandTable, if c.2.writes then WriteEntry (ascii c.1) c.2
    else ReadEntry (ascii c.1) c.2 := by
  simp only [commandTable, List.forall_mem_cons, Bool.false_eq_true, if_false, if_true]
  exact ⟨.ping, .echo, .set, .mset, .get, .mget, .incr, .decr, .append, .strlen, .del, .exists_,
    .expire, .pexpire, .expireat, .pexpireat, .ttl, .pttl, .dbsize, .info, .config, .bgrewriteaof,
      fun _ hc => absurd hc List.not_mem_nil⟩

lemma writeEntry {name : Bytes} {cmd : Command} (hc : commands name = some cmd)
    (hw : cmd.writes = true) : WriteEntry name cmd := by
  obtain ⟨c, hmem, rfl, rfl⟩ := commands_mem hc
  simpa only [hw, if_true] using commandTable_entries c hmem

lemma readEntry {name : Bytes} {cmd : Command} (hc : commands name = some cmd)
    (hw : cmd.writes = false) : ReadEntry name cmd := by
  obtain ⟨c, hmem, rfl, rfl⟩ := commands_mem hc
  simpa only [hw, Bool.false_eq_true, if_false] using commandTable_entries c hmem

lemma read_writeOperation {name : Bytes} {cmd : Command} (hc : commands name = some cmd)
    (hw : cmd.writes = false) (P : Platform) (args : List Bytes) :
    writeOperation P name args = none := by
  cases readEntry hc hw <;> rfl

lemma write_handles {name : Bytes} {cmd : Command} (hc : commands name = some cmd)
    (hw : cmd.writes = true) (settings : Settings) (around : Surroundings) (args : List Bytes) :
    Handles (cmd.minArgs ≤ args.length) (writeOperation settings.platform name args)
      (cmd.fn settings around args) := by
  cases writeEntry hc hw with
  | set => exact set_handles _ args
  | mset => exact mset_handles _ args
  | incr => exact increment_handles 1 args
  | decr => exact increment_handles (-1) args
  | append => exact append_handles args
  | del => exact handles_program (o := .del args) rfl
  | expire | pexpire => exact expireIn_handles _ args
  | expireat | pexpireat => exact expireAtIn_handles _ args

lemma write_program {name : Bytes} {cmd : Command} (hc : commands name = some cmd)
    (hw : cmd.writes = true) (settings : Settings) (around : Surroundings) (args : List Bytes) :
    (writeOperation settings.platform name args = none ∧ ∃ b, cmd.fn settings around args = pure b ∧
        (cmd.minArgs ≤ args.length → ∃ msg, OneLine msg ∧ b = [.error msg])) ∨
      ∃ o, writeOperation settings.platform name args = some o ∧
      cmd.fn settings around args = replyTo <$> o.program := by
  have hh := write_handles hc hw settings around args
  cases ho : writeOperation settings.platform name args with
  | none =>
    rw [ho] at hh
    exact .inl ⟨rfl, hh⟩
  | some o =>
    rw [ho] at hh
    exact .inr ⟨o, rfl, hh⟩

def Performs (inputs : ℕ → Input) (w w' : Image) : Option Op → Prop
  | none => w' = w
  | some o => ∃ b, (o.effect (fun i => (inputs i).time) w.keyspace).Holds w b w'

lemma write_performs {settings : Settings} {around : Surroundings} {name : Bytes}
    {args : List Bytes} {cmd : Command} (hc : commands name = some cmd) (hw : cmd.writes = true)
    {inputs : ℕ → Input} {w w' : Image} {n : ℕ} {b : Response}
    (h : Runs ActSpec (cmd.fn settings around args) inputs w n b w') :
    Performs inputs w w' (writeOperation settings.platform name args) := by
  rcases write_program hc hw settings around args with ⟨ho, b', hb, -⟩ | ⟨o, ho, hfn⟩
  · rw [ho]
    rw [hb] at h
    exact (runs_done.1 h).2.2
  · rw [ho]
    rw [hfn] at h
    obtain ⟨a, hp, -⟩ := runs_map.1 h
    exact ⟨a, o.program_effect hp⟩

section Reads

def keyReads : List Bytes := ["GET", "MGET", "STRLEN", "EXISTS", "TTL", "PTTL"].map ascii

variable {M : (α : Type) → Prog α → Prop}

lemma composes_mgetValues (hM : Composes M) {keys : List Bytes}
    (hget : ∀ key ∈ keys, M _ (Store.get key)) : M _ (mgetValues keys) := by
  induction keys with
  | nil => exact hM.done _
  | cons key keys ih =>
    obtain ⟨hkey, hkeys⟩ := List.forall_mem_cons.1 hget
    exact hM.bind hkey fun _ => hM.bind (ih hkeys) fun _ => hM.done _

lemma composes_ttlIn (hM : Composes M) (unit : ℤ) {args : List Bytes}
    (httl : ∀ key ∈ args, M _ (Store.ttl key)) : M _ (ttlIn unit args) := by
  cases args with
  | nil => exact hM.done _
  | cons key rest =>
    refine hM.bind (httl key List.mem_cons_self) fun answer => ?_
    cases answer <;> exact hM.done _

lemma composes_configGet (hM : Composes M) (hconfig : M _ (invoke .config)) (settings : Settings)
    (args : List Bytes) : M _ (configGet settings args) := by
  cases args with
  | nil => exact hM.done _
  | cons sub args =>
    simp only [configGet]
    split
    · exact hM.done _
    · split
      · refine hM.bind hconfig fun r => ?_
        split <;> exact hM.done _
      · exact hM.done _

lemma composes_bgrewriteaof (hM : Composes M) (settings : Settings) (around : Surroundings) :
    M _ (bgrewriteaof settings around) := by
  unfold bgrewriteaof
  split_ifs
  · exact hM.done _
  · split <;> exact hM.done _

/-- The handler of a read is put together from these operations of the store. -/
lemma composes_read (hM : Composes M) {name : Bytes} {cmd : Command}
    (hc : commands name = some cmd) (hw : cmd.writes = false) (settings : Settings)
    (around : Surroundings) {args : List Bytes} (hconfig : M _ (invoke .config))
    (hget : keyReads.contains name = true → ∀ key ∈ args, M _ (Store.get key))
    (hexists : keyReads.contains name = true → M _ (Store.exists_ args))
    (httl : keyReads.contains name = true → ∀ key ∈ args, M _ (Store.ttl key))
    (hsurvey : name = ascii "DBSIZE" ∨ name = ascii "INFO" →
      M _ dbSize ∧ M _ used ∧ M _ (invoke .stats)) :
    M _ (cmd.fn settings around args) := by
  have hfirst {f : Option Bytes → Response} (hk : keyReads.contains name = true) {key : Bytes}
      {rest : List Bytes} (hargs : args = key :: rest) :
      M _ (Store.get key >>= fun v => pure (f v)) :=
    hM.bind (hget hk key (hargs ▸ List.mem_cons_self)) fun _ => hM.done _
  cases readEntry hc hw with
  | ping =>
    simp only [ping]
    split <;> exact hM.done _
  | echo =>
    simp only [echo]
    split <;> exact hM.done _
  | get | strlen =>
    cases args with
    | nil => exact hM.done _
    | cons key rest => exact hfirst rfl rfl
  | mget => exact hM.bind (composes_mgetValues hM (hget rfl)) fun _ => hM.done _
  | exists_ => exact hM.bind (hexists rfl) fun _ => hM.done _
  | ttl | pttl => exact composes_ttlIn hM _ (httl rfl)
  | dbsize => exact hM.bind (hsurvey (.inl rfl)).1 fun _ => hM.done _
  | info =>
    obtain ⟨hsize, hused, hstats⟩ := hsurvey (.inr rfl)
    exact hM.bind hused fun _ => hM.bind hconfig fun _ => hM.bind hstats fun _ =>
      hM.bind hsize fun _ => hM.done _
  | config => exact composes_configGet hM hconfig settings args
  | bgrewriteaof => exact composes_bgrewriteaof hM settings around

lemma read_quiet {settings : Settings} {around : Surroundings} {name : Bytes} {args : List Bytes}
    {cmd : Command} (hc : commands name = some cmd) (hw : cmd.writes = false) :
    Only Quiet (cmd.fn settings around args) :=
  composes_read (composes_only Quiet) hc hw settings around (quiet_act (a := .config) trivial)
    (fun _ key _ => quiet_get key) (fun _ => quiet_exists args) (fun _ key _ => quiet_ttl key)
    fun _ => ⟨quiet_dbSize, quiet_used, quiet_act (a := .stats) trivial⟩

end Reads

end RedisClone.Server
