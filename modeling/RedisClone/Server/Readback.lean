import RedisClone.Aof.Recovery
import RedisClone.Server.Durability
import RedisClone.Store.Records

/-! Every record the server writes, its clients in any interleaving, is one it can read back,
as long as the deadlines it stores can be read back. -/

namespace RedisClone.Server

open Store Resp Lib Lib.Program Lib.Decimal

/-- A deadline that `parseTTL` takes, and `SET` too, when the journal brings it back. -/
def stampable (d : ℤ) : Bool := decide (0 < unixMilli d ∧ unixMilli d ≤ maxMillis)

def anySize : Limits := ⟨fun _ => True, fun _ => True, fun d => stampable d = true, fun _ h => h⟩

def parserSize : Limits where
  bulk b := b.length ≤ maxBulkLength
  count n := n < maxArrayLength
  deadline d := stampable d = true
  count_le h hn := h.trans_lt hn

section Handlers

variable {L : Limits}

lemma proper_of_quiet {α : Type} {p : Prog α} (hp : Only Quiet p) : L.Proper (fun _ => True) p := by
  refine Obeys.mono (fun a ha => ?_) (fun _ _ _ => trivial) (fun _ _ => trivial) hp
  cases a with
  | set | mset | propagate => exact absurd ha id
  | _ => exact trivial

structure Fits (L : Limits) (args : List Bytes) : Prop where
  bulk : ∀ a ∈ args, L.bulk a
  count : L.count args.length

lemma Fits.one {args : List Bytes} (h : Fits L args) (hn : 1 ≤ args.length) : L.count 1 :=
  L.count_le hn h.count

lemma pairUp_mem {p : Key × Bytes} (args : List Bytes) :
    p ∈ pairUp args → p.1 ∈ args ∧ p.2 ∈ args := by
  fun_induction pairUp args with
  | case1 key val rest ih =>
    intro h
    rcases List.mem_cons.1 h with rfl | h
    · exact ⟨List.mem_cons_self, List.mem_cons_of_mem _ List.mem_cons_self⟩
    · exact ⟨List.mem_cons_of_mem _ (List.mem_cons_of_mem _ (ih h).1),
        List.mem_cons_of_mem _ (List.mem_cons_of_mem _ (ih h).2)⟩
  | case2 => exact fun h => absurd h List.not_mem_nil

lemma pairUp_length_le (args : List Bytes) : 2 * (pairUp args).length ≤ args.length := by
  fun_induction pairUp args with
  | case1 key val rest ih =>
    simp only [List.length_cons]
    omega
  | case2 => exact Nat.zero_le _

lemma pairUp_ne_nil {args : List Bytes} (h : 2 ≤ args.length) : pairUp args ≠ [] := by
  match args, h with
  | key :: val :: rest, _ => exact List.cons_ne_nil _ _

lemma proper_ok {α : Type} {p : Prog α} (hp : L.Proper (fun _ => True) p) (f : α → Response) :
    L.Proper (fun _ => True) (p >>= fun a => pure (f a)) := hp.bind fun _ _ => .done trivial

lemma proper_set (P : Platform) {args : List Bytes} (h : Fits L args) :
    L.Proper (fun _ => True) (Server.set P args) := by
  unfold Server.set
  split
  · exact proper_ok (Limits.proper_setTo _ _ (h.bulk _ List.mem_cons_self)) _
  · have hk := h.bulk _ List.mem_cons_self
    have hn := h.one (Nat.succ_pos _)
    split
    · exact .done trivial
    · split
      · exact .done trivial
      · split_ifs
        · exact .done trivial
        · exact proper_ok (Limits.proper_setWithDeadline _ _ hn hk) _
        · exact proper_ok (Limits.proper_setWithTTL _ _ hn hk) _
  · exact .done trivial
  · exact .done trivial

lemma proper_mset (P : Platform) {args : List Bytes} (h : Fits L args) (hn : 2 ≤ args.length) :
    L.Proper (fun _ => True) (Server.mset P args) := by
  unfold Server.mset
  split_ifs
  · exact .done trivial
  · refine proper_ok
      (Limits.proper_mset (pairUp_ne_nil hn) (L.count_le (pairUp_length_le args) h.count) ?_) _
    intro p hp
    obtain ⟨h₁, h₂⟩ := pairUp_mem args hp
    exact ⟨h.bulk _ h₁, h.bulk _ h₂⟩

lemma proper_increment (delta : Int64) {args : List Bytes} (h : Fits L args) :
    L.Proper (fun _ => True) (Server.increment delta args) := by
  cases args with
  | nil => exact .done trivial
  | cons key rest =>
    refine (Limits.proper_increment delta (h.bulk _ List.mem_cons_self)).bind fun r _ => ?_
    cases r <;> exact .done trivial

lemma proper_append {args : List Bytes} (h : Fits L args) :
    L.Proper (fun _ => True) (Server.append args) := by
  unfold Server.append
  split
  · exact proper_ok (Limits.proper_append _ (h.bulk _ List.mem_cons_self)) _
  · exact .done trivial

lemma proper_expireIn (unit : ℤ) {args : List Bytes} (h : Fits L args) :
    L.Proper (fun _ => True) (expireIn unit args) := by
  unfold expireIn
  split
  · split
    · exact .done trivial
    · exact Obeys.map _
        (Limits.proper_expire _ (h.one (Nat.succ_pos _)) (h.bulk _ List.mem_cons_self))
  · exact .done trivial

lemma proper_expireAtIn (unit : ℤ) {args : List Bytes} (h : Fits L args) :
    L.Proper (fun _ => True) (expireAtIn unit args) := by
  unfold expireAtIn
  split
  · split
    · exact .done trivial
    · exact Obeys.map _
        (Limits.proper_expireAt _ (h.one (Nat.succ_pos _)) (h.bulk _ List.mem_cons_self))
  · exact .done trivial

lemma proper_write {settings : Settings} {around : Surroundings} {name : Bytes} {args : List Bytes}
    {cmd : Command} (hc : commands name = some cmd) (hw : cmd.writes = true)
    (ha : cmd.arityOk args = true) (h : Fits L args) :
    L.Proper (fun _ => True) (cmd.fn settings around args) := by
  cases writeEntry hc hw with
  | set => exact proper_set _ h
  | mset => exact proper_mset _ h (by simpa [Command.arityOk] using ha)
  | incr | decr => exact proper_increment _ h
  | append => exact proper_append h
  | del => exact proper_ok (Limits.proper_del h.count h.bulk) _
  | expire | pexpire => exact proper_expireIn _ h
  | expireat | pexpireat => exact proper_expireAtIn _ h

lemma proper_dispatch {settings : Settings} {around : Surroundings} {fuel : ℕ} {args : List Bytes}
    (hn : L.count 1) (h : Fits L args.tail) :
    L.Proper (fun _ => True) (dispatch settings around fuel args) := by
  rw [← arrive_rest]
  generalize ha : arrive settings around fuel args = phase
  cases arrive_cases ha with
  | empty | unknown | arity | misconf => exact .done trivial
  | preflight hc har hw =>
    refine (Limits.proper_enforceMemoryLimit fuel hn).bind fun e _ => ?_
    cases e with
    | running evicted => exact .done trivial
    | finished evicted fits =>
      cases fits with
      | false => exact .done trivial
      | true => exact Obeys.map _ (proper_write hc hw har h)
  | handler hc _ hw => exact Obeys.map _ (proper_of_quiet (read_quiet hc hw))

end Handlers

/-- What runs in the process: a command of a client, a tick of the sampler, or the snapshot of a
background rewrite. -/
inductive Client
  | command (r : Request)
  | expiryCycle
  | rewrite

inductive Outcome
  | reply (r : Option Response)
  | collected
  | snapshot (records : List Record)

def Client.program (settings : Settings) : Client → Prog Outcome
  | .command r => .reply <$> dispatch settings r.around r.fuel r.args
  | .expiryCycle => (fun _ => .collected) <$> activeExpireCycle
  | .rewrite => .snapshot <$> aofSnapshot

def Outcome.Logged (L : Limits) : Outcome → Prop
  | .snapshot records => ∀ record ∈ records, L.Logged record
  | _ => True

lemma proper_client {L : Limits} (hn : L.count 1) (settings : Settings) {client : Client}
    (h : ∀ r, client = .command r → Fits L r.args.tail) :
    L.Proper (Outcome.Logged L) (client.program settings) := by
  cases client with
  | command r => exact Obeys.map _ (proper_dispatch hn (h r rfl))
  | expiryCycle => exact Obeys.map _ (Limits.proper_expireRounds _ _ _)
  | rewrite => exact Obeys.map _ Limits.proper_aofSnapshot

def inTime (ks : Keyspace) : Act → Bool
  | .set _ _ expiresAt => expiresAt.all stampable
  | .expireAt key deadline now =>
    match (ks.expireKey key deadline now).1 with
    | .kept d => stampable d
    | _ => true
  | _ => true

def inSize : Act → Bool
  | .set _ val _ => decide (val.length ≤ maxBulkLength)
  | _ => true

def storable (s : Store) (a : Act) : Bool := inTime s.view a && inSize a

lemma inTime_expireAt {ks : Keyspace} {key : Key} {deadline : Time} {now d : ℤ}
    (h : inTime ks (.expireAt key deadline now) = true)
    (hd : (ks.expireKey key deadline now).1 = .kept d) : stampable d = true := by
  simpa only [inTime, hd] using h

lemma inTime_set {ks : Keyspace} {key : Key} {val : Bytes} {expiresAt : Time} {L : Limits}
    (hL : ∀ d, stampable d = true → L.deadline d) (h : inTime ks (.set key val expiresAt) = true) :
    L.time expiresAt := by
  cases expiresAt with
  | none => trivial
  | some d => exact hL d h

lemma admits_anySize {ks : Keyspace} {a : Act} (h : inTime ks a = true) : anySize.Admits ks a := by
  cases a with
  | set key val expiresAt => exact ⟨trivial, inTime_set (fun _ h => h) h⟩
  | expireAt key deadline now => exact fun d => inTime_expireAt h
  | _ => exact trivial

lemma admits_parserSize {ks : Keyspace} {a : Act} (h : inTime ks a = true) (hs : inSize a = true) :
    parserSize.Admits ks a := by
  cases a with
  | set key val expiresAt =>
    have hb : val.length ≤ maxBulkLength := of_decide_eq_true hs
    exact ⟨hb, inTime_set (fun _ h => h) h⟩
  | expireAt key deadline now => exact fun d => inTime_expireAt h
  | _ => exact trivial

lemma WithinLimits.fits {args : List Bytes} (h : WithinLimits args) {L : Limits}
    (hbulk : ∀ b, b.length ≤ maxBulkLength → L.bulk b)
    (hcount : ∀ n, n < maxArrayLength → L.count n) : Fits L args.tail := by
  refine ⟨fun a ha => hbulk a (h.bulk a (List.mem_of_mem_tail ha)), hcount _ ?_⟩
  rw [List.length_tail]
  exact lt_of_lt_of_le (Nat.sub_lt (List.length_pos_iff.2 h.nonempty) Nat.one_pos) h.count

/-- `applyLogged` takes the record, whatever it finds in the store and on the clock. -/
def Accepted (settings : Settings) (record : Record) : Prop :=
  ∀ s inputs, WellFormed s → (exec (applyLogged settings record) inputs s).1 = none

lemma Readable.accepted {m : Mutation} (hm : Readable m) (settings : Settings) :
    Accepted settings m.record := by
  intro s inputs hs
  have ha := applies (exec_image (applyLogged settings m.record) inputs s hs)
  rcases hx : exec (applyLogged settings m.record) inputs s with ⟨err, k, s'⟩
  rw [hx] at ha
  cases ha with
  | accepted _ _ => rfl
  | refused hn => exact absurd hm hn

lemma stampable_iff {d : ℤ} : stampable d = true ↔ 0 < unixMilli d ∧ unixMilli d ≤ maxMillis :=
  decide_eq_true_iff

lemma readable_of_sound {L : Limits} (hL : ∀ d, L.deadline d → stampable d = true) {m : Mutation}
    (hm : L.Sound m) : Readable m := by
  cases m with
  | put key val expiresAt =>
    cases expiresAt with
    | none => trivial
    | some d => exact stampable_iff.1 (hL d hm.2.2)
  | putAll pairs => exact hm.1
  | remove keys => exact hm.1
  | touch key d =>
    obtain ⟨h₁, h₂⟩ := stampable_iff.1 (hL d hm.2)
    refine ⟨?_, h₂⟩
    simp only [maxMillis]
    omega

lemma accepted_of_logged {L : Limits} (hL : ∀ d, L.deadline d → stampable d = true)
    (settings : Settings) {record : Record} (h : L.Logged record) : Accepted settings record := by
  obtain ⟨m, hm, rfl⟩ := h
  exact (readable_of_sound hL hm).accepted settings

lemma length_unixMillis_le {d : ℤ} (hd : stampable d = true) :
    (unixMillis d).length ≤ maxBulkLength := by
  obtain ⟨h₁, h₂⟩ := stampable_iff.1 hd
  simp only [maxMillis] at h₂
  obtain ⟨n, hn⟩ := Int.eq_ofNat_of_zero_le h₁.le
  have hlen := formatNat_length_le (n := n) (k := 13) (by omega) (by omega)
  rw [unixMillis, hn, formatInt_natCast]
  simp only [maxBulkLength]
  omega

lemma bulks_of_sound {L : Limits} (hbulk : ∀ b, L.bulk b → b.length ≤ maxBulkLength)
    (hstamp : ∀ d, L.deadline d → (unixMillis d).length ≤ maxBulkLength) {m : Mutation}
    (hm : L.Sound m) : ∀ b ∈ m.record, b.length ≤ maxBulkLength := by
  cases m with
  | put key val expiresAt =>
    obtain ⟨hk, hv, ht⟩ := hm
    cases expiresAt with
    | none =>
      simp only [Mutation.record, setRecord, List.forall_mem_cons]
      exact ⟨by decide, hbulk key hk, hbulk val hv, List.forall_mem_nil _⟩
    | some d =>
      simp only [Mutation.record, setRecord, List.forall_mem_cons]
      exact ⟨by decide, hbulk key hk, hbulk val hv, by decide, hstamp d ht, List.forall_mem_nil _⟩
  | putAll pairs =>
    intro b hb
    rcases List.mem_cons.1 hb with rfl | hb
    · decide
    · obtain ⟨p, hp, hb⟩ := List.mem_flatMap.1 hb
      rcases List.mem_pair.1 hb with rfl | rfl
      · exact hbulk _ (hm.2.2 p hp).1
      · exact hbulk _ (hm.2.2 p hp).2
  | remove keys =>
    intro b hb
    rcases List.mem_cons.1 hb with rfl | hb
    · decide
    · exact hbulk b (hm.2.2 b hb)
  | touch key d =>
    simp only [Mutation.record, List.forall_mem_cons]
    exact ⟨by decide, hbulk key hm.1, hstamp d hm.2, List.forall_mem_nil _⟩

lemma withinLimits_of_sound {L : Limits} (hbulk : ∀ b, L.bulk b → b.length ≤ maxBulkLength)
    (hcount : ∀ n, L.count n → n < maxArrayLength)
    (hstamp : ∀ d, L.deadline d → (unixMillis d).length ≤ maxBulkLength) {m : Mutation}
    (hm : L.Sound m) : WithinLimits m.record := by
  refine ⟨?_, ?_, bulks_of_sound hbulk hstamp hm⟩
  · cases m with
    | put key val expiresAt => cases expiresAt <;> exact List.cons_ne_nil _ _
    | _ => exact List.cons_ne_nil _ _
  · cases m with
    | put key val expiresAt =>
      cases expiresAt with
      | none => exact (by decide : 3 ≤ maxArrayLength)
      | some d => exact (by decide : 5 ≤ maxArrayLength)
    | putAll pairs =>
      rw [Mutation.record, msetRecord, List.length_cons, length_flatMap_pair]
      exact hcount _ hm.2.1
    | remove keys => exact hcount _ hm.2.1
    | touch key d => exact (by decide : 3 ≤ maxArrayLength)

lemma withinLimits_of_logged {L : Limits} (hbulk : ∀ b, L.bulk b → b.length ≤ maxBulkLength)
    (hcount : ∀ n, L.count n → n < maxArrayLength)
    (hstamp : ∀ d, L.deadline d → (unixMillis d).length ≤ maxBulkLength) {record : Record}
    (h : L.Logged record) : WithinLimits record := by
  obtain ⟨m, hm, rfl⟩ := h
  exact withinLimits_of_sound hbulk hcount hstamp hm

lemma withinLimits_of_parserSize {record : Record} (h : parserSize.Logged record) :
    WithinLimits record :=
  withinLimits_of_logged (fun _ h => h) (fun _ h => h) (fun _ h => length_unixMillis_le h) h

section Load

variable (settings : Settings) (inputs : ℕ → Input)

def loaded (st : Store × ℕ) (record : Record) : Store × ℕ :=
  let r := exec (applyLogged settings record) (shift st.2 inputs) st.1
  (r.2.2, st.2 + r.2.1)

def load (st : Store × ℕ) (record : Record) : Except LogError (Store × ℕ) :=
  match (exec (applyLogged settings record) (shift st.2 inputs) st.1).1 with
  | none => .ok (loaded settings inputs st record)
  | some err => .error err

lemma load_accepts {records : List Record} (h : ∀ record ∈ records, Accepted settings record) :
    Aof.Accepts (loaded settings inputs) (load settings inputs)
      (fun st => WellFormed st.1) records := by
  refine ⟨fun st hst record hr => ?_, fun st hst record hr => exec_wellFormed _ _ _ hst⟩
  simp only [load, h record hr st.1 _ hst]

lemma load_file {records : List Record} (hl : ∀ record ∈ records, parserSize.Logged record)
    (p : ℕ) {s : Store} (hs : WellFormed s) :
    ∃ res, Aof.replay (load settings inputs) (s, 0)
      (some ((Aof.encodeAll records).take p)) = some res ∧ res.error = none := by
  have hcut : (Aof.encodeAll records).take p =
      (Aof.encodeAll records).take (min p (Aof.encodeAll records).length) := by
    rw [List.take_eq_take_min]
  have hacc := load_accepts settings inputs fun record hr => accepted_of_logged
    (fun _ h => h) settings (hl record hr)
  have hlim := fun record hr => withinLimits_of_parserSize (hl record hr)
  rw [hcut, Aof.replay, Aof.replayFile_cut hacc hlim (min_le_right _ _) hs]
  exact ⟨_, rfl, rfl⟩

end Load

lemma kept_configured {L : Limits} (journalled : Bool) (maxMemory : ℤ) (policy : EvictionPolicy) :
    L.Kept (configured journalled maxMemory policy).image := by
  refine ⟨fun key it h => ?_, fun records hr record h => ?_⟩
  · cases journalled <;> cases h
  · cases journalled with
    | false => cases hr
    | true =>
      obtain rfl := Option.some.inj hr
      exact absurd h List.not_mem_nil

section Run

variable {ι : Type} [DecidableEq ι]

lemma clients_logged {L : Limits} (hn : L.count 1) (settings : Settings) (maxMemory : ℤ)
    (policy : EvictionPolicy) {clients : ι → Client}
    (hfit : ∀ t r, clients t = .command r → Fits L r.args.tail) (inputs : ι → ℕ → Input)
    (schedule : List ι)
    (hrun : (booted true maxMemory policy fun t => (clients t).program settings).Along World.act
      inputs (fun c t => ∀ a ∈ c.next World.act inputs t, L.Admits c.world.store.view a) schedule) :
    let c := (booted true maxMemory policy fun t => (clients t).program settings).after World.act
      inputs schedule
    L.Kept c.world.store.image ∧ ∀ t b, c.result t = some b → b.Logged L := by
  obtain ⟨⟨-, hk⟩, hp⟩ :=
    Config.after_obeys (S := sig) (fun w => WellFormed w.store ∧ L.Kept w.store.image)
    (C := fun w a => L.Admits w.store.view a)
    (fun t n a r w w' hw ha hc h => by
      have hs := World.act_spec hw.1 h
      obtain ⟨hk, hr⟩ := Limits.kept_act hw.2 ha hc hs.image
      exact ⟨⟨hs.wellFormed, hk⟩, hr⟩)
    schedule (booted true maxMemory policy fun t => (clients t).program settings)
    ⟨configured_wellFormed true maxMemory policy, kept_configured true maxMemory policy⟩
      (fun t => proper_client hn settings (hfit t)) hrun
  exact ⟨hk, fun t b hb => (Config.result_eq_some.1 hb ▸ hp t).result⟩

def Written (c : Threads ι Outcome) (record : Record) : Prop :=
  (∃ records ∈ c.world.store.journal, record ∈ records) ∨
    ∃ t records, c.result t = some (.snapshot records) ∧ record ∈ records

omit [DecidableEq ι] in
lemma written_logged {L : Limits} {c : Threads ι Outcome} (hk : L.Kept c.world.store.image)
    (hp : ∀ t b, c.result t = some b → b.Logged L) {record : Record} (h : Written c record) :
    L.Logged record := by
  rcases h with ⟨records, hj, hr⟩ | ⟨t, records, ht, hr⟩
  · exact hk.journal records hj record hr
  · exact hp t _ ht record hr

lemma along_parserSize {inputs : ι → ℕ → Input} {c : Threads ι Outcome} {schedule : List ι}
    (h : c.Along World.act inputs
      (fun c t => ∀ a ∈ c.next World.act inputs t, inTime c.world.store.view a = true) schedule)
    (h' : c.Along World.act inputs
      (fun c t => ∀ a ∈ c.next World.act inputs t, inSize a = true) schedule) :
    c.Along World.act inputs
      (fun c t => ∀ a ∈ c.next World.act inputs t, parserSize.Admits c.world.store.view a)
        schedule :=
  (h.and h').mono fun _ _ h a ha => admits_parserSize (h.1 a ha) (h.2 a ha)

theorem records_read_back_when_stampable (settings : Settings) (maxMemory : ℤ)
    (policy : EvictionPolicy) (clients : ι → Client) (inputs : ι → ℕ → Input) (schedule : List ι)
    (hrun : (booted true maxMemory policy fun t => (clients t).program settings).Along World.act
      inputs (fun c t => ∀ a ∈ c.next World.act inputs t, inTime c.world.store.view a = true)
      schedule) :
    let c₀ := booted true maxMemory policy fun t => (clients t).program settings
    let c := c₀.after World.act inputs schedule
    (∀ record, Written c record → Accepted settings record) ∧
      ((∀ t r, clients t = .command r → WithinLimits r.args) → c₀.Along World.act inputs
          (fun c t => ∀ a ∈ c.next World.act inputs t, inSize a = true) schedule →
        ∀ file : List Record, (∀ record ∈ file, Written c record) → ∀ (p : ℕ)
        (inputs' : ℕ → Input) (s : Store),
          WellFormed s → ∃ res, Aof.replay (load settings inputs') (s, 0)
            (some ((Aof.encodeAll file).take p)) = some res ∧ res.error = none) := by
  intro c₀ c
  constructor
  · obtain ⟨hk, hp⟩ := clients_logged (L := anySize) trivial settings maxMemory policy
      (fun t r _ => ⟨fun _ _ => trivial, trivial⟩) inputs schedule
        (hrun.mono fun _ _ h a ha => admits_anySize (h a ha))
    exact fun record hr => accepted_of_logged (fun _ h => h) settings (written_logged hk hp hr)
  · intro hreq hsize file hfile p inputs' s hs
    have hfit : ∀ t r, clients t = .command r → Fits parserSize r.args.tail :=
      fun t r ht => WithinLimits.fits (hreq t r ht) (fun _ h => h) fun _ h => h
    obtain ⟨hk, hp⟩ := clients_logged (L := parserSize) (show 1 < maxArrayLength by decide) settings
      maxMemory policy hfit inputs schedule (along_parserSize hrun hsize)
    exact load_file settings inputs' (fun record hr => written_logged hk hp (hfile record hr)) p hs

end Run

def sending (commands : List (List String)) (t : ℕ) : Client :=
  .command ⟨(commands.getD t ["PING"]).map ascii, replaying, 0⟩

def in2020 (_ : ℕ) : ℕ → Input := clockAt 1600000000000000000

def takingTurns : ℕ → Client := sending [["SET", "k", "v", "EX", "10"], ["EXPIRE", "k", "20"]]

theorem records_read_back_takingTurns :
    let c :=
      (booted true 0 .noEviction fun t => (takingTurns t).program plain).after World.act in2020
      [0, 1, 0, 1, 0, 1, 0, 0, 0, 1, 1, 1, 1, 1, 1]
    ∀ record, Written c record → Accepted plain record :=
  (records_read_back_when_stampable plain 0 .noEviction takingTurns in2020
    [0, 1, 0, 1, 0, 1, 0, 0, 0, 1, 1, 1, 1, 1, 1] (by decide +kernel)).1

def farAhead : ℕ → Client := sending [["SET", "k", "v", "EX", "9000000000"]]

theorem record_refused_farAhead :
    let c := (booted true 0 .noEviction fun t => (farAhead t).program plain).after World.act in2020
      [0, 0, 0, 0, 0, 0]
    ∃ record, Written c record ∧ ¬ Accepted plain record := by
  refine ⟨[cmdSET, ascii "k", ascii "v", cmdPXAT, ascii "10600000000000"],
    .inl ⟨_, ?_, List.mem_singleton.2 rfl⟩, fun h => ?_⟩
  · decide +kernel
  · have hr := h (configured false 0 .noEviction) (clockAt 1600000001000000000)
      (configured_wellFormed false 0 _)
    revert hr
    decide +kernel

end RedisClone.Server
