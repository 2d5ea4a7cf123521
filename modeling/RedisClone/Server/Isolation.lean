import RedisClone.Server.Crowd
import RedisClone.Store.Confinement

namespace RedisClone.Server

open Store Lib Lib.Program

section Requests

def Settings.named (settings : Settings) : List Bytes → List Key
  | [] => []
  | first :: args =>
    let name := settings.platform.toUpper first
    match writeOperation settings.platform name args with
    | some o => o.keys
    | none => if keyReads.contains name then args else []

def Settings.surveys (settings : Settings) (args : List Bytes) : Bool :=
  ["DBSIZE", "INFO", "BGREWRITEAOF"].map ascii |>.contains
    (settings.platform.toUpper (args.headD []))

structure Settings.Takes (settings : Settings) (args : List Bytes) (a : Act) : Prop where
  keys : ∀ key ∈ a.keys, key ∈ settings.named args
  stays : ∀ i now n scanned, a ≠ .expireShard i now n scanned
  keyed : settings.surveys args = false → a.keyed = true

variable {settings : Settings} {Q : (a : Act) → a.Resp → Prop}

lemma Settings.takes_plumbing (args : List Bytes) : Plumbed (settings.Takes args) := by
  refine ⟨fun a ha => ?_⟩
  cases a with
  | now | config | lockDurableMutation | unlockDurableMutation | lockShard
  | unlockShard | propagate =>
    exact ⟨fun _ hk => absurd hk List.not_mem_nil, fun _ _ _ _ => Act.noConfusion, fun _ => rfl⟩
  | _ => exact absurd ha Bool.false_ne_true

lemma within_get {P : Act → Prop} (hP : Plumbed P) {key : Key} (hread : ∀ now, P (.getRead key now))
    (hcollect : P (.getCollect key)) : Within P Q (Store.get key) := by
  refine hP.act (a := .now) rfl fun now => within_act (hread now) fun answer => ?_
  cases answer with
  | missing | hit => exact .done _
  | expired => exact within_act hcollect fun _ => .done _

lemma within_ttl {P : Act → Prop} (hP : Plumbed P) {key : Key} (hlookup : P (.lookup key)) :
    Within P Q (Store.ttl key) := by
  refine hP.act (a := .now) rfl fun now => within_act hlookup fun e => ?_
  cases e with
  | none => exact .done _
  | some e =>
    simp only
    cases e.expiresAt <;> exact .done _

lemma unlimited_enforce {P : Act → Prop} (hP : Plumbed P)
    (hQ : ∀ r, Q .config r → r.1 ≤ 0) (fuel : ℕ) :
    Obeys (S := sig) P Q (fun e => e = .finished 0 true) (enforceMemoryLimit fuel) := by
  refine .act (hP.plumbing .config rfl) fun r hr => ?_
  change Obeys (S := sig) P Q _ (ite (r.1 ≤ 0) _ _)
  rw [if_pos (hQ r hr)]
  exact .done rfl

lemma writeOperation_ne_dbSize {name : Bytes} {cmd : Command} (hc : commands name = some cmd)
    (hw : cmd.writes = true) {P : Platform} {args : List Bytes} :
    writeOperation P name args ≠ some .dbSize := by
  have hmap {β : Type} {x : Option β} {f : β → Op} (hf : ∀ b, f b ≠ .dbSize) :
      x.map f ≠ some .dbSize := by
    rw [ne_eq, Option.map_eq_some_iff]
    rintro ⟨b, -, hb⟩
    exact hf b hb
  have hnone : (none : Option Op) ≠ some .dbSize := (Option.some_ne_none _).symm
  have hset : setOperation P args ≠ some .dbSize := by
    unfold setOperation
    split
    · exact fun h => Op.noConfusion (Option.some.inj h)
    · simp only [ne_eq, Option.bind_eq_some_iff, not_exists, not_and]
      intro opt _ n _
      split_ifs <;> simp
    · exact hnone
  have hexpire (unit : ℤ) : expireOperation unit args ≠ some .dbSize := by
    unfold expireOperation
    split
    · exact hmap fun _ => Op.noConfusion
    · exact hnone
  have hexpireAt (unit : ℤ) : expireAtOperation unit args ≠ some .dbSize := by
    unfold expireAtOperation
    split
    · exact hmap fun _ => Op.noConfusion
    · exact hnone
  have happend : appendOperation args ≠ some .dbSize := by
    unfold appendOperation
    split
    · exact fun h => Op.noConfusion (Option.some.inj h)
    · exact hnone
  have hmset : msetOperation args ≠ some .dbSize := by
    unfold msetOperation
    split_ifs
    · exact hnone
    · exact fun h => Op.noConfusion (Option.some.inj h)
  cases writeEntry hc hw with
  | set => exact hset
  | mset => exact hmset
  | incr | decr => exact hmap fun _ => Op.noConfusion
  | append => exact happend
  | del => exact fun h => Op.noConfusion (Option.some.inj h)
  | expire | pexpire => exact hexpire _
  | expireat | pexpireat => exact hexpireAt _

lemma within_read {first name : Bytes} {cmd : Command} (hn : settings.platform.toUpper first = name)
    (hc : commands name = some cmd) (hw : cmd.writes = false) (around : Surroundings)
    (args : List Bytes) :
    Within (settings.Takes (first :: args)) Q (cmd.fn settings around args) := by
  have hP := settings.takes_plumbing (first :: args)
  have hnamed : settings.named (first :: args) = if keyReads.contains name then args else [] := by
    simp only [Settings.named, hn, read_writeOperation hc hw]
  have htakes {a : Act} {key : Key} (hkeys : a.keys = [key]) (ha : a.keyed = true) (hk : key ∈ args)
      (hreads : keyReads.contains name) : settings.Takes (first :: args) a := by
    refine ⟨?_, ?_, fun _ => ha⟩
    · rw [hkeys, hnamed, if_pos hreads]
      exact List.forall_mem_singleton.2 hk
    · rintro i now n scanned rfl
      exact absurd ha Bool.false_ne_true
  -- A command that looks at the store as a whole names no key.
  have hsurvey {a : Act} (hkeys : a.keys = [])
      (hstays : ∀ i now n scanned, a ≠ .expireShard i now n scanned)
      (hname : name = ascii "DBSIZE" ∨ name = ascii "INFO") : settings.Takes (first :: args) a := by
    have hs : settings.surveys (first :: args) = true := by
      rw [Settings.surveys, List.headD_cons, hn]
      rcases hname with rfl | rfl <;> rfl
    refine ⟨fun key hk => ?_, hstays, fun h => absurd (hs.symm.trans h) Bool.noConfusion⟩
    rw [hkeys] at hk
    exact absurd hk List.not_mem_nil
  refine composes_read (composes_within _ Q) hc hw settings around
    (within_last (hP.plumbing .config rfl)) (fun hk key hkey => ?_) (fun hk => ?_)
    (fun hk key hkey => ?_) fun hname => ⟨?_, ?_, ?_⟩
  · exact within_get hP (fun _ => htakes rfl rfl hkey hk) (htakes rfl rfl hkey hk)
  · exact hP.act (a := .now) rfl fun now =>
      within_countExisting now (fun key hkey => htakes rfl rfl hkey hk) 0
  · exact within_ttl hP (htakes rfl rfl hkey hk)
  · refine hP.act (a := .now) rfl fun now => within_sumShards (fun i => ?_) allShards 0
    exact within_last (hsurvey (a := .shardLive i now) rfl (fun _ _ _ _ => Act.noConfusion) hname)
  · exact within_used fun i =>
      hsurvey (a := .shardUsed i) rfl (fun _ _ _ _ => Act.noConfusion) hname
  · exact within_last (hsurvey (a := .stats) rfl (fun _ _ _ _ => Act.noConfusion) hname)

lemma within_request (hQ : ∀ r, Q .config r → r.1 ≤ 0) (around : Surroundings) (fuel : ℕ)
    (args : List Bytes) : Within (settings.Takes args) Q (dispatch settings around fuel args) := by
  rw [← arrive_rest]
  generalize ha : arrive settings around fuel args = phase
  cases arrive_cases ha with
  | empty | unknown | arity | misconf => exact .done _
  | @preflight first args cmd hc _ hw =>
    refine Obeys.bind (unlimited_enforce (settings.takes_plumbing _) hQ fuel) fun e he => ?_
    subst he
    refine within_map ?_ _
    rcases write_program hc hw settings around args with ⟨-, b, hb, -⟩ | ⟨o, ho, hfn⟩
    · rw [hb]
      exact .done _
    · rw [hfn]
      have hkeyed {a : Act} (ha : o.Touches a) : a.keyed = true :=
        ha.keyed fun h => writeOperation_ne_dbSize hc hw (h ▸ ho)
      refine within_map (o.touches_program.mono (fun a ha => ⟨?_, ?_, fun _ => hkeyed ha⟩)
        (fun _ _ _ => trivial) fun _ h => h) _
      · simp only [Settings.named, ho]
        exact ha.keys
      · rintro i now n scanned rfl
        exact Bool.false_ne_true (hkeyed ha)
  | handler hc _ hw => exact within_map (within_read rfl hc hw around _) _

lemma heedless_read {name : Bytes} {cmd : Command} (hc : commands name = some cmd)
    (hw : cmd.writes = false) (around : Surroundings) (args : List Bytes) :
    Heedless (S := sig) Alike (cmd.fn settings around args) := by
  have hused : Heedless (S := sig) Alike used :=
    heedless_sumShards
      (fun i => heedless_last (a := .shardUsed i) fun _ => Act.noConfusion) allShards 0
  exact composes_read composes_heedless hc hw settings around
    (heedless_last (a := .config) fun _ => Act.noConfusion) (fun _ key _ => heedless_get key)
    (fun _ => heedless_exists args) (fun _ key _ => heedless_ttl key)
    fun _ => ⟨heedless_dbSize, hused, heedless_last (a := .stats) fun _ => Act.noConfusion⟩

lemma heedless_dispatch (around : Surroundings) (fuel : ℕ) (args : List Bytes) :
    Heedless (S := sig) Alike (dispatch settings around fuel args) := by
  rw [← arrive_rest]
  generalize ha : arrive settings around fuel args = phase
  cases arrive_cases ha with
  | empty | unknown | arity | misconf => exact .done _
  | @preflight first args cmd hc _ hw =>
    have hP : Plumbed fun a : Act => ∀ key, a ≠ .lookup key := by
      refine ⟨fun a ha key hkey => ?_⟩
      subst hkey
      exact Bool.false_ne_true ha
    have henforce : Only (fun a : Act => ∀ key, a ≠ .lookup key) (enforceMemoryLimit fuel) :=
      hP.enforceMemoryLimit (fun _ _ => Act.noConfusion) (fun _ _ _ => Act.noConfusion)
        (fun _ _ => Act.noConfusion) (fun _ => Act.noConfusion) fuel
    refine (heedless_of_only henforce).bind fun e => ?_
    cases e with
    | running n => exact .done _
    | finished n fits =>
      cases fits with
      | false => exact .done _
      | true =>
        refine Heedless.map _ ?_
        rcases write_program hc hw settings around args with ⟨-, b, hb, -⟩ | ⟨o, -, hfn⟩
        · rw [hb]
          exact .done _
        · rw [hfn]
          exact Heedless.map _ o.heedless
  | handler hc _ hw => exact Heedless.map _ (heedless_read hc hw around _)

end Requests

section Goroutines

variable {settings : Settings} {Q : (a : Act) → a.Resp → Prop}

def Client.named (settings : Settings) : Client → List Key
  | .command r => settings.named r.args
  | .expiryCycle | .rewrite => []

/-- A request that is about the keys it names and nothing else, on a log that has not failed. -/
def Client.isLocal (settings : Settings) : Client → Bool
  | .command r => !settings.surveys r.args && r.around.aofErr.isNone
  | .expiryCycle | .rewrite => false

lemma beside_expireRounds {keys : List Key} {T : ℤ} (hnow : ∀ r, Q .now r → r ≤ T) (rounds : ℕ) :
    ∀ scanned expired, Within (Act.Beside keys T) Q (expireRounds rounds scanned expired) := by
  have hsample (n : ℕ) : Within (Act.Beside keys T) Q (expireSample n) := by
    refine within_answer (a := .now)
      ⟨fun _ hk => absurd hk List.not_mem_nil, fun _ _ _ _ => Act.noConfusion⟩ fun now hr => ?_
    refine within_act (a := .tick)
      ⟨fun _ hk => absurd hk List.not_mem_nil, fun _ _ _ _ => Act.noConfusion⟩ fun _ => ?_
    refine within_expireShards
      (fun i n scanned => ⟨fun _ hk => absurd hk List.not_mem_nil, ?_⟩) n _ 0 0
    rintro _ _ _ _ ⟨⟩
    exact hnow now hr
  induction rounds with
  | zero => exact fun _ _ => .done _
  | succ rounds ih =>
    refine fun scanned expired => (hsample _).bind fun r => ?_
    simp only
    split_ifs
    · exact .done _
    · exact ih _ _

lemma beside_client {keys : List Key} {T : ℤ} (hconfig : ∀ r, Q .config r → r.1 ≤ 0)
    (hnow : ∀ r, Q .now r → r ≤ T) {client : Client}
    (h : ∀ key ∈ client.named settings, key ∉ keys) :
    Within (Act.Beside keys T) Q (client.program settings) := by
  have hempty {a : Act} (ha : a.keys = [])
      (hs : ∀ i now n scanned, a ≠ .expireShard i now n scanned) : a.Beside keys T :=
    ⟨ha ▸ fun _ hk => absurd hk List.not_mem_nil, fun i now n scanned he =>
      absurd he (hs i now n scanned)⟩
  cases client with
  | command r =>
    refine within_map
      ((within_request hconfig r.around r.fuel r.args).mono (fun a ha => ?_) (fun _ _ h => h)
        fun _ h => h) _
    exact ⟨fun key hk => h key (ha.keys key hk), fun i now n scanned he =>
      absurd he (ha.stays i now n scanned)⟩
  | expiryCycle => exact within_map (beside_expireRounds hnow _ 0 0) _
  | rewrite =>
    exact within_map (within_aofSnapshot (hempty rfl fun _ _ _ _ => Act.noConfusion)
        (fun _ => hempty rfl fun _ _ _ _ => Act.noConfusion)
      fun _ _ => hempty rfl fun _ _ _ _ => Act.noConfusion) _

lemma inside_client {keys : List Key} (hconfig : ∀ r, Q .config r → r.1 ≤ 0) {client : Client}
    (hlocal : client.isLocal settings = true) (h : ∀ key ∈ client.named settings, key ∈ keys) :
    Within (Act.Inside keys) Q (client.program settings) := by
  cases client with
  | command r =>
    refine within_map
      ((within_request hconfig r.around r.fuel r.args).mono (fun a ha => ?_) (fun _ _ h => h)
        fun _ h => h) _
    have hsurveys : settings.surveys r.args = false :=
      (Bool.not_eq_true' _).mp (Bool.and_eq_true_iff.1 hlocal).1
    exact ⟨ha.keyed hsurveys, fun key hk => h key (ha.keys key hk)⟩
  | expiryCycle | rewrite => exact absurd hlocal Bool.false_ne_true

lemma within_errands {P : Act → Prop} {clients : List Client}
    (h : ∀ client ∈ clients, Within P Q (client.program settings)) :
    Within P Q (errands settings clients) := by
  induction clients with
  | nil => exact .done _
  | cons client clients ih =>
    obtain ⟨hclient, hclients⟩ := List.forall_mem_cons.1 h
    refine hclient.bind fun outcome => ?_
    split_ifs
    · exact within_map (ih hclients) _
    · exact .done _

lemma heedless_errands {clients : List Client}
    (h : ∀ client ∈ clients, client.isLocal settings = true) :
    Heedless (S := sig) Alike (errands settings clients) := by
  induction clients with
  | nil => exact .done _
  | cons client clients ih =>
    obtain ⟨hclient, hclients⟩ := List.forall_mem_cons.1 h
    have hprogram : Heedless (S := sig) Alike (client.program settings) := by
      cases client with
      | command r => exact Heedless.map _ (heedless_dispatch r.around r.fuel r.args)
      | expiryCycle | rewrite => exact absurd hclient Bool.false_ne_true
    refine hprogram.bind fun outcome => ?_
    split_ifs
    · exact Heedless.map _ (ih hclients)
    · exact .done _

end Goroutines

section Run

variable {maxMemory : ℤ} {policy : EvictionPolicy} {T : ℤ}

def Answered (maxMemory : ℤ) (policy : EvictionPolicy) (T : ℤ) : (a : Act) → a.Resp → Prop
  | .config, r => r = (maxMemory, policy)
  | .now, r => r ≤ T
  | _, _ => True

def Conducts (maxMemory : ℤ) (policy : EvictionPolicy) (T : ℤ) : ActionSpec sig Input Image :=
  fun a i r w w' =>
  ActSpec a i r w w' ∧ Answered maxMemory policy T a r

lemma conducts_alike {keys : List Key} {a : Act} {i : Input} {r r' : a.Resp} {w w₁ w₂ : Image}
    (ha : a.Inside keys) (h : Conducts maxMemory policy T a i r w w₁)
    (h' : Conducts maxMemory policy T a i r' w w₂) : Alike a r r' ∧ w₁ = w₂ := by
  by_cases hconfig : a = .config
  · subst hconfig
    have hr : r = r' := h.2.trans h'.2.symm
    exact ⟨hr, h.1.trans h'.1.symm⟩
  · exact alike_of_actSpec ha.keyed hconfig h.1 h'.1

structure Governed (maxMemory : ℤ) (policy : EvictionPolicy) (s : Store) : Prop where
  wellFormed : WellFormed s
  limit : s.maxMemory = maxMemory
  samePolicy : s.policy = policy

lemma Governed.perform {s : Store} (h : Governed maxMemory policy s) (a : Act) {i : Input}
    (hi : i.time ≤ T) :
    Governed maxMemory policy (Store.perform a i s).2 ∧
    Answered maxMemory policy T a (Store.perform a i s).1 := by
  have hsettings := perform_settings a i s
  refine ⟨⟨perform_wellFormed a i s h.wellFormed, hsettings.1.trans h.limit,
    hsettings.2.1.trans h.samePolicy⟩, ?_⟩
  cases a with
  | config => exact Prod.ext h.limit h.samePolicy
  | now => exact hi
  | _ => exact trivial

lemma Governed.performInside {s : Store} (h : Governed maxMemory policy s) {a : Act} {i : Input}
    (hi : i.time ≤ T) {keys : List Key} (ha : a.Inside keys) :
    Governed maxMemory policy (Store.perform a i s).2 ∧
      Answered maxMemory policy T a (Store.perform a i s).1 ∧
      Conducts maxMemory policy T a i (Store.perform a i s).1 (s.image.only keys)
        ((Store.perform a i s).2.image.only keys) :=
  have hperform := h.perform a hi
  ⟨hperform.1, hperform.2, (perform_spec a i s h.wellFormed).only ha, hperform.2⟩

lemma Governed.act {ι : Type} {u : ι} {a : Act} {i : Input} {r : a.Resp} {w w' : World ι}
    (h : Governed maxMemory policy w.store) (hi : i.time ≤ T)
    (hact : World.act u a i w = some (r, w')) :
    Governed maxMemory policy w'.store ∧
    Conducts maxMemory policy T a i r w.store.image w'.store.image := by
  have hperform := h.perform a hi
  rw [World.act_perform hact] at hperform
  exact ⟨hperform.1, (World.act_spec h.wellFormed hact).image, hperform.2⟩

lemma governed_configured (journalled : Bool) (maxMemory : ℤ) (policy : EvictionPolicy) :
    Governed maxMemory policy (configured journalled maxMemory policy) := by
  refine ⟨configured_wellFormed _ _ _, ?_, ?_⟩ <;> cases journalled <;> rfl

variable {ι : Type} [DecidableEq ι]

/-- A client whose keys no other goroutine names is answered as if it was alone, and finds its keys
as it left them, whatever the others do meanwhile. There is no memory limit, and none of its keys
reaches its deadline by `T`. -/
theorem client_answered_as_alone (settings : Settings) (journalled : Bool) (maxMemory : ℤ)
    (hmax : maxMemory ≤ 0) (policy : EvictionPolicy) (goroutines : ι → List Client) (t : ι)
    (hlocal : ∀ client ∈ goroutines t, client.isLocal settings = true)
    (hothers : ∀ u, u ≠ t → ∀ client ∈ goroutines u, ∀ key ∈ client.named settings,
      key ∉ (goroutines t).flatMap (·.named settings)) (inputs : ι → ℕ → Input) (T : ℤ)
    (hclock : ∀ u n, (inputs u n).time ≤ T) (schedule : List ι)
    (hundue : (booted journalled maxMemory policy fun u => errands settings (goroutines u)).Along
      World.act inputs (fun c _ => ∀ key ∈ (goroutines t).flatMap (·.named settings),
      (c.world.store.view key).any (·.expired T) = false) schedule) :
    let c := (booted journalled maxMemory policy fun u => errands settings (goroutines u)).after
      World.act inputs schedule
    ∀ outcomes, c.result t = some outcomes →
      let alone :=
        exec (errands settings (goroutines t)) (inputs t) (configured journalled maxMemory policy)
      outcomes = alone.1 ∧ ∀ key ∈ (goroutines t).flatMap (·.named settings),
          c.world.store.view key = alone.2.2.view key := by
  intro c outcomes hdone alone
  generalize hkeys : (goroutines t).flatMap (·.named settings) = keys at *
  have hstart := governed_configured journalled maxMemory policy
  have hconfig (r : ℤ × EvictionPolicy) (hr : Answered maxMemory policy T .config r) : r.1 ≤ 0 :=
    (congrArg Prod.fst hr).trans_le hmax
  have hown :
      Within (Act.Inside keys) (Answered maxMemory policy T) (errands settings (goroutines t)) := by
    refine within_errands fun client hclient => inside_client hconfig (hlocal client hclient)
      fun key hk => ?_
    exact hkeys ▸ List.mem_flatMap.2 ⟨client, hclient, hk⟩
  have hprograms (u : ι) : Within (fun a : Act => if u = t then a.Inside keys else a.Beside keys T)
    (Answered maxMemory policy T) (errands settings (goroutines u)) := by
    by_cases hu : u = t
    · subst hu
      simp only [if_true]
      exact hown
    · simp only [hu, if_false]
      exact within_errands fun client hclient => beside_client hconfig (fun _ hr => hr)
        (hothers u hu client hclient)
  have hreach : Reaches (Conducts maxMemory policy T) (errands settings (goroutines t)) (inputs t)
      ((configured journalled maxMemory policy).image.only keys) (c.taken t) (c.prog t)
          (c.world.store.image.only keys) := by
    refine Config.reaches_of_confined (V := World ι)
      (v := ⟨configured journalled maxMemory policy, .free ι⟩) (fun w => w.store.image.only keys)
        (fun w => Governed maxMemory policy w.store)
      (fun w => (w.store.view.only keys).Lively T) ?_ ?_ ?_ hstart hprograms schedule ?_
    · intro u n a r w w' hw _ hact
      have h := hw.act (hclock u n) hact
      exact ⟨h.1, h.2.2⟩
    · intro n a r w w' hw _ ha hact
      have h := hw.act (hclock t n) hact
      rw [if_pos rfl] at ha
      exact ⟨h.2.1.only ha, h.2.2⟩
    · intro u n a r w w' hu hw hlive ha hact
      rw [if_neg hu] at ha
      exact ActSpec.only_eq ha hlive (hw.act (hclock u n) hact).2.1
    · refine hundue.mono fun c _ h key it hi => ?_
      by_cases hk : key ∈ keys
      · rw [Keyspace.only_apply hk] at hi
        have hlive := h key hk
        rwa [hi] at hlive
      · rw [Keyspace.only_eq_none hk] at hi
        exact absurd hi (Option.some_ne_none it).symm
  rw [Config.result_eq_some.1 hdone] at hreach
  have hend := (heedless_errands hlocal).run_eq (A := Conducts maxMemory policy T)
    (P := Act.Inside keys) (fun s : Store => s.image.only keys) (Governed maxMemory policy)
    (fun i : Input => i.time ≤ T) (fun a i s hi hs ha => hs.performInside hi ha)
    (fun _ _ _ _ _ _ _ ha h h' => conducts_alike ha h h') (hclock t) hown hstart hreach
  refine ⟨hend.1.symm, fun key hk => ?_⟩
  have hview := congrFun (congrArg Image.keyspace hend.2) key
  exact (Keyspace.only_apply hk _).symm.trans (hview.symm.trans (Keyspace.only_apply hk _))

end Run

def neighbours : Bool → List Client
  | false =>
    [.command ⟨["SET", "mine", "5"].map ascii, replaying, 0⟩,
      .command ⟨["INCR", "mine"].map ascii, replaying, 0⟩,
        .command ⟨["GET", "mine"].map ascii, replaying, 0⟩]
  | true =>
    [.command ⟨["MSET", "a", "1", "b", "2"].map ascii, replaying, 0⟩,
      .command ⟨["PEXPIRE", "a", "5"].map ascii, replaying, 0⟩, .expiryCycle]

def neighbourTurns : List Bool :=
  (List.replicate 9 [false, true]).flatten ++ List.replicate 80 true ++ List.replicate 8 false

def neighbourInputs : Bool → ℕ → Input := fun _ n => ⟨min (n * 1000000) 100000000, .stored⟩

theorem client_answered_as_alone_neighbours :
    let c := (booted true 0 .noEviction fun u => errands plain (neighbours u)).after World.act
      neighbourInputs neighbourTurns
    ((c.result true).isSome = true ∧ c.world.store.view (ascii "a") = none ∧
        (c.result false).isSome = true) ∧
      ∀ outcomes, c.result false = some outcomes →
        let alone := exec (errands plain (neighbours false)) (neighbourInputs false)
          (configured true 0 .noEviction)
        outcomes = alone.1 ∧ ∀ key ∈ (neighbours false).flatMap (·.named plain),
          c.world.store.view key = alone.2.2.view key := by
  have hlocal : ∀ client ∈ neighbours false, client.isLocal plain = true := by decide +kernel
  have hothers : ∀ u, u ≠ false → ∀ client ∈ neighbours u, ∀ key ∈ client.named plain,
      key ∉ (neighbours false).flatMap (·.named plain) := by decide +kernel
  have hundue : (booted true 0 .noEviction fun u => errands plain (neighbours u)).Along World.act
      neighbourInputs (fun c _ => ∀ key ∈ (neighbours false).flatMap (·.named plain),
        (c.world.store.view key).any (·.expired 100000000) = false) neighbourTurns := by
    decide +kernel
  refine ⟨by decide +kernel, ?_⟩
  exact client_answered_as_alone plain true 0 le_rfl .noEviction neighbours false hlocal hothers
    neighbourInputs 100000000 (fun _ _ => min_le_right _ _) neighbourTurns hundue

end RedisClone.Server
