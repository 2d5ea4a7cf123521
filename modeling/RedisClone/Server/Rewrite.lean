import RedisClone.Server.Recording
import RedisClone.Server.Replies

namespace RedisClone.Server

open Store Aof Resp Lib Lib.Program

def newDeadline (ks : Keyspace) : Act → Option ℤ
  | .set _ _ expiresAt => expiresAt
  | .expireAt key deadline time =>
    match (ks.expireKey key deadline time).1 with
    | .kept d => some d
    | _ => none
  | _ => none

lemma admits_lasting {T : ℤ} {ks : Keyspace} {a : Act}
    (hlasts : ∀ d ∈ newDeadline ks a, T < floorMilli d) (htime : inTime ks a = true)
    (hsize : inSize a = true) : (lasting T).Admits ks a := by
  cases a with
  | set key val expiresAt =>
    have hbulk : val.length ≤ maxBulkLength := of_decide_eq_true hsize
    refine ⟨hbulk, Limits.time_iff.2 fun d hd => ⟨?_, hlasts d hd⟩⟩
    obtain rfl : expiresAt = some d := hd
    exact htime
  | expireAt key deadline time =>
    intro d hd
    refine ⟨inTime_expireAt htime hd, hlasts d ?_⟩
    simp only [newDeadline, hd]
    rfl
  | _ => exact trivial

def ConnAct.storeAct : ConnAct → Option Act
  | .store a => some a
  | _ => none

def upcoming {ι : Type} [DecidableEq ι] (site : Site ι) (stimuli : ι → ℕ → Stimulus) (c : Running ι)
    (t : ι) : Option Act :=
  (c.next (Process.act site) stimuli t).bind ConnAct.storeAct

section Bookkeeping

variable {ι : Type} [DecidableEq ι] {T : ℤ}

structure Bookkeeping (T : ℤ) (roles : ι → Role) (hs : ι → Stand) (b : Book) (c : Running ι) :
    Prop where
  tracks : Tracks T hs b c.world
  serves : ∀ t, Serves T Ended (hs t) (c.prog t)
  background : ∀ t, (roles t).isClient = false → (hs t).gate = false ∧
    Only ConnAct.background (c.prog t)

lemma advance_gate {h : Stand} {a : ConnAct} (ha : a.background) (hg : h.gate = false)
    (r : a.Resp) : (advance h a r).gate = false := by
  cases a with
  | store act =>
    by_cases hunlock : act = .unlockDurableMutation
    · subst hunlock
      rfl
    · exact (Stand.next_gate (fun hlock => ha (congrArg ConnAct.store hlock)) hunlock).trans hg
  | _ => exact hg

variable {site : Site ι} {roles : ι → Role} {stimuli : ι → ℕ → Stimulus} {hs : ι → Stand}
  {b b' : Book} {c c' : Running ι} {t : ι} {a : ConnAct} {r : a.Resp} {ok : Book → ShardId → Prop}

lemma Bookkeeping.moves (hB : Bookkeeping T roles hs b c)
    (hm : c.Moves (Process.act site) stimuli t a r c') (hr : Expected T a r)
    (hT : Tracks T (Function.update hs t (advance (hs t) a r)) b' c'.world) :
    Bookkeeping T roles (Function.update hs t (advance (hs t) a r)) b' c' := by
  obtain ⟨k, hk, hprog⟩ := hm.prog
  refine ⟨hT, fun u => ?_, fun u hu => ?_⟩
  · by_cases he : u = t
    · subst he
      have hown := hB.serves u
      rw [hk] at hown
      rw [hprog, Function.update_self, Function.update_self]
      exact hown.next.2 r hr
    · rw [Function.update_of_ne he, hm.prog_of_ne he]
      exact hB.serves u
  · obtain ⟨hgate, honly⟩ := hB.background u hu
    by_cases he : u = t
    · subst he
      rw [hk] at honly
      rw [hprog, Function.update_self, Function.update_self]
      exact ⟨advance_gate (Obeys.next honly).1 hgate r, (Obeys.next honly).2 r trivial⟩
    · rw [Function.update_of_ne he, hm.prog_of_ne he]
      exact ⟨hgate, honly⟩

lemma Bookkeeping.permits (hB : Bookkeeping T roles hs b c)
    (hm : c.Moves (Process.act site) stimuli t a r c') : Server.permits T (hs t) a := by
  obtain ⟨k, hk, -⟩ := hm.prog
  have hown := hB.serves t
  rw [hk] at hown
  exact hown.next.1

lemma Bookkeeping.step (hB : Bookkeeping T roles hs b c) (hsite : ∀ n, site.logFaults n = none)
    (hsmooth : ∀ t n, (stimuli t n).Smooth) (hclock : ∀ t n, (stimuli t n).input.time ≤ T)
    (hin : ∀ act ∈ upcoming site stimuli c t, (lasting T).Admits c.world.base.store.view act)
    (hread : ∀ j time, a = .store (.shardSnapshot j time) → ok b j)
    (hm : c.Moves (Process.act site) stimuli t a r c') :
    ∃ hs' b', Goes ok b b' ∧ Bookkeeping T roles hs' b' c' := by
  have hupcoming (act : Act) (ha : a = .store act) : act ∈ upcoming site stimuli c t := by
    rw [upcoming, hm.next, ha]
    rfl
  obtain ⟨hr, b', hgoes, hT⟩ := hB.tracks.step hsite (hsmooth t _) (hclock t _) (hB.permits hm)
    (fun act ha => hin act (hupcoming act ha)) hread hm.acts
  exact ⟨_, b', hgoes, hB.moves hm hr hT⟩

omit [DecidableEq ι] in
lemma Bookkeeping.gate_free (hB : Bookkeeping T roles hs b c)
    (hdone : ∀ t, (roles t).isClient = true → c.result t = some true) :
    c.world.base.locks.gate = none := by
  by_contra hheld
  obtain ⟨t, ht⟩ := Option.ne_none_iff_exists'.1 hheld
  have hgate := (hB.tracks.standing.gate t).2 ht
  cases hc : (roles t).isClient with
  | false => exact absurd ((hB.background t hc).1.symm.trans hgate) Bool.false_ne_true
  | true =>
    have hown := hB.serves t
    rw [Config.result_eq_some.1 (hdone t hc)] at hown
    rw [hown.result rfl] at hgate
    exact absurd hgate Bool.false_ne_true

end Bookkeeping

/-- The store holds what the log says, and no deadline of that comes by the time `T`. -/
structure Loaded (T : ℤ) (ms : List Mutation) (s : Store) : Prop where
  wellFormed : WellFormed s
  journal : s.journal.isSome = true
  kept : (lasting T).Kept s.image
  logged : ∀ m ∈ ms, (lasting T).Logged m.record
  view : s.view.rounded = appliedAll ms fun _ => none

lemma loaded_configured (T : ℤ) (maxMemory : ℤ) (policy : EvictionPolicy) :
    Loaded T [] (configured true maxMemory policy) where
  wellFormed := configured_wellFormed true maxMemory policy
  journal := rfl
  kept := kept_configured true maxMemory policy
  logged _ hm := absurd hm List.not_mem_nil
  view := rfl

lemma Loaded.bookkeeping {ι : Type} {T : ℤ} {ms : List Mutation} {s : Store} (h : Loaded T ms s)
    (settings : Settings) (policy : Policy) (fuel : ℕ) (roles : ι → Role) :
    Bookkeeping T roles (fun _ => .idle) (.opened mutations ms)
      (started settings policy (ms.map Mutation.record) s fuel roles) := by
  refine ⟨⟨?_, ?_⟩, fun t => serves_role settings fuel (roles t), fun t ht =>
    ⟨rfl, background_role settings fuel ht⟩⟩
  · refine ⟨h.wellFormed, h.journal, h.kept, h.view.trans (replay_mutations ms _).symm, ?_,
      ?_, ?_, ?_, ?_⟩
    · exact fun t => ⟨nofun, nofun⟩
    · exact fun t i hi => absurd hi (Finset.notMem_empty i)
    · exact fun t => rfl
    · exact fun _ => rfl
    · exact fun t m hm => absurd hm (Option.not_mem_none m)
  · refine ⟨Ledger.opened_sound policy _, rfl, rfl, h.logged, rfl, le_rfl, ?_, rfl, nofun, nofun,
      nofun, fun _ => ⟨rfl, fun _ => rfl⟩⟩
    rw [show (Logbook.opened mutations ms : Book).settled =
      (Logbook.opened mutations ms : Book).file.length from rfl, List.take_length]
    exact List.prefix_refl _

section Load

variable {T : ℤ} (settings : Settings) {inputs : ℕ → Input} {records : List Record}

lemma loaded_fold (hclock : ∀ n, (inputs n).time ≤ T)
    (h : ∀ record ∈ records, (lasting T).Logged record) :
    ∀ st : Store × ℕ, WellFormed st.1 → st.1.view.Lively T →
      (records.foldl (loaded settings inputs) st).1.view = foldRecords records st.1.view := by
  have hL : ∀ d, (lasting T).deadline d → T < floorMilli d := fun _ => lasting_lt
  induction records with
  | nil => exact fun _ _ _ => rfl
  | cons record records ih =>
    intro st hst hlively
    obtain ⟨m, hm, rfl⟩ := h record List.mem_cons_self
    have hview : (loaded settings inputs st m.record).1.view = m.applied st.1.view := by
      have happ := applies (exec_image (applyLogged settings m.record) (shift st.2 inputs) st.1 hst)
      rcases hx : exec (applyLogged settings m.record) (shift st.2 inputs) st.1 with ⟨err, k, s'⟩
      rw [hx] at happ
      simp only [loaded, hx]
      cases happ with
      | accepted _ hk => exact hk.trans (replayed_eq hL hm (hclock _) hlively)
      | refused hno => exact absurd (readable_of_sound (fun _ => lasting_stampable) hm) hno
    have hrest := ih (fun record hr => h record (List.mem_cons_of_mem _ hr))
      (loaded settings inputs st m.record) (exec_wellFormed _ _ _ hst)
        (hview ▸ lively_replay hL hm hlively)
    rw [List.foldl_cons, hrest, hview, ← foldRecord_record]
    rfl

lemma load_cut (hclock : ∀ n, (inputs n).time ≤ T)
    (h : ∀ record ∈ records, (lasting T).Logged record) (maxMemory : ℤ)
    (evict : EvictionPolicy) {file : Bytes} (hfile : file <+: encodeAll records) :
    ∃ res, Aof.replay (load settings inputs) (configured false maxMemory evict, 0)
      (some file) = some res ∧ res.error = none ∧
      res.state.1.view =
        foldRecords (records.take (fitting records file.length)) fun _ => none := by
  have hacc := load_accepts settings inputs fun record hr => accepted_of_logged
    (fun _ => lasting_stampable) settings (h record hr)
  have hlim : ∀ record ∈ records, WithinLimits record := fun record hr =>
    withinLimits_of_logged (fun _ hb => hb) (fun _ hn => hn)
      (fun _ hd => length_unixMillis_le (lasting_stampable hd)) (h record hr)
  have hwf := configured_wellFormed false maxMemory evict
  have hstart : WellFormed ((configured false maxMemory evict, 0) : Store × ℕ).1 := hwf
  have hcut := replayFile_cut hacc hlim hfile.length_le hstart
  rw [← List.prefix_iff_eq_take.1 hfile] at hcut
  refine ⟨_, hcut, rfl, ?_⟩
  refine loaded_fold settings hclock (fun record hr => h record (List.mem_of_mem_take hr)) _ hwf ?_
  exact fun key it hk => absurd hk nofun

end Load

section Rewrite

variable {ι : Type} [DecidableEq ι]

/-- Once the clients have been served, the log makes the keyspace that there is, whatever rewrites
have gone on meanwhile. It is flushed before it is read. -/
theorem rewrite_keeps_keyspace (settings : Settings) (policy : Policy) {T : ℤ} {ms : List Mutation}
    {s : Store} (hloaded : Loaded T ms s) (fuel : ℕ) (roles : ι → Role) (site : Site ι)
    (hsite : ∀ n, site.logFaults n = none) (stimuli : ι → ℕ → Stimulus)
    (hsmooth : ∀ t n, (stimuli t n).Smooth) (hclock : ∀ t n, (stimuli t n).input.time ≤ T)
    (schedule : List ι)
    (hlasts : (started settings policy (ms.map Mutation.record) s fuel roles).Along
      (Process.act site) stimuli
      (fun c t => ∀ a ∈ upcoming site stimuli c t, ∀ d ∈ newDeadline c.world.base.store.view a,
      T < floorMilli d) schedule)
    (hfits : (started settings policy (ms.map Mutation.record) s fuel roles).Along
      (Process.act site) stimuli
      (fun c t => ∀ a ∈ upcoming site stimuli c t, inTime c.world.base.store.view a = true ∧
      inSize a = true) schedule) :
    let c := (started settings policy (ms.map Mutation.record) s fuel roles).after
      (Process.act site) stimuli schedule
    (∀ t, (roles t).isClient = true → c.result t = some true) →
      ∀ inputs : ℕ → Input, (∀ n, (inputs n).time ≤ T) → ∀ maxMemory evict,
        ∃ res, Aof.replay (load settings inputs) (configured false maxMemory evict, 0)
          (some (c.world.ledger.log.sync site.logFaults true).2.atPath) = some res ∧
          res.error = none ∧ res.state.1.view = c.world.base.store.view.rounded := by
  intro c hdone inputs hinputs maxMemory evict
  obtain ⟨hs, b, hB, hb⟩ : ∃ hs b, Bookkeeping T roles hs b c ∧ b.Sound mutations shardIndex := by
    refine Config.after_induction (P := fun c => ∃ hs b, Bookkeeping T roles hs b c ∧
      b.Sound mutations shardIndex) ?_ schedule _
        ⟨_, _, hloaded.bookkeeping settings policy fuel roles, Logbook.sound_opened ms⟩
          (hlasts.and hfits)
    rintro c t a r c' ⟨hs, b, hB, hb⟩ ⟨hl, hf⟩ hm
    obtain ⟨hs', b', hgoes, hB'⟩ : ∃ hs' b', Goes (fun _ _ => True) b b' ∧
        Bookkeeping T roles hs' b' c' :=
      hB.step hsite hsmooth hclock
        (fun act ha => admits_lasting (hl act ha) (hf act ha).1 (hf act ha).2)
          (fun _ _ _ => trivial) hm
    refine ⟨hs', b', hB', ?_⟩
    rcases hgoes with rfl | hstep
    · exact hb
    · exact hb.step hstep
  obtain ⟨hS, hR⟩ := hB.tracks
  have hsync : (c.world.ledger.log.sync site.logFaults true).1 = none :=
    congrArg Prod.fst (syncLocked_calm hsite hR.calm (hR.sound.clean.working hR.calm) _)
  have hfile := hR.sound.clean.sync_complete site.logFaults true hsync
  have hlogged : ∀ record ∈ c.world.ledger.traced.records, (lasting T).Logged record := by
    rw [hR.records]
    exact List.forall_mem_map.2 hR.logged
  have hwhole : (c.world.ledger.log.sync site.logFaults true).2.atPath <+:
    encodeAll c.world.ledger.traced.records := by rw [hfile]
  obtain ⟨res, hres, herr, hview⟩ := load_cut settings hinputs hlogged maxMemory evict hwhole
  refine ⟨res, hres, herr, ?_⟩
  rw [hview, hfile, fitting_whole, List.take_length, hR.records, foldRecords_records,
    ← replay_mutations]
  rw [hS.view, hb.file, hS.free (hB.gate_free hdone), Option.toList_none, List.append_nil]

def clientAndRewriter (src : Bytes) : Bool → Role
  | true => .client src
  | false => .rewriter

def calmStimuli : Bool → ℕ → Stimulus := fun _ _ => calmly 1600000000000000000

lemma calmly_smooth (time : ℤ) : (calmly time).Smooth := ⟨rfl, rfl, fun _ => rfl, rfl⟩

def writesMeanwhile : Bytes :=
  ascii "*3\r\n$3\r\nSET\r\n$1\r\nk\r\n$1\r\na\r\n" ++ ascii "*1\r\n$12\r\nBGREWRITEAOF\r\n" ++
    ascii "*3\r\n$6\r\nEXPIRE\r\n$1\r\nk\r\n$2\r\n10\r\n" ++
    ascii "*3\r\n$3\r\nSET\r\n$1\r\nk\r\n$1\r\nb\r\n"

def meanwhile : Running Bool :=
  started plain .always [] (configured true 0 .noEviction) 0 (clientAndRewriter writesMeanwhile)

def meanwhileTurns : List Bool :=
  List.replicate 19 true ++ List.replicate 40 false ++ List.replicate 21 true ++
    List.replicate 28 false ++ List.replicate 10 true

theorem rewrite_keeps_keyspace_writesMeanwhile :
    let c := meanwhile.after (Process.act (calmSite Bool)) calmStimuli meanwhileTurns
    c.world.ledger.subsumed = 1 ∧ ∃ res, Aof.replay (load plain (clockAt 1600000001000000000))
        (configured false 0 .noEviction, 0)
        (some (c.world.ledger.log.sync (calmSite Bool).logFaults true).2.atPath) = some res ∧
      res.error = none ∧ res.state.1.view = c.world.base.store.view.rounded := by
  have hclock : (1600000000000000000 : ℤ) ≤ 1600000001000000000 := by decide
  -- the run is evaluated once for all that is asked of it
  have hrun :
    (meanwhile.after (Process.act (calmSite Bool)) calmStimuli
      meanwhileTurns).world.ledger.subsumed = 1 ∧
        meanwhile.Along (Process.act (calmSite Bool)) calmStimuli
          (fun c t => ∀ a ∈ upcoming (calmSite Bool)
        calmStimuli c t, ∀ d ∈ newDeadline c.world.base.store.view a,
          1600000001000000000 < floorMilli d)
        meanwhileTurns ∧
      meanwhile.Along (Process.act (calmSite Bool)) calmStimuli
        (fun c t => ∀ a ∈ upcoming (calmSite Bool) calmStimuli c t,
          inTime c.world.base.store.view a = true ∧ inSize a = true) meanwhileTurns ∧
      ∀ t, (clientAndRewriter writesMeanwhile t).isClient = true →
        (meanwhile.after (Process.act (calmSite Bool)) calmStimuli meanwhileTurns).result t =
            some true := by
    decide +kernel
  obtain ⟨hsubsumed, hlasts, hfits, hdone⟩ := hrun
  refine ⟨hsubsumed, ?_⟩
  have hkeeps :=
    rewrite_keeps_keyspace plain .always (loaded_configured 1600000001000000000 0 .noEviction) 0
    (clientAndRewriter writesMeanwhile) (calmSite Bool) (fun _ => rfl) calmStimuli
    (fun _ _ => calmly_smooth _) (fun _ _ => hclock) meanwhileTurns hlasts hfits
  rw [List.map_nil, ← meanwhile] at hkeeps
  exact hkeeps hdone (clockAt 1600000001000000000) (fun _ => le_rfl) 0 .noEviction

/-- The rewrite writes the deadline of the year 2305 that the next start refuses to read. -/
theorem rewrite_unreadable_farAhead :
    let src := ascii
      "*5\r\n$3\r\nSET\r\n$1\r\nk\r\n$1\r\nv\r\n$2\r\nEX\r\n$10\r\n9000000000\r\n*1\r\n$12\r\nBGREWRITEAOF\r\n"
    let c₀ := started plain .always [] (configured true 0 .noEviction) 0 (clientAndRewriter src)
    let c := c₀.after (Process.act (calmSite Bool)) (fun _ _ => calmly 1600000000000000000)
      (List.replicate 30 true ++ List.replicate 70 false)
    c₀.Along (Process.act (calmSite Bool)) (fun _ _ => calmly 1600000000000000000)
        (fun c t => ∀ a ∈ upcoming (calmSite Bool) (fun _ _ => calmly 1600000000000000000) c t,
          ∀ d ∈ newDeadline c.world.base.store.view a, 1600000001000000000 < floorMilli d)
        (List.replicate 30 true ++ List.replicate 70 false) ∧
      (∀ t, c.result t = some true) ∧ c.world.ledger.subsumed = 1 ∧
      (Aof.replay (load plain (clockAt 1600000001000000000)) (configured false 0 .noEviction, 0)
        (some (c.world.ledger.log.sync (calmSite Bool).logFaults true).2.atPath)).map
            (fun res => res.error.isSome) = some true := by
  dsimp only
  decide +kernel

end Rewrite

end RedisClone.Server
