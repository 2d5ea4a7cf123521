import RedisClone.Server.Rewrite

namespace RedisClone.Server

open Store Aof Resp Lib Lib.Program

/-- A shard is read for a rewrite while it holds a key that the log knows nothing of since the
rewrite began but PEXPIREATs, and these to another deadline than the key now has. -/
def Process.torn {ι : Type} (w : Process ι) : Act → Bool
  | .shardSnapshot i _ => (w.base.store.shards i).data.entries.any fun p =>
    match mutations.overall (w.ledger.traced.since.filterMap readRecord) p.1 with
    | .stamp d => decide (p.2.expiresAt.map floorMilli ≠ some d)
    | _ => false
  | _ => false

section Untorn

variable {ι : Type} {T : ℤ} {hs : ι → Stand} {b : Book} {w : Process ι}

lemma Process.torn_eq_false {i : ShardId} {time : ℤ} (h : w.torn (.shardSnapshot i time) = false)
    (hw : WellFormed w.base.store) {key : Key} (hkey : shardIndex key = i) {it : Item}
    (hit : w.base.store.view key = some it) {d : ℤ}
    (hd : mutations.overall (w.ledger.traced.since.filterMap readRecord) key = .stamp d) :
    it.expiresAt.map floorMilli = some d := by
  obtain ⟨e, he, rfl⟩ := Option.map_eq_some_iff.1 hit
  have hmem := AList.mem_lookup_iff.1 ((hw.lookup_shard i key e).2 ⟨hkey, he⟩)
  have hthis := List.any_eq_false.1 h ⟨key, e⟩ hmem
  simp only [hd, decide_eq_true_eq, not_not] at hthis
  exact hthis

lemma Tracks.untorn (hT : Tracks T hs b w) (hb : b.Sound mutations shardIndex)
    {i : ShardId} {time : ℤ} (hfree : w.base.locks.shards i = none)
    (htorn : w.torn (.shardSnapshot i time) = false) : b.Untorn mutations shardIndex i := by
  intro r hr m hm k hk
  obtain ⟨hS, hR⟩ := hT
  obtain ⟨u, hu⟩ := hS.holder hm
  have hnot : shardIndex k ∉ (hs u).shards := by
    intro hmem
    have hheld := hS.shards u _ hmem
    rw [hk, hfree] at hheld
    exact absurd hheld nofun
  refine ((hS.covered u m hu).alone hnot).imp_right fun halone => ⟨halone, fun d v hd hv => ?_⟩
  have hnow : b.now k = some v := by
    rw [hb.file, hm, Option.toList_some, mutations.replay_append, mutations.replay_singleton, hv]
    rfl
  rw [← hS.view] at hnow
  obtain ⟨it, hit, rfl⟩ := Option.map_eq_some_iff.1 hnow
  have hdeadline : it.expiresAt.map floorMilli = some d := by
    refine w.torn_eq_false htorn hS.wellFormed hk hit ?_
    rw [hR.tail r hr, overall_readRecord]
    exact hd
  exact congrArg (Item.mk it.val) hdeadline.symm

end Untorn

section Run

variable {ι : Type} [DecidableEq ι] {T : ℤ}

def Visited (site : Site ι) (stimuli : ι → ℕ → Stimulus) (c : Running ι) (schedule : List ι) (n : ℕ)
    (ks : Keyspace) : Prop :=
  ∃ s, s <+: schedule ∧ (c.after (Process.act site) stimuli s).world.ledger.history.length = n ∧
    (c.after (Process.act site) stimuli s).world.base.store.view.rounded = ks

/-- Whatever is left of the log makes a keyspace that there was when `n` records had been appended,
or later. -/
def Recoverable (T : ℤ) (roles : ι → Role) (visited : ℕ → Keyspace → Prop) (n : ℕ) (c : Running ι) :
    Prop :=
  ∃ hs b, Bookkeeping T roles hs b c ∧ b.Sound mutations shardIndex ∧ b.Whole mutations shardIndex ∧
    b.Recalled mutations visited ∧ b.Retains n

variable {site : Site ι} {roles : ι → Role} {stimuli : ι → ℕ → Stimulus}
  {visited : ℕ → Keyspace → Prop} {n : ℕ} {c c' : Running ι} {t : ι} {a : ConnAct} {r : a.Resp}

omit [DecidableEq ι] in
lemma Bookkeeping.book_visited {hs : ι → Stand} {b : Book} (hB : Bookkeeping T roles hs b c)
    (hv : visited c.world.ledger.history.length c.world.base.store.view.rounded) :
    visited b.count b.now := by
  rw [← hB.tracks.recording.count, ← hB.tracks.standing.view]
  exact hv

omit [DecidableEq ι] in
lemma shard_free {w w' : World ι} {i : ShardId} {time : ℤ} {x : Input}
    {r : Act.Resp (.shardSnapshot i time)}
    (ha : World.act t (.shardSnapshot i time) x w = some (r, w')) : w.locks.shards i = none := by
  obtain ⟨locks, hl, -⟩ := Option.map_eq_some_iff.1 ha
  simp only [Locks.after, Act.within, Option.all_some] at hl
  exact Option.isNone_iff_eq_none.1 (of_not_not fun hheld => by simp [hheld] at hl)

lemma Recoverable.step (h : Recoverable T roles visited n c) (hsite : ∀ n, site.logFaults n = none)
    (hsmooth : ∀ t n, (stimuli t n).Smooth) (hclock : ∀ t n, (stimuli t n).input.time ≤ T)
    (hin : ∀ act ∈ upcoming site stimuli c t, (lasting T).Admits c.world.base.store.view act ∧
    c.world.torn act = false) (hm : c.Moves (Process.act site) stimuli t a r c')
    (hv : visited c'.world.ledger.history.length c'.world.base.store.view.rounded) :
    Recoverable T roles visited n c' := by
  obtain ⟨hs, b, hB, hb, hw, hr, hn⟩ := h
  have hread (i : ShardId) (time : ℤ) (ha : a = .store (.shardSnapshot i time)) :
      b.Untorn mutations shardIndex i := by
    subst ha
    have hupcoming : Act.shardSnapshot i time ∈ upcoming site stimuli c t := by
      rw [upcoming, hm.next]
      rfl
    obtain ⟨hact, -⟩ := Process.act_store hB.tracks.standing.journal hm.acts
    exact hB.tracks.untorn hb (shard_free hact) (hin _ hupcoming).2
  obtain ⟨hs', b', hgoes, hB'⟩ :=
    hB.step hsite hsmooth hclock (fun act ha => (hin act ha).1) hread hm
  refine ⟨hs', b', hB', ?_⟩
  rcases hgoes with rfl | hstep
  · exact ⟨hb, hw, hr, hn⟩
  · exact ⟨hb.step hstep, hw.step hb hstep,
      hr.step hw hb hstep (hB'.book_visited hv), hn.step hstep⟩

lemma Recoverable.install (h : Recoverable T roles visited n c)
    (hsmooth : ∀ t n, (stimuli t n).Smooth) {r : ConnAct.Resp .installRewrite}
    (hm : c.Moves (Process.act site) stimuli t .installRewrite r c')
    (hv : visited c'.world.ledger.history.length c'.world.base.store.view.rounded) :
    Recoverable T roles visited c.world.ledger.history.length c' := by
  obtain ⟨hs, b, hB, hb, hw, hr, -⟩ := h
  obtain ⟨b', hstep, hsettled, hcount, hT⟩ :=
    hB.tracks.install (Logbook.Untorn mutations shardIndex) (hsmooth t _) (hB.permits hm) hm.acts
  have hB' := hB.moves hm trivial hT
  refine ⟨_, b', hB', hb.step hstep, hw.step hb hstep, hr.step hw hb hstep
    (hB'.book_visited hv), ?_, ?_⟩
  · rw [hB.tracks.recording.count, hcount]
  · rw [hB.tracks.recording.count, hcount, hsettled]

omit [DecidableEq ι] in
lemma Recoverable.replay (h : Recoverable T roles visited n c) (settings : Settings)
    {inputs : ℕ → Input} (hinputs : ∀ n, (inputs n).time ≤ T) (maxMemory : ℤ)
    (evict : EvictionPolicy) :
    ∃ res, Aof.replay (load settings inputs) (configured false maxMemory evict, 0)
      (some c.world.ledger.log.atPath) = some res ∧ res.error = none ∧ ∃ m, n ≤ m ∧
      visited m res.state.1.view := by
  obtain ⟨hs, b, hB, hb, -, hr, hn⟩ := h
  obtain ⟨hS, hR⟩ := hB.tracks
  have hlogged : ∀ record ∈ c.world.ledger.traced.records, (lasting T).Logged record := by
    rw [hR.records]
    exact List.forall_mem_map.2 hR.logged
  obtain ⟨res, hres, herr, hview⟩ :=
    load_cut settings hinputs hlogged maxMemory evict hR.sound.clean.atPath
  refine ⟨res, hres, herr, ?_⟩
  set kept := fitting c.world.ledger.traced.records c.world.ledger.log.atPath.length
  have hkept : kept ≤ b.file.length := by
    refine (fitting_le_length _ _).trans ?_
    rw [hR.records, List.length_map]
  have hsettled : b.settled ≤ kept := by
    refine le_fitting ?_ ?_
    · rw [hR.records, List.length_map]
      exact hR.settled_le
    · rw [hR.records, ← List.map_take]
      exact hR.settled.length_le
  obtain ⟨m, hm, hv⟩ := hr.visited kept hsettled hkept
  refine ⟨m, hn.le hsettled hm, ?_⟩
  rw [hview, hR.records, ← List.map_take, foldRecords_records, ← replay_mutations]
  exact hv

lemma Loaded.recoverable {ms : List Mutation} {s : Store} (h : Loaded T ms s) (settings : Settings)
    (policy : Policy) (fuel : ℕ) (schedule : List ι) :
    Recoverable T roles (Visited site stimuli
        (started settings policy (ms.map Mutation.record) s fuel roles) schedule) 0
      (started settings policy (ms.map Mutation.record) s fuel roles) := by
  refine ⟨_, _, h.bookkeeping settings policy fuel roles, Logbook.sound_opened ms,
    Logbook.whole_opened ms, Logbook.recalled_opened ?_, Logbook.retains_opened ms⟩
  exact ⟨[], List.nil_prefix, rfl, h.view.trans (replay_mutations ms _).symm⟩

lemma history_of_length (c : Running ι) {schedule s s' : List ι} (hs : s <+: schedule)
    (hs' : s' <+: schedule)
    (hlen : (c.after (Process.act site) stimuli s).world.ledger.history.length ≤
      (c.after (Process.act site) stimuli s').world.ledger.history.length) :
    (c.after (Process.act site) stimuli s).world.ledger.history <+:
      (c.after (Process.act site) stimuli s').world.ledger.history := by
  rcases List.prefix_or_prefix_of_prefix hs hs' with ⟨rest, rfl⟩ | ⟨rest, rfl⟩
  · rw [Config.after_append]
    exact after_history stimuli rest _
  · have hle : (c.after (Process.act site) stimuli s').world.ledger.history <+:
        (c.after (Process.act site) stimuli (s' ++ rest)).world.ledger.history := by
      rw [Config.after_append]
      exact after_history stimuli rest _
    rw [hle.eq_of_length_le hlen]

/-- A process that stops after a rewrite leaves a log that makes a keyspace the process had, with
all in it that was in the log when the rewrite was installed. -/
theorem crash_exposes_visited_keyspace (settings : Settings) (policy : Policy) {ms : List Mutation}
    {s : Store} (hloaded : Loaded T ms s) (fuel : ℕ) (roles : ι → Role) (site : Site ι)
    (hsite : ∀ n, site.logFaults n = none) (stimuli : ι → ℕ → Stimulus)
    (hsmooth : ∀ t n, (stimuli t n).Smooth) (hclock : ∀ t n, (stimuli t n).input.time ≤ T)
    (before later : List ι) (t : ι)
    (hlasts : (started settings policy (ms.map Mutation.record) s fuel roles).Along
      (Process.act site) stimuli
      (fun c t => ∀ a ∈ upcoming site stimuli c t, ∀ d ∈ newDeadline c.world.base.store.view a,
      T < floorMilli d) (before ++ t :: later))
    (hfits : (started settings policy (ms.map Mutation.record) s fuel roles).Along
      (Process.act site) stimuli
      (fun c t => ∀ a ∈ upcoming site stimuli c t, inTime c.world.base.store.view a = true ∧
      inSize a = true ∧ c.world.torn a = false) (before ++ t :: later)) :
    let c₀ := started settings policy (ms.map Mutation.record) s fuel roles
    let c₁ := c₀.after (Process.act site) stimuli before
    let c := c₀.after (Process.act site) stimuli (before ++ t :: later)
    c₁.next (Process.act site) stimuli t = some .installRewrite →
      ∀ inputs : ℕ → Input, (∀ n, (inputs n).time ≤ T) → ∀ maxMemory evict,
        ∃ res, Aof.replay (load settings inputs) (configured false maxMemory evict, 0)
          (some c.world.ledger.log.atPath) = some res ∧ res.error = none ∧
          ∃ s', s' <+: before ++ t :: later ∧ c₁.world.ledger.history <+:
              (c₀.after (Process.act site) stimuli s').world.ledger.history ∧
            res.state.1.view =
            (c₀.after (Process.act site) stimuli s').world.base.store.view.rounded := by
  intro c₀ c₁ c hinstall inputs hinputs maxMemory evict
  set visited := Visited site stimuli c₀ (before ++ t :: later)
  have hvisit : c₀.Along (Process.act site) stimuli (fun c u =>
      visited (c.step (Process.act site) stimuli u).world.ledger.history.length
        (c.step (Process.act site) stimuli u).world.base.store.view.rounded)
            (before ++ t :: later) := by
    refine (Config.along_visited _ c₀).mono ?_
    rintro c u ⟨s', hs', he⟩
    exact ⟨s', hs', by rw [he], by rw [he]⟩
  have hall := (hlasts.and hfits).and hvisit
  obtain ⟨hbefore, ⟨-, hhere⟩, hlater⟩ := Config.along_append.1 hall
  have hrun (n : ℕ) (c : Running ι) (u : ι) (a : ConnAct) (r : a.Resp) (c' : Running ι)
    (h : Recoverable T roles visited n c)
    (hq :
      ((∀ a ∈ upcoming site stimuli c u, ∀ d ∈ newDeadline c.world.base.store.view a,
      T < floorMilli d) ∧ ∀ a ∈ upcoming site stimuli c u, inTime c.world.base.store.view a = true ∧
      inSize a = true ∧ c.world.torn a = false) ∧
      visited (c.step (Process.act site) stimuli u).world.ledger.history.length
      (c.step (Process.act site) stimuli u).world.base.store.view.rounded)
      (hm : c.Moves (Process.act site) stimuli u a r c') : Recoverable T roles visited n c' := by
    obtain ⟨⟨hl, hf⟩, hv⟩ := hq
    rw [hm.step_eq] at hv
    refine h.step hsite hsmooth hclock (fun act ha => ⟨?_, (hf act ha).2.2⟩) hm hv
    exact admits_lasting (hl act ha) (hf act ha).1 (hf act ha).2.1
  have hstart :=
    Config.after_induction (hrun 0) before c₀ (hloaded.recoverable settings policy fuel _) hbefore
  have hinstalled : Recoverable T roles visited c₁.world.ledger.history.length
      (c₁.step (Process.act site) stimuli t) := by
    rcases c₁.step_cases (Process.act site) stimuli t with ⟨-, hnone⟩ | ⟨a, r, hm⟩
    · exact absurd (hinstall.symm.trans hnone) (Option.some_ne_none _)
    · obtain rfl : a = .installRewrite := Option.some.inj (hm.next.symm.trans hinstall)
      exact hstart.install hsmooth hm hhere
  have hend := Config.after_induction (hrun _) later _ hinstalled hlater
  have hc : c = (c₁.step (Process.act site) stimuli t).after (Process.act site) stimuli later :=
    Config.after_append c₀ before (t :: later)
  rw [← hc] at hend
  obtain ⟨res, hres, herr, m, hm, s', hs', hlen, hview⟩ :=
    hend.replay settings hinputs maxMemory evict
  exact ⟨res, hres, herr, s', hs', history_of_length c₀ (List.prefix_append before _) hs'
    (hlen.symm ▸ hm), hview.symm⟩

def ConnAct.installs : ConnAct → Bool
  | .installRewrite => true
  | _ => false

lemma eq_installRewrite {a : Option ConnAct} (h : a.any ConnAct.installs = true) :
    a = some .installRewrite := by
  cases a with
  | none => cases h
  | some a =>
    cases a with
    | installRewrite => rfl
    | _ => cases h

def crashTurns : List Bool :=
  List.replicate 19 true ++ List.replicate 34 false ++ List.replicate 15 true ++
    List.replicate 33 false

/-- The key has its deadline before the shards are read, and its new value changes the store when
they are, but is not in the log yet when the process stops. -/
theorem crash_exposes_visited_keyspace_writesMeanwhile :
    let run := meanwhile.after (Process.act (calmSite Bool)) calmStimuli
    let later := List.replicate 6 true
    ∃ res, Aof.replay (load plain (clockAt 1600000001000000000)) (configured false 0 .noEviction, 0)
        (some (run (crashTurns ++ false :: later)).world.ledger.log.atPath) = some res ∧
      res.error = none ∧ ∃ s', s' <+: crashTurns ++ false :: later ∧
        (run crashTurns).world.ledger.history <+: (run s').world.ledger.history ∧
        res.state.1.view = (run s').world.base.store.view.rounded := by
  have hclock : (1600000000000000000 : ℤ) ≤ 1600000001000000000 := by decide
  have hrun : meanwhile.Along (Process.act (calmSite Bool)) calmStimuli
    (fun c t => ∀ a ∈ upcoming (calmSite Bool)
        calmStimuli c t, ∀ d ∈ newDeadline c.world.base.store.view a,
          1600000001000000000 < floorMilli d)
        (crashTurns ++ false :: List.replicate 6 true) ∧
      meanwhile.Along (Process.act (calmSite Bool)) calmStimuli
        (fun c t => ∀ a ∈ upcoming (calmSite Bool) calmStimuli c t,
          inTime c.world.base.store.view a = true ∧ inSize a = true ∧ c.world.torn a = false)
        (crashTurns ++ false :: List.replicate 6 true) ∧
      ((meanwhile.after (Process.act (calmSite Bool)) calmStimuli crashTurns).next
        (Process.act (calmSite Bool)) calmStimuli false).any ConnAct.installs = true := by
    decide +kernel
  obtain ⟨hlasts, hfits, hinstalls⟩ := hrun
  have hexposes := crash_exposes_visited_keyspace plain .always
    (loaded_configured 1600000001000000000 0 .noEviction) 0 (clientAndRewriter writesMeanwhile)
      (calmSite Bool)
    (fun _ => rfl) calmStimuli (fun _ _ => calmly_smooth _) (fun _ _ => hclock) crashTurns
    (List.replicate 6 true) false hlasts hfits
  rw [List.map_nil, ← meanwhile] at hexposes
  dsimp only at hexposes ⊢
  exact hexposes (eq_installRewrite hinstalls) (clockAt 1600000001000000000)
    (fun _ => le_rfl) 0 .noEviction

lemma exposes_new {site : Site Bool} {stimuli : Bool → ℕ → Stimulus} {c₀ : Running Bool}
    {schedule : List Bool} {ε : Type} {replayed : Option (Replayed (Store × ℕ) ε)}
    (key : Key) (it : Item)
    (hreplay : replayed.map (fun res => (res.error.isNone, res.state.1.view key)) =
      some (true, some it))
    (hstart : c₀.world.base.store.view.rounded key ≠ some it)
    (hsteps : c₀.Along (Process.act site) stimuli
      (fun c t => (c.step (Process.act site) stimuli t).world.base.store.view.rounded key ≠ some it)
        schedule) :
    ∃ res, replayed = some res ∧ res.error = none ∧ ∀ s', s' <+: schedule → res.state.1.view ≠
      (c₀.after (Process.act site) stimuli s').world.base.store.view.rounded := by
  obtain ⟨res, hres, hk⟩ := Option.map_eq_some_iff.1 hreplay
  obtain ⟨herr, hk⟩ := Prod.mk.inj hk
  refine ⟨res, hres, Option.isNone_iff_eq_none.1 herr, fun s' hs' hview => ?_⟩
  rw [hview] at hk
  exact Config.forall_prefix (P := fun c : Running Bool => c.world.base.store.view.rounded key ≠
    some it) hstart hsteps s' hs' hk

def earlyTurns : List Bool := List.replicate 40 true ++ List.replicate 67 false

/-- The shards are read between the two halves of a SET that clears the deadline: the old deadline
stands after the new value in the log, and the process stops. There was no moment when the key had
both. -/
theorem crash_exposes_new_keyspace :
    let run := meanwhile.after (Process.act (calmSite Bool)) calmStimuli
    meanwhile.Along (Process.act (calmSite Bool)) calmStimuli
        (fun c t => ∀ a ∈ upcoming (calmSite Bool) calmStimuli c t,
          (∀ d ∈ newDeadline c.world.base.store.view a, 1600000001000000000 < floorMilli d) ∧
            inTime c.world.base.store.view a = true ∧ inSize a = true) (earlyTurns ++ [false]) ∧
      (run earlyTurns).next (Process.act (calmSite Bool)) calmStimuli false = some .installRewrite ∧
      ∃ res, Aof.replay (load plain (clockAt 1600000001000000000))
        (configured false 0 .noEviction, 0)
          (some (run (earlyTurns ++ [false])).world.ledger.log.atPath) = some res ∧
        res.error = none ∧ ∀ s', s' <+: earlyTurns ++ [false] →
          res.state.1.view ≠ (run s').world.base.store.view.rounded := by
  intro run
  have hruns : meanwhile.Along (Process.act (calmSite Bool)) calmStimuli
      (fun c t => ∀ a ∈ upcoming (calmSite Bool) calmStimuli c t,
        (∀ d ∈ newDeadline c.world.base.store.view a, 1600000001000000000 < floorMilli d) ∧
          inTime c.world.base.store.view a = true ∧ inSize a = true) (earlyTurns ++ [false]) ∧
      ((run earlyTurns).next (Process.act (calmSite Bool)) calmStimuli false).any
          ConnAct.installs = true := by
    decide +kernel
  have hbroken :
    (Aof.replay (load plain (clockAt 1600000001000000000)) (configured false 0 .noEviction, 0)
        (some (run (earlyTurns ++ [false])).world.ledger.log.atPath)).map
          (fun res => (res.error.isNone, res.state.1.view (ascii "k"))) =
        some (true, some ⟨ascii "b", some 1600000010000000000⟩) ∧
      meanwhile.Along (Process.act (calmSite Bool)) calmStimuli (fun c t =>
          (c.step (Process.act (calmSite Bool)) calmStimuli t).world.base.store.view.rounded
            (ascii "k") ≠
          some ⟨ascii "b", some 1600000010000000000⟩) (earlyTurns ++ [false]) := by
    decide +kernel
  have hstart : meanwhile.world.base.store.view.rounded (ascii "k") ≠
      some ⟨ascii "b", some 1600000010000000000⟩ := by decide
  exact ⟨hruns.1, eq_installRewrite hruns.2, exposes_new (ascii "k") _ hbroken.1 hstart hbroken.2⟩

end Run

end RedisClone.Server
