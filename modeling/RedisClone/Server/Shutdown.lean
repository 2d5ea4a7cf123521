import RedisClone.Server.Rewrite
import RedisClone.Server.Rewriters

namespace RedisClone.Server

open Store Aof Lib Lib.Program

section Ledger

variable (faults : Faults) {l : Ledger}

lemma syncLocked_complete {j : Traced} (hj : Clean j) (synced fsync : Bool)
    (h : (j.log.syncLocked faults synced fsync).2.err = none) :
    (j.log.syncLocked faults synced fsync).2.bw.file = encodeAll j.records ∧
    (j.log.syncLocked faults synced fsync).2.moved = none := by
  cases he : j.log.err with
  | some fault =>
    rw [syncLocked_latched faults he, he] at h
    exact absurd h (Option.some_ne_none _)
  | none =>
    have hw := BufferedWriter.flush_follows faults (hj.follows he)
    simp only [Log.syncLocked, he] at h ⊢
    split_ifs at h ⊢ with hf hs
    · exact absurd h (Option.some_ne_none _)
    · exact absurd h (Option.some_ne_none _)
    · rw [Bool.not_eq_true] at hf
      have hfile := hw.complete hf
      rw [BufferedWriter.flush_buf faults hf, List.append_nil] at hfile
      exact ⟨hfile, hj.moved he⟩

lemma Ledger.Sound.close (h : l.Sound) (synced : Bool) : (l.close faults synced).Sound :=
  ⟨clean_syncLocked faults h.clean synced true, h.records, h.since, h.subsumed_le, h.began_le⟩

/-- The file at the path of the log is all of what it should hold, and on the disk. -/
def Ledger.Complete (l : Ledger) : Prop :=
  l.log.atPath = encodeAll (l.front ++ l.history.drop l.subsumed) ∧ l.fsynced = l.log.atPath

lemma Ledger.Complete.durable (h : l.Complete) (hs : l.Sound) (i : ℕ) : l.Durable i :=
  hs.durable (by rw [h.2, h.1, hs.records]) i

lemma Ledger.Sound.close_complete (h : l.Sound) (synced : Bool)
    (he : (l.close faults synced).log.err = none) : (l.close faults synced).Complete := by
  obtain ⟨hfile, hmoved⟩ := syncLocked_complete faults h.clean synced true he
  have hnone : (l.log.syncLocked faults synced true).2.err.isNone = true :=
    Option.isNone_iff_eq_none.2 he
  have hpath : (l.close faults synced).log.atPath = encodeAll l.traced.records := by
    change (l.log.syncLocked faults synced true).2.moved.getD _ = _
    rw [hmoved]
    exact hfile
  refine ⟨hpath.trans (congrArg encodeAll h.records), ?_⟩
  rw [hpath]
  simp only [Ledger.close, hnone, if_true]
  exact hfile

end Ledger

namespace Service

variable {ι : Type} [DecidableEq ι] {roles : ι → Role} {site : Site ι} {stimuli : ι → ℕ → Stimulus}
  {v v' : Service ι} {e : Occurrence ι}

lemma Happened.ledger (h : Happened roles site stimuli v e v') : v'.ledger = v.ledger ∨
    (∃ call, v'.ledger = v.ledger.call site.logFaults call) ∨
      v'.stage = .exited ∧ ∃ synced, v'.ledger = v.ledger.close site.logFaults synced := by
  cases h with
  | @close synced => exact .inr (.inr ⟨rfl, synced, rfl⟩)
  | run _ _ hm => exact (Process.act_ledger hm.acts).imp_right .inl
  | @tick synced =>
    by_cases hp : v.ledger.log.policy = .everysec
    · exact .inr (.inl ⟨.sync synced, if_pos hp⟩)
    · exact .inr (.inl ⟨.flush, if_neg hp⟩)
  | @lastSync synced => exact .inr (.inl ⟨.sync synced, rfl⟩)
  | _ => exact .inl rfl

structure Steady (roles : ι → Role) (v : Service ι) : Prop where
  tended : v.Tended
  accounted : ∃ hands flying, v.Accounted roles hands flying
  settled : v.stage.settled = true → v.rewriteWG = 0
  sound : v.ledger.Sound
  closed : v.stage = .exited → v.ledger.log.err = none → v.ledger.Complete

lemma act_begun {t : ι} {a : ConnAct} {r : a.Resp} {x : Stimulus} {w w' : Process ι}
    (hact : Process.act site t a x w = some (r, w')) (hmore : w'.spawned = w.spawned + 1) :
    a = .beginRewrite := by
  cases Process.act_cases hact with
  | beginRewrite => rfl
  | startRewrite =>
    dsimp only at hmore
    omega
  | _ => exact absurd hmore (Nat.succ_ne_self _).symm

lemma Steady.settled_run (h : v.Steady roles) {t : ι} {a : ConnAct} {r : a.Resp} {c : Running ι}
    (hconn : (roles t).isClient = true → t ∈ v.conns)
    (hm : v.goroutines.Moves (Process.act site) stimuli t a r c)
    (hstage : v.stage.settled = true) : (v.moved roles t c).rewriteWG = 0 := by
  obtain ⟨hands, flying, hA⟩ := h.accounted
  have hdrained : v.stage.drained = true := by
    revert hstage
    cases v.stage <;> decide
  -- no handler is left that could begin a rewrite
  have hbegun : ¬ c.world.spawned = v.goroutines.world.spawned + 1 := by
    intro hmore
    obtain rfl := act_begun hm.acts hmore
    have ht := hconn (hA.moves hm).1.1
    rw [h.tended.drained hdrained] at ht
    exact List.not_mem_nil ht
  rw [moved, h.settled hstage, if_neg hbegun, Nat.add_zero, Nat.zero_sub]

lemma Steady.step (h : v.Steady roles) (he : Happened roles site stimuli v e v') :
    v'.Steady roles := by
  obtain ⟨hands, flying, hA⟩ := h.accounted
  have hsound : v'.ledger.Sound := by
    rcases he.ledger with hl | ⟨call, hl⟩ | ⟨-, synced, hl⟩ <;> rw [hl]
    · exact h.sound
    · exact h.sound.call _ call
    · exact h.sound.close _ synced
  have hcall {call : LogCall} (hc : call.ofRewrite = false) :
      (v.withLedger (v.ledger.call site.logFaults call)).Accounted roles hands flying := by
    obtain ⟨htmp, hrewriting⟩ := run_rewriting site.logFaults (l := v.ledger.log) hc
    exact hA.withLedger (by rw [Ledger.call_log, htmp]) (by rw [Ledger.call_log, hrewriting])
  have hgone {stage : Station} (hstage : v.stage = stage) (hne : stage ≠ .exited) :
    v.stage ≠ .exited := hstage ▸ hne
  have hlives (halive : v.stage.alive = true) : v.stage ≠ .exited := fun hexit => by
    rw [hexit] at halive
    exact Bool.false_ne_true halive
  refine ⟨h.tended.step he, ?_, ?_, hsound, ?_⟩
  · cases he with
    | run _ _ hm => exact hA.run hm
    | close =>
      obtain ⟨htmp, hrewriting⟩ := syncLocked_rewriting site.logFaults (l := v.ledger.log) _ true
      exact ⟨hands, flying, { hA.withLedger htmp hrewriting with }⟩
    | tick =>
      simp only [Ledger.tick]
      split_ifs
      · exact ⟨hands, flying, hcall rfl⟩
      · exact ⟨hands, flying, hcall rfl⟩
    | lastSync => exact ⟨hands, flying, { hcall rfl with }⟩
    | _ => exact ⟨hands, flying, { hA with }⟩
  · cases he with
    | run _ hconn hm => exact h.settled_run hconn hm
    | background _ hrewrites => exact fun _ => hrewrites
    | close hstage => exact fun _ => h.settled (by rw [hstage]; rfl)
    | crash | serveReturns | timeout | drained => exact fun hs => absurd hs Bool.false_ne_true
    | _ => exact h.settled
  · cases he with
    | close => exact fun _ hnone => h.sound.close_complete _ _ hnone
    | crash | serveReturns | timeout | drained | background => exact Station.noConfusion
    | accept hstage => exact fun hexit => absurd hexit (hgone hstage Station.noConfusion)
    | interrupt halive | closeListener halive | run halive | leave halive | tick halive
    | lastSync halive =>
      exact fun hexit => absurd hexit (hlives halive)

omit [DecidableEq ι] in
lemma launched_steady (settings : Settings) (policy : Policy) (records : List Record) (s : Store)
    (fuel : ℕ) (roles : ι → Role) :
    (launched settings policy records s fuel roles).Steady roles where
  tended :=
    ⟨List.nodup_nil, fun _ h => absurd h List.not_mem_nil, fun _ h => absurd h List.not_mem_nil,
      rfl, rfl, fun _ => rfl⟩
  accounted := by
    refine ⟨fun _ => .waiting, [],
      ⟨fun t => behaves_role settings fuel (roles t), fun _ _ _ => rfl⟩, List.nodup_nil,
        fun t => ?_, ?_, rfl, ?_, ?_⟩
    · exact iff_of_false List.not_mem_nil Bool.false_ne_true
    · exact fun _ h => absurd h List.not_mem_nil
    · exact fun h => absurd h Bool.false_ne_true
    · exact fun h => absurd h Bool.false_ne_true
  settled h := absurd h Bool.false_ne_true
  sound := Ledger.opened_sound policy records
  closed h := Station.noConfusion h

lemma after_steady (settings : Settings) (policy : Policy) (records : List Record) (s : Store)
    (fuel : ℕ) (roles : ι → Role) (site : Site ι) (stimuli : ι → ℕ → Stimulus)
    (events : List (Occurrence ι)) :
    ((launched settings policy records s fuel roles).after roles site stimuli events).Steady
      roles :=
  after_induction (fun _ _ _ hv he => hv.step he) events _
    (launched_steady settings policy records s fuel roles)

section Quiet

lemma call_history_of_ne {faults : Faults} {l : Ledger} {call : LogCall}
    (h : ∀ record, call ≠ .append record) : (l.call faults call).history = l.history := by
  cases call with
  | append record => exact absurd rfl (h record)
  | sync | beginRewrite | installRewrite =>
    simp only [Ledger.call]
    split_ifs <;> rfl
  | flush | prepareRewrite => rfl

lemma act_history {t : ι} {a : ConnAct} {r : a.Resp} {x : Stimulus} {w w' : Process ι}
    (ha : ∀ record, a ≠ .store (.propagate record))
    (hact : Process.act site t a x w = some (r, w')) : w'.ledger.history = w.ledger.history := by
  cases Process.act_cases hact with
  | latched | appended => exact absurd rfl (ha _)
  | beginRewrite | synced | prepareRewrite | installRewrite | flushLog =>
    exact call_history_of_ne fun _ => LogCall.noConfusion
  | _ => rfl

lemma Steady.quiet (h : v.Steady roles) (hdrained : v.stage.drained = true)
    (he : Happened roles site stimuli v e v') :
    v'.stage.drained = true ∧ v'.accepted = v.accepted ∧ v'.ledger.history = v.ledger.history := by
  have hpast {stage : Station} (hstage : v.stage = stage) (hnot : stage.drained = false) :
      False := by
    rw [hstage, hnot] at hdrained
    exact Bool.false_ne_true hdrained
  cases he with
  | accept hstage | crash hstage | serveReturns hstage | timeout hstage =>
    exact (hpast hstage rfl).elim
  | drained hstage => exact (hstage.elim (hpast · rfl) (hpast · rfl)).elim
  | background | close => exact ⟨rfl, rfl, rfl⟩
  | interrupt | closeListener | leave => exact ⟨hdrained, rfl, rfl⟩
  | tick =>
    refine ⟨hdrained, rfl, ?_⟩
    simp only [withLedger, Ledger.tick]
    split_ifs <;> exact call_history_of_ne fun _ => LogCall.noConfusion
  | lastSync => exact ⟨hdrained, rfl, call_history_of_ne fun _ => LogCall.noConfusion⟩
  | @run t a r c _ hconn hm =>
    obtain ⟨hands, flying, hA⟩ := h.accounted
    refine ⟨hdrained, rfl, act_history (fun record ha => ?_) hm.acts⟩
    subst ha
    have ht := hconn (hA.moves hm).1.1
    rw [h.tended.drained hdrained] at ht
    exact List.not_mem_nil ht

lemma Steady.quiet_after (events : List (Occurrence ι)) :
    ∀ {v : Service ι}, v.Steady roles → v.stage.drained = true →
    (v.after roles site stimuli events).accepted = v.accepted ∧
    (v.after roles site stimuli events).ledger.history = v.ledger.history := by
  induction events with
  | nil => exact fun _ _ => ⟨rfl, rfl⟩
  | cons e events ih =>
    intro v h hdrained
    rcases v.step_cases roles site stimuli e with hs | he
    · rw [after, List.foldl_cons, hs]
      exact ih h hdrained
    · obtain ⟨hd, haccepted, hhistory⟩ := h.quiet hdrained he
      obtain ⟨h₁, h₂⟩ := ih (h.step he) hd
      exact ⟨h₁.trans haccepted, h₂.trans hhistory⟩

end Quiet

omit [DecidableEq ι] in
lemma Accounted.grounded {hands : ι → Hand} {flying : List ι} (h : v.Accounted roles hands flying)
    (hzero : v.rewriteWG = 0) (t : ι) (hrole : (roles t).isRewriter = true) :
    v.goroutines.taken t = 0 ∨ (v.goroutines.result t).isSome = true := by
  have hsum := h.rewriteWG
  have hflying : flying = [] := List.eq_nil_of_length_eq_zero (by omega)
  have hbusy : ¬ (hands t).busy = true := by
    rw [← h.busy t, hflying]
    exact List.not_mem_nil
  cases hh : hands t with
  | waiting => exact .inl (h.behaving.unstarted t hrole hh)
  | copying | installing =>
    rw [hh] at hbusy
    exact absurd rfl hbusy
  | ended =>
    right
    have hown := h.behaving.keeps t
    rw [hh] at hown
    cases hp : v.goroutines.prog t with
    | done b =>
      rw [Config.result_eq_some.2 hp]
      rfl
    | act a k =>
      rw [hp] at hown
      exact absurd hown.next.1 (Role.not_allows_ended _ _)

/-- When `main` returns, the handlers of all the connections have returned, no rewrite is under way
or yet to run, nothing was accepted or appended since `Drain` returned, and unless the log has
failed all that it should hold is on the disk, whatever the policy. For the sync loop and the expiry
cycle `main` does not wait. -/
theorem shutdown_settles (settings : Settings) (policy : Policy) (records : List Record) (s : Store)
    (fuel : ℕ) (roles : ι → Role) (site : Site ι) (stimuli : ι → ℕ → Stimulus)
    (events : List (Occurrence ι)) :
    let v := (launched settings policy records s fuel roles).after roles site stimuli events
    v.stage = .exited →
      (∀ t ∈ v.accepted, v.goroutines.result t = some true) ∧ v.connections = 0 ∧
      v.goroutines.world.spawned = 0 ∧
      (∀ t, (roles t).isRewriter = true → v.goroutines.taken t = 0 ∨
        (v.goroutines.result t).isSome = true) ∧
      v.ledger.log.rewriting = false ∧ v.ledger.log.tmp = none ∧
      (∀ before later, events = before ++ later →
        let u := (launched settings policy records s fuel roles).after roles site stimuli before
        u.stage.drained = true → v.accepted = u.accepted ∧ v.ledger.history = u.ledger.history) ∧
      (v.ledger.log.err = none → v.ledger.Complete) := by
  intro v hexit
  have hS : v.Steady roles := after_steady settings policy records s fuel roles site stimuli events
  obtain ⟨hands, flying, hA⟩ := hS.accounted
  have hconns : v.conns = [] := hS.tended.drained (by rw [hexit]; rfl)
  have hzero : v.rewriteWG = 0 := hS.settled (by rw [hexit]; rfl)
  have hsum := hA.rewriteWG
  have hflying : flying = [] := List.eq_nil_of_length_eq_zero (by omega)
  have hidle (t : ι) {h : Hand} (hbusy : h.busy = true) : hands t ≠ h := by
    rintro rfl
    have hmem := (hA.busy t).2 hbusy
    rw [hflying] at hmem
    exact List.not_mem_nil hmem
  have htmp : v.ledger.log.tmp = none := by
    by_contra hsome
    obtain ⟨t, ht⟩ := hA.tmp (Option.isSome_iff_ne_none.2 hsome)
    exact hidle t rfl ht
  refine ⟨fun t ht => ?_, ?_, by omega, fun t => hA.grounded hzero t, ?_, htmp,
    fun before later hsplit => ?_, hS.closed hexit⟩
  · refine (hS.tended.served t ht).resolve_left ?_
    rw [hconns]
    exact List.not_mem_nil
  · rw [hS.tended.connections, hconns]
    rfl
  · refine Bool.eq_false_iff.2 fun hrewriting => ?_
    rcases hA.rewriting hrewriting with hspawned | ⟨t, ht⟩ | hsome
    · omega
    · exact hidle t rfl ht
    · rw [htmp] at hsome
      exact Bool.false_ne_true hsome
  · intro u hdrained
    have hu : u.Steady roles :=
      after_steady settings policy records s fuel roles site stimuli before
    have hv : v = u.after roles site stimuli later := by
      simp only [v, u, after, hsplit, List.foldl_append]
    rw [hv]
    exact hu.quiet_after later hdrained

end Service

def lastRewrite : List (Occurrence Bool) :=
  .accept true :: List.replicate 34 (.run true) ++
    [.interrupt, .closeListener, .serveReturns, .leave true, .drained] ++
    List.replicate 68 (.run false) ++ [.background, .close true]

def rewritesBetween : Bytes :=
  ascii "*3\r\n$3\r\nSET\r\n$1\r\nk\r\n$1\r\na\r\n" ++ ascii "*1\r\n$12\r\nBGREWRITEAOF\r\n" ++
    ascii "*3\r\n$3\r\nSET\r\n$1\r\nl\r\n$1\r\nb\r\n"

def lastRun : Service Bool :=
  (Service.launched plain .no [] (configured true 0 .noEviction) 0
    (clientAndRewriter rewritesBetween)).after (clientAndRewriter rewritesBetween)
      (calmSite Bool) calmStimuli lastRewrite

/-- Of the file the rewrite has left, the last record is the one that was appended while it went
on. -/
theorem shutdown_settles_lastRewrite :
    let k := setRecord (ascii "k") (ascii "a") none
    let l := setRecord (ascii "l") (ascii "b") none
    (lastRun.ledger.history = [k, l] ∧ lastRun.ledger.subsumed = 1 ∧
      lastRun.ledger.fsynced = encodeAll [k, l, l]) ∧ lastRun.ledger.Complete := by
  have hexit : lastRun.stage = .exited := by decide +kernel
  have herr : lastRun.ledger.log.err = none := by decide +kernel
  have hsettles := Service.shutdown_settles plain .no [] (configured true 0 .noEviction) 0
    (clientAndRewriter rewritesBetween) (calmSite Bool) calmStimuli lastRewrite
  rw [← lastRun] at hsettles
  exact ⟨by decide +kernel, (hsettles hexit).2.2.2.2.2.2.2 herr⟩

section Keyspace

def Occurrence.smooth {ι : Type} : Occurrence ι → Bool
  | .tick synced | .lastSync synced | .close synced => synced
  | _ => true

def Occurrence.Holds {ι : Type} (P : ι → Prop) : Occurrence ι → Prop
  | .run t => P t
  | _ => True

instance {ι : Type} (P : ι → Prop) [DecidablePred P] : DecidablePred (Occurrence.Holds P)
  | .run t => inferInstanceAs (Decidable (P t))
  | .accept _ | .acceptFails _ | .interrupt | .closeListener | .serveReturns | .timeout | .drained
  | .background | .close _ | .leave _
  | .tick _ | .lastSync _ => isTrue trivial

namespace Service

variable {ι : Type} [DecidableEq ι] (roles : ι → Role) (site : Site ι) (stimuli : ι → ℕ → Stimulus)

def Along (Q : Service ι → ι → Prop) : List (Occurrence ι) → Service ι → Prop
  | [], _ => True
  | e :: events, v => e.Holds (Q v) ∧ Along Q events (v.step roles site stimuli e)

instance instDecidableAlong {Q : Service ι → ι → Prop} [∀ v t, Decidable (Q v t)] :
    ∀ (events : List (Occurrence ι)) (v : Service ι),
    Decidable (Along roles site stimuli Q events v)
  | [], _ => isTrue trivial
  | e :: events, v =>
    have : Decidable (Along roles site stimuli Q events (v.step roles site stimuli e)) :=
      instDecidableAlong events _
    inferInstanceAs (Decidable (e.Holds (Q v) ∧ _))

lemma along_induction {roles : ι → Role} {site : Site ι} {stimuli : ι → ℕ → Stimulus}
    {P : Service ι → Prop} {Q : Service ι → ι → Prop} {R : Occurrence ι → Prop}
    (hstep : ∀ v e v', P v → e.Holds (Q v) → R e → Happened roles site stimuli v e v' → P v')
    (events : List (Occurrence ι)) :
    ∀ v, P v → Along roles site stimuli Q events v → (∀ e ∈ events, R e) →
    P (v.after roles site stimuli events) := by
  induction events with
  | nil => exact fun v hv _ _ => hv
  | cons e events ih =>
    intro v hv ⟨hq, hrest⟩ hR
    obtain ⟨hr, hR⟩ := List.forall_mem_cons.1 hR
    refine ih _ ?_ hrest hR
    rcases v.step_cases roles site stimuli e with hs | he
    · rwa [hs]
    · exact hstep v e _ hv hq hr he

end Service

section Recording

variable {ι : Type} {T : ℤ} {hs : ι → Stand} {b : Book} {spawned : ℕ} {l : Ledger} {faults : Faults}

lemma Recording.close (hR : Recording T hs b spawned l) (hn : ∀ n, faults n = none) :
    Recording T hs b spawned (l.close faults true) := by
  have hlog : (l.close faults true).log = { l.log with bw := l.log.bw.flush faults } :=
    congrArg Prod.snd (syncLocked_calm hn hR.calm (hR.sound.clean.working hR.calm) true)
  have hsnapshot : (l.close faults true).traced.snapshot = l.traced.snapshot := rfl
  have htmp : (l.close faults true).log.tmp = l.log.tmp := by rw [hlog]
  exact
    { hR with
      sound := hR.sound.close faults true
      calm := by rw [hlog]; exact hR.calm
      settled := hR.settled.trans (Log.syncLocked_extends faults true true hR.sound.clean.moved)
      rewriting := by rw [hlog]; exact hR.rewriting
      stage := fun r hr => (hR.stage r hr).congr (fun _ => rfl) hsnapshot htmp }

lemma Recording.close_atPath (hR : Recording T hs b spawned l) (hn : ∀ n, faults n = none) :
    (l.close faults true).log.atPath = encodeAll (l.close faults true).traced.records := by
  obtain ⟨hfile, hmoved⟩ := syncLocked_complete faults hR.sound.clean true true (hR.close hn).calm
  change (l.log.syncLocked faults true true).2.moved.getD _ = _
  rw [hmoved]
  exact hfile

end Recording

variable {ι : Type} [DecidableEq ι] {T : ℤ} {roles : ι → Role} {site : Site ι}
  {stimuli : ι → ℕ → Stimulus}

structure Booked (T : ℤ) (roles : ι → Role) (hs : ι → Stand) (b : Book) (v : Service ι) : Prop where
  books : Bookkeeping T roles hs b v.goroutines
  sound : b.Sound mutations shardIndex
  waiting : ∀ t, (roles t).isClient = true → t ∉ v.accepted → (hs t).gate = false
  closed : v.stage = .exited → v.ledger.log.atPath = encodeAll v.ledger.traced.records

variable {hs : ι → Stand} {b : Book} {v v' : Service ι} {e : Occurrence ι}

lemma Booked.step (h : Booked T roles hs b v) (htended : v.Tended)
    (hsite : ∀ n, site.logFaults n = none) (hsmooth : ∀ t n, (stimuli t n).Smooth)
    (hclock : ∀ t n, (stimuli t n).input.time ≤ T)
    (hin : e.Holds fun t => ∀ act ∈ upcoming site stimuli v.goroutines t,
      (lasting T).Admits v.goroutines.world.base.store.view act) (hok : e.smooth = true)
    (he : Service.Happened roles site stimuli v e v') : ∃ hs' b', Booked T roles hs' b' v' := by
  have hquiet {l : Ledger} (hR : Recording T hs b v.goroutines.world.spawned l) :
      Bookkeeping T roles hs b (v.withLedger l).goroutines :=
        ⟨⟨h.books.tracks.standing, hR⟩, h.books.serves, h.books.background⟩
  have hlives (halive : v.stage.alive = true) : v.stage ≠ .exited := fun hexit => by
    rw [hexit] at halive
    exact Bool.false_ne_true halive
  have hR := h.books.tracks.recording
  cases he with
  | @run t a r c halive hconn hm =>
    have hupcoming (act : Act) (ha : a = .store act) :
        act ∈ upcoming site stimuli v.goroutines t := by
      rw [upcoming, hm.next, ha]
      rfl
    obtain ⟨hr, b', hgoes, hT⟩ : Expected T a r ∧ ∃ b', Goes (fun _ _ => True) b b' ∧
        Tracks T (Function.update hs t (advance (hs t) a r)) b' c.world :=
      h.books.tracks.step hsite (hsmooth t _) (hclock t _) (h.books.permits hm)
        (fun act ha => hin act (hupcoming act ha)) (fun _ _ _ => trivial) hm.acts
    refine ⟨_, b', h.books.moves hm hr hT, ?_, fun u hu hnew => ?_, fun hexit => absurd hexit
      (hlives halive)⟩
    · rcases hgoes with rfl | hstep
      · exact h.sound
      · exact h.sound.step hstep
    · have hne : u ≠ t := by
        rintro rfl
        exact hnew (htended.known u (hconn hu))
      rw [Function.update_of_ne hne]
      exact h.waiting u hu hnew
  | close =>
    obtain rfl : _ = true := hok
    exact ⟨hs, b, hquiet (hR.close hsite), h.sound, h.waiting, fun _ => hR.close_atPath hsite⟩
  | tick halive =>
    obtain rfl : _ = true := hok
    refine ⟨hs, b, hquiet ?_, h.sound, h.waiting, fun hexit => absurd hexit (hlives halive)⟩
    simp only [Ledger.tick]
    split_ifs
    · exact hR.quiet (.inr rfl) hsite
    · exact hR.quiet (.inl rfl) hsite
  | lastSync halive =>
    obtain rfl : _ = true := hok
    exact ⟨hs, b, hquiet (hR.quiet (.inr rfl) hsite), h.sound, h.waiting, fun hexit => absurd hexit
      (hlives halive)⟩
  | accept hstage =>
    refine ⟨hs, b, h.books, h.sound, fun t ht hnew => h.waiting t ht fun hmem =>
      hnew (List.mem_cons_of_mem _ hmem), fun hexit => ?_⟩
    exact absurd (hstage.symm.trans hexit) Station.noConfusion
  | crash | serveReturns | timeout | drained | background =>
    exact ⟨hs, b, h.books, h.sound, h.waiting, Station.noConfusion⟩
  | interrupt halive | closeListener halive | leave halive =>
    exact ⟨hs, b, h.books, h.sound, h.waiting, fun hexit => absurd hexit (hlives halive)⟩

lemma Booked.free (h : Booked T roles hs b v)
    (hserved : ∀ t ∈ v.accepted, v.goroutines.result t = some true) :
    v.goroutines.world.base.locks.gate = none := by
  by_contra hheld
  obtain ⟨t, ht⟩ := Option.ne_none_iff_exists'.1 hheld
  have hgate := (h.books.tracks.standing.gate t).2 ht
  have hopen : (hs t).gate = false := by
    cases hc : (roles t).isClient with
    | false => exact (h.books.background t hc).1
    | true =>
      by_cases hmem : t ∈ v.accepted
      · have hown := h.books.serves t
        rw [Config.result_eq_some.1 (hserved t hmem)] at hown
        rw [hown.result rfl]
        rfl
      · exact h.waiting t hc hmem
  exact Bool.false_ne_true (hopen.symm.trans hgate)

/-- What the process has held when it comes to its end, whatever went on then, the next one finds.
No I/O fails, and no deadline comes by `T`. -/
theorem shutdown_keeps_keyspace (settings : Settings) (policy : Policy) {T : ℤ} {ms : List Mutation}
    {s : Store} (hloaded : Loaded T ms s) (fuel : ℕ) (roles : ι → Role) (site : Site ι)
    (hsite : ∀ n, site.logFaults n = none) (stimuli : ι → ℕ → Stimulus)
    (hsmooth : ∀ t n, (stimuli t n).Smooth) (hclock : ∀ t n, (stimuli t n).input.time ≤ T)
    (events : List (Occurrence ι)) (hevents : ∀ e ∈ events, e.smooth = true)
    (hruns : Service.Along roles site stimuli
      (fun v t => ∀ a ∈ upcoming site stimuli v.goroutines t,
      (∀ d ∈ newDeadline v.goroutines.world.base.store.view a, T < floorMilli d) ∧
      inTime v.goroutines.world.base.store.view a = true ∧ inSize a = true) events
      (.launched settings policy (ms.map Mutation.record) s fuel roles)) :
    let v := (Service.launched settings policy (ms.map Mutation.record) s fuel roles).after roles
      site stimuli events
    v.stage = .exited → ∀ inputs : ℕ → Input, (∀ n, (inputs n).time ≤ T) → ∀ maxMemory evict,
      ∃ res, Aof.replay (load settings inputs) (configured false maxMemory evict, 0)
        (some v.ledger.log.atPath) = some res ∧ res.error = none ∧
        res.state.1.view = v.goroutines.world.base.store.view.rounded := by
  intro v hexit inputs hinputs maxMemory evict
  obtain ⟨hS, hs, b, h⟩ : v.Steady roles ∧ ∃ hs b, Booked T roles hs b v := by
    refine Service.along_induction (P := fun v => v.Steady roles ∧ ∃ hs b, Booked T roles hs b v)
      (R := fun e => e.smooth = true) ?_ events _
        ⟨Service.launched_steady settings policy _ s fuel roles, _, _,
          hloaded.bookkeeping settings policy fuel roles,
        Logbook.sound_opened ms, fun _ _ _ => rfl, Station.noConfusion⟩ hruns hevents
    rintro v e v' ⟨hS, hs, b, h⟩ hq hok he
    refine ⟨hS.step he, h.step hS.tended hsite hsmooth hclock ?_ hok he⟩
    cases e with
    | run t => exact fun act hact =>
        admits_lasting (hq act hact).1 (hq act hact).2.1 (hq act hact).2.2
    | _ => exact trivial
  have hserved (t : ι) (ht : t ∈ v.accepted) : v.goroutines.result t = some true := by
    refine (hS.tended.served t ht).resolve_left ?_
    rw [hS.tended.drained (by rw [hexit]; rfl)]
    exact List.not_mem_nil
  obtain ⟨hstanding, hR⟩ := h.books.tracks
  have hfile := h.closed hexit
  have hlogged : ∀ record ∈ v.ledger.traced.records, (lasting T).Logged record := by
    rw [hR.records]
    exact List.forall_mem_map.2 hR.logged
  obtain ⟨res, hres, herr, hview⟩ := load_cut settings hinputs hlogged maxMemory evict
    (List.prefix_refl (encodeAll v.ledger.traced.records))
  rw [hfile]
  refine ⟨res, hres, herr, ?_⟩
  rw [hview, fitting_whole, List.take_length, hR.records, foldRecords_records, ← replay_mutations]
  rw [hstanding.view, h.sound.file, hstanding.free (h.free hserved), Option.toList_none,
    List.append_nil]

theorem shutdown_keeps_keyspace_lastRewrite :
    ∃ res, Aof.replay (load plain (clockAt 1600000001000000000)) (configured false 0 .noEviction, 0)
        (some lastRun.ledger.log.atPath) = some res ∧
      res.error = none ∧ res.state.1.view = lastRun.goroutines.world.base.store.view.rounded := by
  have hclock : (1600000000000000000 : ℤ) ≤ 1600000001000000000 := by decide
  have hexit : lastRun.stage = .exited := by decide +kernel
  have hevents : ∀ e ∈ lastRewrite, e.smooth = true := by decide
  have hruns : Service.Along (clientAndRewriter rewritesBetween) (calmSite Bool)
      calmStimuli (fun v t => ∀ a ∈ upcoming (calmSite Bool)
        calmStimuli v.goroutines t,
      (∀ d ∈ newDeadline v.goroutines.world.base.store.view a, 1600000001000000000 < floorMilli d) ∧
        inTime v.goroutines.world.base.store.view a = true ∧ inSize a = true) lastRewrite
      (.launched plain .no [] (configured true 0 .noEviction) 0
          (clientAndRewriter rewritesBetween)) := by
    decide +kernel
  have hkeeps :=
    shutdown_keeps_keyspace plain .no (loaded_configured 1600000001000000000 0 .noEviction) 0
    (clientAndRewriter rewritesBetween) (calmSite Bool) (fun _ => rfl)
    calmStimuli (fun _ _ => calmly_smooth _) (fun _ _ => hclock) lastRewrite
    hevents hruns
  rw [List.map_nil, ← lastRun] at hkeeps
  exact hkeeps hexit (clockAt 1600000001000000000) (fun _ => le_rfl) 0 .noEviction

end Keyspace

end RedisClone.Server
