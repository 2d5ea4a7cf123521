import RedisClone.Server.Readback
import RedisClone.Store.Grounding

namespace RedisClone.Server

open Store Resp Lib Lib.Program

section Rule

variable (settings : Settings)

lemma clears_write {name : Bytes} {cmd : Command} (hc : commands name = some cmd)
    (hw : cmd.writes = true) (around : Surroundings) (args : List Bytes) :
    Clears .idle .idle (cmd.fn settings around args) := by
  rcases write_program hc hw settings around args with ⟨-, b, hb, -⟩ | ⟨o, -, ho⟩
  · rw [hb]
    exact .done rfl
  · rw [ho]
    exact (clears_op o).map _

lemma repays_dispatch (around : Surroundings) (fuel : ℕ) (args : List Bytes) :
    Repays (fun _ _ => True) .idle (dispatch settings around fuel args) := by
  rw [← arrive_rest]
  generalize ha : arrive settings around fuel args = phase
  cases arrive_cases ha with
  | empty | unknown | arity | misconf => exact .done trivial
  | preflight hc _ hw =>
    refine Follows.bind (repays_enforceMemoryLimit fuel) fun g e hg => ?_
    cases e with
    | running evicted => exact .done trivial
    | finished evicted fits =>
      cases fits with
      | false => exact .done trivial
      | true =>
        rw [hg fun _ => Enforced.noConfusion]
        exact Follows.map _ ((clears_write settings hc hw around _).imp fun _ _ _ => trivial)
  | handler hc _ hw =>
    exact Follows.map _ ((clears_quiet (read_quiet hc hw)).imp fun _ _ _ => trivial)

lemma repays_client (client : Client) :
    Repays (fun _ _ => True) .idle (client.program settings) := by
  cases client with
  | command r => exact Follows.map _ (repays_dispatch settings r.around r.fuel r.args)
  | expiryCycle => exact Follows.map _ (clears_activeExpireCycle.imp fun _ _ _ => trivial)
  | rewrite => exact Follows.map _ (clears_aofSnapshot.imp fun _ _ _ => trivial)

end Rule

def Mentions (record : Record) (key : Key) : Prop := ∃ m ∈ readRecord record, key ∈ m.mentions

lemma mentions_record {m : Mutation} {key : Key} : Mentions m.record key ↔ key ∈ m.mentions := by
  have hm : m.rounded.mentions = m.mentions := by cases m <;> rfl
  simp only [Mentions, readRecord_record, Option.mem_some_iff, exists_eq_left', hm]

lemma mentioned_iff {T : ℤ} {ms : List Mutation} {key : Key} :
    (∃ record ∈ ms.map Mutation.record, Mentions record key) ↔ key ∈ (replays T).mentioned ms := by
  constructor
  · rintro ⟨record, hr, hk⟩
    obtain ⟨m, hm, rfl⟩ := List.mem_map.1 hr
    exact List.mem_flatMap.2 ⟨m, hm, mentions_record.1 hk⟩
  · intro hk
    obtain ⟨m, hm, hk⟩ := List.mem_flatMap.1 hk
    exact ⟨m.record, List.mem_map_of_mem hm, mentions_record.2 hk⟩

section Replay

variable (settings : Settings) (T : ℤ)

lemma replayRecords_replay {ms : List Mutation} {s : Store} (hs : WellFormed s)
    (hok : ∀ m ∈ ms, Readable m) : (replayRecords settings T (ms.map Mutation.record) s).1 = none ∧
      (replayRecords settings T (ms.map Mutation.record) s).2.view =
      (replays T).replay ms s.view := by
  have hnone := (replayRecords_accepted settings T ms s hs).2 hok
  exact ⟨hnone, (replayRecords_view settings T ms s hs hnone).trans
    (replays_replay T ms s.view).symm⟩

lemma replayRecords_wellFormed (records : List Record) : ∀ {s : Store}, WellFormed s →
    WellFormed (replayRecords settings T records s).2 := by
  induction records with
  | nil => exact fun hs => hs
  | cons record records ih =>
    intro s hs
    have hs' := exec_wellFormed (applyLogged settings record) (clockAt T) s hs
    simp only [replayRecords]
    rcases hx : exec (applyLogged settings record) (clockAt T) s with ⟨err, k, s'⟩
    rw [hx] at hs'
    cases err with
    | none => exact ih hs'
    | some err => exact hs'

end Replay

theorem replay_idempotent {ι : Type} [DecidableEq ι] (settings : Settings) (maxMemory : ℤ)
    (policy : EvictionPolicy) (clients : ι → Client) (inputs : ι → ℕ → Input) (schedule : List ι)
    {records : List Record}
    (hrun :
      ((booted true maxMemory policy fun t => (clients t).program settings).after World.act inputs
      schedule).world.store.journal = some records)
    (settings' : Settings) (maxMemory' : ℤ) (policy' : EvictionPolicy) {T : ℤ}
    (hok : (replayRecords settings' T records (configured false maxMemory' policy')).1 = none)
    {s : Store} (hs : WellFormed s) :
    let empty := replayRecords settings' T records (configured false maxMemory' policy')
    let once := replayRecords settings' T records s
    let twice := replayRecords settings' T records once.2
    once.1 = none ∧ twice.1 = none ∧ twice.2.view = once.2.view ∧
      ∀ key, ((∃ record ∈ records, Mentions record key) → once.2.view key = empty.2.view key) ∧
        ((¬ ∃ record ∈ records, Mentions record key) → once.2.view key = s.view key) := by
  obtain ⟨ms, hms, hground⟩ :=
    grounded_after T (fun t => repays_client settings (clients t)) maxMemory policy inputs schedule
  obtain rfl := Option.some.inj (hrun.symm.trans hms)
  have hempty := configured_wellFormed false maxMemory' policy'
  have hread := (replayRecords_accepted settings' T ms _ hempty).1 hok
  obtain ⟨-, hview₀⟩ := replayRecords_replay settings' T hempty hread
  obtain ⟨honce, hview₁⟩ := replayRecords_replay settings' T hs hread
  obtain ⟨htwice, hview₂⟩ :=
    replayRecords_replay settings' T (replayRecords_wellFormed settings' T _ hs) hread
  refine ⟨honce, htwice, ?_, fun key => ?_⟩
  · rw [hview₂, hview₁, hground.replay_replay]
  · rw [mentioned_iff (T := T), hview₀, hview₁]
    exact ⟨fun hk => UpdateLog.replay_of_overwritten (hground key hk) _ _,
      fun hk => UpdateLog.replay_of_not_mentioned hk _⟩

def takingTurnsRecords : List Record :=
  [[cmdSET, ascii "k", ascii "v", cmdPXAT, ascii "1600000010000"],
    [cmdPEXPIREAT, ascii "k", ascii "1600000020000"]]

/-- The lifetime is extended before the replay comes, which finds another value there. -/
theorem replay_idempotent_takingTurns :
    let s :=
      (exec (setTo (ascii "k") (ascii "w") none) (clockAt 0) (configured false 0 .noEviction)).2.2
    let replay := fun s => (replayRecords plain 1600000001000000000 takingTurnsRecords s).2
    (replay (replay s)).view = (replay s).view ∧
      (replay s).view (ascii "k") = (replay (configured false 0 .noEviction)).view (ascii "k") := by
  have h := replay_idempotent plain 0 .noEviction takingTurns in2020
    [0, 1, 0, 1, 0, 1, 0, 0, 0, 1, 1, 1, 1, 1, 1]
      (show _ = some takingTurnsRecords by decide +kernel) plain 0 .noEviction
        (T := 1600000001000000000) (by decide +kernel)
    (exec_wellFormed (setTo (ascii "k") (ascii "w") none) (clockAt 0) _
      (configured_wellFormed false 0 .noEviction))
  exact ⟨h.2.2.1, (h.2.2.2 _).1 ⟨_, List.mem_cons_self, _, rfl, List.mem_singleton.2 rfl⟩⟩

end RedisClone.Server
