import RedisClone.Server.Handlers
import RedisClone.Server.Replay

/-! Durability over whole runs of the server: what is journalled rebuilds what is stored. -/

namespace RedisClone.Server

open Store Resp Lib Lib.Program

structure Request where
  args : List Bytes
  around : Surroundings
  fuel : ℕ

inductive Happening
  | command (r : Request)
  | expiryCycle

/-- One thing that happens to the server, with what the environment gives it. -/
structure Moment where
  what : Happening
  inputs : ℕ → Input

def Moment.program (settings : Settings) (m : Moment) : Prog (Option Response) :=
  match m.what with
  | .command r => dispatch settings r.around r.fuel r.args
  | .expiryCycle => (fun _ => some []) <$> activeExpireCycle

def serve (settings : Settings) : List Moment → Store → Store
  | [], s => s
  | m :: moments, s =>
    match exec (m.program settings) m.inputs s with
    | (some _, _, s') => serve settings moments s'
    | (none, _, s') => s'

def Along (settings : Settings) (Q : Store → Moment → Prop) : List Moment → Store → Prop
  | [], _ => True
  | m :: moments, s => Q s m ∧
    match exec (m.program settings) m.inputs s with
    | (some _, _, s') => Along settings Q moments s'
    | (none, _, _) => True

instance instDecidableAlong {settings : Settings} {Q : Store → Moment → Prop}
    [∀ s m, Decidable (Q s m)] :
    ∀ (moments : List Moment) (s : Store), Decidable (Along settings Q moments s)
  | [], _ => isTrue trivial
  | m :: moments, s =>
    have : Decidable (match exec (m.program settings) m.inputs s with
        | (some _, _, s') => Along settings Q moments s'
        | (none, _, _) => True) :=
      match exec (m.program settings) m.inputs s with
      | (some _, _, s') => instDecidableAlong moments s'
      | (none, _, _) => isTrue trivial
    inferInstanceAs (Decidable (Q s m ∧ _))

lemma serve_induction {settings : Settings} {Q : Store → Moment → Prop} {R : Store → Store → Prop}
    (hrefl : ∀ s, R s s) (htrans : ∀ {s₁ s₂ s₃}, R s₁ s₂ → R s₂ s₃ → R s₁ s₃)
    (hstep : ∀ s m, WellFormed s → Q s m → R s (exec (m.program settings) m.inputs s).2.2)
    (moments : List Moment) :
    ∀ s, WellFormed s → Along settings Q moments s → R s (serve settings moments s) := by
  induction moments with
  | nil => exact fun s _ _ => hrefl s
  | cons m moments ih =>
    intro s hs ⟨hq, hrest⟩
    have hs' := exec_wellFormed (m.program settings) m.inputs s hs
    have hr := hstep s m hs hq
    simp only [serve]
    rcases hx : exec (m.program settings) m.inputs s with ⟨reply, k, s'⟩
    rw [hx] at hs' hr hrest
    cases reply with
    | none => exact hr
    | some reply => exact htrans hr (ih s' hs' hrest)

/-- The command is not refused, and gives a key a new deadline after `T`, when the one it has will
have passed at `T` on the millisecond clock of the journal. -/
def Moment.extendsPast (settings : Settings) (T : ℤ) (s : Store) (m : Moment) : Bool :=
  match m.what with
  | .expiryCycle => false
  | .command r =>
    let preflight := exec (enforceMemoryLimit r.fuel) m.inputs s
    match arrive settings r.around r.fuel r.args, preflight.1 with
    | .preflight _ _, .finished _ true => (operation settings r.args).any
        (·.extends_ T (fun i => (shift preflight.2.1 m.inputs i).time) preflight.2.2.view)
    | _, _ => false

lemma Performs.durably {T : ℤ} {inputs : ℕ → Input} {w w' : Image} {o : Option Op}
    (h : Performs inputs w w' o) (hT : ∀ i, (inputs i).time ≤ T)
    (hx : o.any (·.extends_ T (fun i => (inputs i).time) w.keyspace) = false) :
    Durably T w w' := by
  cases o with
  | none =>
    obtain rfl : w' = w := h
    exact .refl T w'
  | some o =>
    obtain ⟨b, hb⟩ := h
    exact hb.durably (o.effect_durable hT hx)

lemma dispatch_durably {settings : Settings} {T : ℤ} {s : Store} {r : Request} {inputs : ℕ → Input}
    (hs : WellFormed s) (hT : ∀ i, (inputs i).time ≤ T)
    (hx : Moment.extendsPast settings T s ⟨.command r, inputs⟩ = false) :
    Durably T s.image (exec (dispatch settings r.around r.fuel r.args) inputs s).2.2.image := by
  obtain ⟨args, around, fuel⟩ := r
  rw [← arrive_rest]
  simp only [Moment.extendsPast] at hx
  generalize ha : arrive settings around fuel args = phase at hx
  cases arrive_cases ha with
  | empty | unknown | arity | misconf => exact .refl T s.image
  | @preflight first args cmd hc _ hw =>
    simp only [DispatchState.rest]
    rw [exec_bind]
    have hpre := exec_image (enforceMemoryLimit fuel) inputs s hs
    have hs₁ := exec_wellFormed (enforceMemoryLimit fuel) inputs s hs
    obtain ⟨victims, hv, -⟩ := runs_enforceMemoryLimit hpre
    refine hv.durably.trans ?_
    simp only
    cases henf : (exec (enforceMemoryLimit fuel) inputs s).1 with
    | running evicted => exact .refl T _
    | finished evicted fits =>
      cases fits with
      | false => exact .refl T _
      | true =>
        have hrun := exec_image (some <$> cmd.fn settings around args)
          (shift (exec (enforceMemoryLimit fuel) inputs s).2.1 inputs) _ hs₁
        obtain ⟨reply, hr, -⟩ := runs_map.1 hrun
        rw [henf] at hx
        exact (write_performs hc hw hr).durably (fun i => hT _) hx
  | @handler first args cmd hc _ hw =>
    have hrun := exec_image (some <$> cmd.fn settings around args) inputs s hs
    obtain ⟨reply, hr, -⟩ := runs_map.1 hrun
    exact (quietly_of_only (read_quiet hc hw) hT hr).durably

lemma moment_durably {settings : Settings} {T : ℤ} {s : Store} {m : Moment} (hs : WellFormed s)
    (hT : ∀ i, (m.inputs i).time ≤ T) (hx : m.extendsPast settings T s = false) :
    Durably T s.image (exec (m.program settings) m.inputs s).2.2.image := by
  obtain ⟨what, inputs⟩ := m
  cases what with
  | command r => exact dispatch_durably hs hT hx
  | expiryCycle =>
    have hrun := exec_image ((fun _ => some ([] : Response)) <$> activeExpireCycle) inputs s hs
    obtain ⟨_, hr, -⟩ := runs_map.1 hrun
    obtain ⟨hc, hj⟩ := runs_expireRounds hT hr
    exact .of_shown hj (hc.shown_eq le_rfl)

lemma serve_durably {settings : Settings} {T : ℤ} (moments : List Moment) {s : Store}
    (hs : WellFormed s)
    (hrun : Along settings
      (fun s m => (∀ i, (m.inputs i).time ≤ T) ∧ m.extendsPast settings T s = false) moments s) :
    Durably T s.image (serve settings moments s).image :=
  serve_induction (R := fun s s' => Durably T s.image s'.image)
    (fun s => .refl T s.image) Durably.trans (fun _ _ hs h => moment_durably hs h.1 h.2)
      moments s hs hrun

lemma Along.and {settings : Settings} {P : Moment → Prop} {Q : Store → Moment → Prop}
    (moments : List Moment) (hP : ∀ m ∈ moments, P m) :
    ∀ s, Along settings Q moments s → Along settings (fun s m => P m ∧ Q s m) moments s := by
  induction moments with
  | nil => exact fun _ _ => trivial
  | cons m moments ih =>
    intro s ⟨hq, hrest⟩
    refine ⟨⟨hP m List.mem_cons_self, hq⟩, ?_⟩
    revert hrest
    rcases exec (m.program settings) m.inputs s with ⟨_ | reply, k, s'⟩
    · exact id
    · exact ih (fun m hm => hP m (List.mem_cons_of_mem _ hm)) s'

theorem replay_rebuilds_unless_extended (settings : Settings) (maxMemory : ℤ)
    (policy : EvictionPolicy) (moments : List Moment) (T : ℤ)
    (hclock : ∀ m ∈ moments, ∀ i, (m.inputs i).time ≤ T)
    (hrun : Along settings (fun s m => m.extendsPast settings T s = false) moments
      (configured true maxMemory policy)) :
    let s := serve settings moments (configured true maxMemory policy)
    ∃ records, s.journal = some records ∧
      let rebuilt := replayRecords settings T records (configured false maxMemory policy)
      (rebuilt.1 = none → rebuilt.2.view.alive T = s.view.rounded.alive T) := by
  intro s
  obtain ⟨ms, hj, hk⟩ := serve_durably moments (configured_wellFormed true maxMemory policy)
    (Along.and moments hclock _ hrun)
  refine ⟨ms.map Mutation.record, hj, fun hok => ?_⟩
  have hv := replayRecords_view settings T ms _ (configured_wellFormed false maxMemory policy) hok
  have hempty : (configured false maxMemory policy).view =
    (configured true maxMemory policy).view.shown T := rfl
  rw [hv, hempty]
  exact (congrArg (Keyspace.alive · T) hk).trans (Keyspace.alive_alive _ le_rfl)

def plain : Settings :=
  ⟨.asciiOnly, true, ⟨true, ascii "everysec", ascii "appendonly.aof", ascii "."⟩⟩

def atMillis (ms : ℤ) (args : List String) : Moment :=
  ⟨.command ⟨args.map ascii, replaying, 0⟩, clockAt (ms * nanosPerMilli)⟩

def lifetimeShortened : List Moment :=
  [atMillis 1000 ["SET", "k", "v", "EX", "10"], atMillis 1050 ["PEXPIRE", "k", "100"]]

theorem replay_rebuilds_lifetimeShortened :
    let s := serve plain lifetimeShortened (configured true 0 .noEviction)
    ∃ records, s.journal = some records ∧
      let rebuilt := replayRecords plain 1060000000 records (configured false 0 .noEviction)
      (rebuilt.1 = none → rebuilt.2.view.alive 1060000000 = s.view.rounded.alive 1060000000) := by
  refine replay_rebuilds_unless_extended plain 0 .noEviction lifetimeShortened 1060000000 ?_ ?_
  · intro m hm
    simp only [lifetimeShortened, List.mem_cons, List.not_mem_nil, or_false] at hm
    rcases hm with rfl | rfl
    · exact fun _ => show (1000000000 : ℤ) ≤ 1060000000 by decide
    · exact fun _ => show (1050000000 : ℤ) ≤ 1060000000 by decide
  · decide +kernel

def lifetimeExtended : List Moment :=
  [atMillis 1000 ["SET", "k", "v", "PX", "100"], atMillis 1050 ["EXPIRE", "k", "10"]]

theorem replay_drops_extended_key :
    let s := serve plain lifetimeExtended (configured true 0 .noEviction)
    ∃ records, s.journal = some records ∧
      let rebuilt := replayRecords plain 2000000000 records (configured false 0 .noEviction)
      rebuilt.1 = none ∧ rebuilt.2.view.alive 2000000000 ≠ s.view.rounded.alive 2000000000 := by
  refine ⟨[[cmdSET, ascii "k", ascii "v", cmdPXAT, ascii "1100"],
    [cmdPEXPIREAT, ascii "k", ascii "11050"]], by decide +kernel, by decide +kernel, fun h => ?_⟩
  have hk := congrFun h (ascii "k")
  revert hk
  decide +kernel

end RedisClone.Server
