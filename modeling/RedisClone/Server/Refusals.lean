import RedisClone.Server.Counters
import RedisClone.Store.Enforcement

namespace RedisClone.Server

open Store Resp Lib Lib.Program

def Refuses (b : Response) : Prop := ∃ msg, WriteCall.error msg ∈ b

abbrev Accepts (p : Prog Response) : Prop :=
  Obeys (S := sig) (fun _ => True) (fun _ _ => True) (fun b => ¬ Refuses b) p

lemma exec_result {α : Type} {D : α → Prop} {p : Prog α}
    (hp : Obeys (S := sig) (fun _ => True) (fun _ _ => True) D p) :
    ∀ (inputs : ℕ → Input) (s : Store), D (exec p inputs s).1 := by
  induction hp with
  | done hb => exact fun _ _ => hb
  | act _ _ ih => exact fun inputs s => ih _ trivial _ _

lemma exec_unmutated {α : Type} {p : Prog α} (hp : Only (S := sig) (fun a => a.mutates = false) p)
    {s : Store} (hs : WellFormed s) (inputs : ℕ → Input) : (exec p inputs s).2.2.image = s.image :=
  Runs.of_only (R := fun w w' => w' = w) (fun _ => rfl) (fun h h' => h'.trans h) hp
    (fun _ _ _ _ _ ha h => h.unchanged ha) (exec_image p inputs s hs)

section Handlers

lemma not_refuses_nil : ¬ Refuses [] := fun ⟨_, h⟩ => absurd h List.not_mem_nil

lemma not_refuses_cons {c : WriteCall} {b : Response} (hc : ∀ msg, c ≠ .error msg)
    (hb : ¬ Refuses b) : ¬ Refuses (c :: b) := by
  rintro ⟨msg, h⟩
  rcases List.mem_cons.1 h with rfl | h
  · exact hc msg rfl
  · exact hb ⟨msg, h⟩

lemma not_refuses_bulkOrNull (v : Option Bytes) (msg : Bytes) : bulkOrNull v ≠ .error msg := by
  cases v <;> exact WriteCall.noConfusion

lemma accepts_single {c : WriteCall} (hc : ∀ msg, c ≠ .error msg) : Accepts (pure [c]) :=
  .done (not_refuses_cons hc not_refuses_nil)

lemma accepts_bind {α : Type} (p : Prog α) {f : α → Prog Response} (hf : ∀ a, Accepts (f a)) :
    Accepts (p >>= f) :=
  (Obeys.any p).bind fun a _ => hf a

lemma accepts_ping (args : List Bytes) : Accepts (ping args) := by
  unfold ping
  split <;> exact accepts_single fun _ => WriteCall.noConfusion

lemma accepts_echo (args : List Bytes) : Accepts (echo args) := by
  cases args with
  | nil => exact .done not_refuses_nil
  | cons msg args => exact accepts_single fun _ => WriteCall.noConfusion

lemma accepts_get (args : List Bytes) : Accepts (Server.get args) := by
  cases args with
  | nil => exact .done not_refuses_nil
  | cons key args => exact accepts_bind _ fun v => accepts_single (not_refuses_bulkOrNull v)

lemma accepts_strlen (args : List Bytes) : Accepts (strlen args) := by
  cases args with
  | nil => exact .done not_refuses_nil
  | cons key args => exact accepts_bind _ fun v => accepts_single fun _ => WriteCall.noConfusion

lemma accepts_mgetValues (keys : List Bytes) : Accepts (mgetValues keys) := by
  induction keys with
  | nil => exact .done not_refuses_nil
  | cons key keys ih =>
    exact accepts_bind _ fun v => ih.bind fun rest hrest =>
      .done (not_refuses_cons (not_refuses_bulkOrNull v) hrest)

lemma accepts_ttlIn (unit : ℤ) (args : List Bytes) : Accepts (ttlIn unit args) := by
  cases args with
  | nil => exact .done not_refuses_nil
  | cons key args =>
    refine accepts_bind _ fun r => ?_
    cases r <;> exact accepts_single fun _ => WriteCall.noConfusion

lemma read_accepts {settings : Settings} {around : Surroundings} {name : Bytes} {args : List Bytes}
    {cmd : Command} (hc : commands name = some cmd) (hw : cmd.writes = false) :
    Accepts (cmd.fn settings around args) ∨
    Only (S := sig) (fun a => a.mutates = false) (cmd.fn settings around args) := by
  have hM := composes_only (S := sig) fun a => a.mutates = false
  cases readEntry hc hw with
  | ping => exact .inl (accepts_ping args)
  | echo => exact .inl (accepts_echo args)
  | get => exact .inl (accepts_get args)
  | mget =>
    exact .inl ((accepts_mgetValues args).bind fun _ hb =>
        .done (not_refuses_cons (fun _ => WriteCall.noConfusion) hb))
  | strlen => exact .inl (accepts_strlen args)
  | exists_ | dbsize =>
    exact .inl (accepts_bind _ fun _ => accepts_single fun _ => WriteCall.noConfusion)
  | ttl | pttl => exact .inl (accepts_ttlIn _ args)
  | info =>
    exact .inl (accepts_bind _ fun _ => accepts_bind _ fun _ => accepts_bind _ fun _ =>
      accepts_bind _ fun _ => accepts_single fun _ => WriteCall.noConfusion)
  | config => exact .inr (composes_configGet hM (Only.call rfl) settings args)
  | bgrewriteaof => exact .inr (composes_bgrewriteaof hM settings around)

end Handlers

section Writes

variable {s : Store} (hs : WellFormed s) {inputs : ℕ → Input}

lemma eq_number_none_of_refuses {a : Answer} (h : Refuses (replyTo a)) : a = .number none := by
  obtain ⟨msg, h⟩ := h
  cases a with
  | number n =>
    cases n with
    | none => rfl
    | some n => simp [replyTo] at h
  | _ => simp [replyTo, integerOfBool, ok] at h

include hs

lemma exec_op_refused {o : Op} (h : (exec o.program inputs s).1 = .number none) :
    (exec o.program inputs s).2.2.image = s.image := by
  have hanswer := (o.program_effect (exec_image o.program inputs s hs)).answer
  rw [h] at hanswer
  cases o with
  | increment key delta =>
    rw [Op.program, exec_map]
    refine (exec_increment_of_none hs fun n hn => ?_).2
    rw [← Bool.not_eq_true]
    intro hfits
    simp only [Op.effect, Effect.map, image] at hanswer
    rw [Keyspace.incrementEffect_of_some hn hfits] at hanswer
    cases hanswer
  | _ => cases hanswer

lemma exec_write_refused {settings : Settings} {around : Surroundings} {name : Bytes}
    {args : List Bytes} {cmd : Command} (hc : commands name = some cmd) (hw : cmd.writes = true)
    (h : Refuses (exec (cmd.fn settings around args) inputs s).1) :
    (exec (cmd.fn settings around args) inputs s).2.2.image = s.image := by
  rcases write_program hc hw settings around args with ⟨-, b, hb, -⟩ | ⟨o, -, hfn⟩
  · rw [hb]
    rfl
  · rw [hfn, exec_map] at h ⊢
    exact exec_op_refused hs (eq_number_none_of_refuses h)

end Writes

def preflighted (settings : Settings) (around : Surroundings) (fuel : ℕ) (request : List Bytes)
    (inputs : ℕ → Input) (s : Store) : Store :=
  match arrive settings around fuel request with
  | .preflight _ _ => (exec (enforceMemoryLimit fuel) inputs s).2.2
  | _ => s

lemma exec_dispatch_refused {settings : Settings} {around : Surroundings} {fuel : ℕ}
    {request : List Bytes} {s : Store} (hs : WellFormed s) {inputs : ℕ → Input} {b : Response}
    (hb : (exec (dispatch settings around fuel request) inputs s).1 = some b) (hr : Refuses b) :
    (exec (dispatch settings around fuel request) inputs s).2.2.image =
      (preflighted settings around fuel request inputs s).image := by
  rw [← arrive_rest] at hb ⊢
  unfold preflighted
  cases ha : arrive settings around fuel request with
  | replied b => rfl
  | handler p =>
    rw [ha, DispatchState.rest, exec_map] at hb
    rw [DispatchState.rest, exec_map]
    cases arrive_cases ha with
    | handler hc _ hw =>
      rcases read_accepts hc hw with hok | hidle
      · rw [← Option.some.inj hb] at hr
        exact absurd hr (exec_result hok inputs s)
      · exact exec_unmutated hidle hs inputs
  | preflight fn p =>
    rw [ha] at hb
    cases arrive_cases ha with
    | preflight hc _ hw =>
      simp only [DispatchState.rest, exec_bind] at hb ⊢
      cases henf : (exec (enforceMemoryLimit fuel) inputs s).1 with
      | running n => rfl
      | finished n fits =>
        rw [henf] at hb
        cases fits with
        | false => rfl
        | true =>
          simp only [exec_map] at hb ⊢
          rw [← Option.some.inj hb] at hr
          exact exec_write_refused (exec_wellFormed _ _ _ hs) hc hw hr

/-- After an error the keyspace, the deadlines and the journal are as the memory limit has left
them, and as they were where there is no limit, where nothing is evicted, and where the command did
not get that far. -/
theorem refused_changes_nothing (settings : Settings) (around : Surroundings) (fuel : ℕ)
    (request : List Bytes) {s : Store} (hs : WellFormed s) (inputs : ℕ → Input) {b : Response}
    (hb : (exec (dispatch settings around fuel request) inputs s).1 = some b) (hr : Refuses b) :
    let s' := (exec (dispatch settings around fuel request) inputs s).2.2
    s'.image = (preflighted settings around fuel request inputs s).image ∧
      (s.maxMemory ≤ 0 ∨ s.policy = .noEviction → s'.image = s.image) := by
  have himage := exec_dispatch_refused hs hb hr
  refine ⟨himage, fun hidle => himage.trans ?_⟩
  unfold preflighted
  cases arrive settings around fuel request with
  | replied b => rfl
  | handler p => rfl
  | preflight fn p =>
    have hsame : (exec (enforceMemoryLimit fuel) inputs s).2.2 = s :=
      exec_enforceMemoryLimit_idle (by tauto) fuel
    simp only [hsame]

theorem refused_changes_nothing_range :
    let s := holding "k" "v"
    let r :=
      exec (dispatch ⟨.asciiOnly, true, ⟨true, [], [], []⟩⟩ replaying 0
          [ascii "expire", ascii "k", ascii "9223372037"]) (clockAt 0) s
    r.1 = some errInteger ∧ r.2.2.image = s.image := by
  have hs : WellFormed (holding "k" "v") := exec_wellFormed _ _ _ (configured_wellFormed _ _ _)
  have hb :
    (exec (dispatch ⟨.asciiOnly, true, ⟨true, [], [], []⟩⟩ replaying 0
        [ascii "expire", ascii "k", ascii "9223372037"])
      (clockAt 0) (holding "k" "v")).1 = some errInteger := by decide +kernel
  exact ⟨hb,
    (refused_changes_nothing _ replaying 0 _ hs (clockAt 0) hb ⟨_, List.mem_singleton_self _⟩).2
      (.inl (by decide +kernel))⟩

end RedisClone.Server
