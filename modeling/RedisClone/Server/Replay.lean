import RedisClone.Server.Commands
import RedisClone.Store.Durability

namespace RedisClone.Server

open Store Resp Lib Lib.Program Lib.Decimal

def maxMillis : ℤ := 9223372036854

lemma parseTTL_unixMillis (d : ℤ) : parseTTL (unixMillis d) nanosPerMilli =
    if -maxMillis ≤ unixMilli d ∧ unixMilli d ≤ maxMillis then some (floorMilli d) else none := by
  have hmax : maxInt64.tdiv nanosPerMilli = maxMillis := rfl
  have hmin : minInt64.tdiv nanosPerMilli = -maxMillis := rfl
  unfold parseTTL unixMillis
  rw [parseInt64_formatInt, hmax, hmin]
  by_cases hr : -maxMillis ≤ unixMilli d ∧ unixMilli d ≤ maxMillis
  · have hi : inInt64 (unixMilli d) = true := by
      rw [inInt64_iff, minInt64, maxInt64]
      simp only [maxMillis] at hr
      omega
    simp only [hi, if_true, if_pos hr]
    rw [if_neg (by omega)]
    rfl
  · rw [if_neg hr]
    split
    · rfl
    · rename_i n hn
      split_ifs at hn
      obtain rfl := Option.some.inj hn
      rw [if_pos (by omega)]

/-- The records that `applyLogged` accepts. -/
def Readable : Mutation → Prop
  | .put _ _ none => True
  | .put _ _ (some d) => 0 < unixMilli d ∧ unixMilli d ≤ maxMillis
  | .putAll pairs => pairs ≠ []
  | .remove keys => keys ≠ []
  | .touch _ d => -maxMillis ≤ unixMilli d ∧ unixMilli d ≤ maxMillis

section Names

variable (P : Platform)

lemma toUpper_eq_self {s : Bytes}
    (hs : (s.all fun b => decide (b < 128) && (upperByte b == b)) = true) :
    P.toUpper s = s := by
  rw [List.all_eq_true] at hs
  have hb : ∀ b ∈ s, b < 128 ∧ upperByte b = b := fun b h => by simpa using hs b h
  rw [P.toUpper_ascii s fun b h => (hb b h).1]
  exact (List.map_congr_left fun b h => (hb b h).2).trans (List.map_id' s)

@[simp] lemma toUpper_SET : P.toUpper cmdSET = cmdSET := toUpper_eq_self P rfl
@[simp] lemma toUpper_MSET : P.toUpper cmdMSET = cmdMSET := toUpper_eq_self P rfl
@[simp] lemma toUpper_DEL : P.toUpper cmdDEL = cmdDEL := toUpper_eq_self P rfl
@[simp] lemma toUpper_PXAT : P.toUpper cmdPXAT = cmdPXAT := toUpper_eq_self P rfl
@[simp] lemma toUpper_PEXPIREAT : P.toUpper cmdPEXPIREAT = cmdPEXPIREAT := toUpper_eq_self P rfl

end Names

lemma applyLogged_eq {settings : Settings} {name : Bytes} {rest : List Bytes} {cmd : Command}
    (hn : settings.platform.toUpper name = name) (hc : commands name = some cmd)
    (hw : cmd.writes = true) (ha : cmd.arityOk rest = true) :
    applyLogged settings (name :: rest) = (do
      let reply ← cmd.fn settings replaying rest
      return (replyError reply).map (.reply (safeName name))) := by
  simp only [applyLogged, hn, hc, hw, ha, Bool.true_eq_false, if_false]

inductive Applies (T : ℤ) (m : Mutation) (w : Image) : Option LogError → Image → Prop
  | accepted {w' : Image} (hm : Readable m) (hk : w'.keyspace = m.replayed T w.keyspace) :
      Applies T m w none w'
  | refused {err : LogError} {w' : Image} (hm : ¬ Readable m) : Applies T m w (some err) w'

section Applies

variable {settings : Settings} {inputs : ℕ → Input} {w w' : Image} {n : ℕ} {b : Option LogError}

lemma applies_put {key : Key} {val : Bytes} {expiresAt : Time}
    (h : Runs ActSpec (applyLogged settings (setRecord key val expiresAt)) inputs w n b w') :
    Applies (inputs 0).time (.put key val expiresAt) w b w' := by
  cases expiresAt with
  | none =>
    rw [setRecord, applyLogged_eq (toUpper_SET _) rfl rfl rfl] at h
    obtain ⟨r, w₁, _, _, hr, hb, -⟩ := runs_bind.1 h
    simp only [pure_eq, runs_done] at hb
    obtain ⟨-, rfl, rfl⟩ := hb
    have he := (setTo_effect key val none).andReturn (fun _ => ok) hr
    rw [he.answer]
    exact .accepted trivial (congrArg Image.keyspace he.image)
  | some d =>
    rw [setRecord, applyLogged_eq (toUpper_SET _) rfl rfl rfl] at h
    obtain ⟨r, w₁, _, _, hr, hb, -⟩ := runs_bind.1 h
    simp only [pure_eq, runs_done] at hb
    obtain ⟨-, rfl, rfl⟩ := hb
    have ho : expiryOptions cmdPXAT = some ⟨nanosPerMilli, true⟩ := rfl
    change Runs ActSpec (Server.set settings.platform [key, val, cmdPXAT, unixMillis d])
      _ _ _ _ _ at hr
    simp only [Server.set, toUpper_PXAT, ho, parseTTL_unixMillis] at hr
    by_cases hin : -maxMillis ≤ unixMilli d ∧ unixMilli d ≤ maxMillis
    · simp only [hin, and_self, if_true] at hr
      by_cases hpos : floorMilli d ≤ 0
      · have hn : ¬ Readable (.put key val (some d)) := by
          simp only [Readable, floorMilli, nanosPerMilli] at hpos ⊢
          omega
        rw [if_pos hpos] at hr
        simp only [pure_eq, runs_done] at hr
        obtain ⟨-, rfl, rfl⟩ := hr
        exact .refused hn
      · have hp : Readable (.put key val (some d)) := by
          simp only [Readable, floorMilli, nanosPerMilli] at hpos ⊢
          omega
        rw [if_neg hpos] at hr
        have he := (setWithDeadline_effect key val (epochPlus (floorMilli d))).andReturn
          (fun _ => ok) hr
        rw [he.answer]
        refine .accepted hp ?_
        rw [he.image]
        simp only [Image.apply_keyspace, Effect.map, Keyspace.setWithDeadlineEffect,
          epochPlus, Time.after, Mutation.replayed, decide_eq_true_eq]
        split_ifs <;> rfl
    · have hn : ¬ Readable (.put key val (some d)) := by
        simp only [Readable, maxMillis] at hin ⊢
        omega
      simp only [hin, if_false, pure_eq, runs_done] at hr
      obtain ⟨-, rfl, rfl⟩ := hr
      exact .refused hn

lemma length_flatMap_pair (pairs : List (Key × Bytes)) :
    (pairs.flatMap fun p => [p.1, p.2]).length = 2 * pairs.length := by
  induction pairs with
  | nil => rfl
  | cons p pairs ih =>
    simp only [List.flatMap_cons, List.length_append, ih, List.length_cons, List.length_nil]
    omega

lemma applyLogged_refuses {name : Bytes} {rest : List Bytes} {cmd : Command}
    (hn : settings.platform.toUpper name = name) (hc : commands name = some cmd)
    (hw : cmd.writes = true) (ha : cmd.arityOk rest = false)
    (h : Runs ActSpec (applyLogged settings (name :: rest)) inputs w n b w') :
    b = some (.wrongNumberOfArguments (safeName name) rest.length) := by
  simp only [applyLogged, hn, hc, hw, ha, Bool.true_eq_false, if_false, if_true, pure_eq,
    runs_done] at h
  exact h.2.1

lemma applies_putAll {pairs : List (Key × Bytes)}
    (h : Runs ActSpec (applyLogged settings (msetRecord pairs)) inputs w n b w') :
    Applies (inputs 0).time (.putAll pairs) w b w' := by
  have hlen := length_flatMap_pair pairs
  by_cases hp : pairs = []
  · subst hp
    rw [applyLogged_refuses (toUpper_MSET _) rfl rfl rfl h]
    exact .refused (by simp [Readable])
  · have hpos : 0 < pairs.length := List.length_pos_iff.2 hp
    have ha : Command.arityOk ⟨2, none, true, fun settings _ args => mset settings.platform args⟩
        (pairs.flatMap fun p => [p.1, p.2]) = true := by
      simp only [Command.arityOk, hlen, Option.all_none, Bool.and_true, decide_eq_true_eq]
      omega
    rw [msetRecord, applyLogged_eq (toUpper_MSET _) rfl rfl ha] at h
    obtain ⟨r, w₁, _, _, hr, hb, -⟩ := runs_bind.1 h
    simp only [pure_eq, runs_done] at hb
    obtain ⟨-, rfl, rfl⟩ := hb
    simp only [Server.mset, pairUp_flatMap] at hr
    rw [if_neg (by omega)] at hr
    have he := (mset_effect pairs).andReturn (fun _ => ok) hr
    rw [he.answer]
    exact .accepted hp (congrArg Image.keyspace he.image)

lemma applies_remove {keys : List Key}
    (h : Runs ActSpec (applyLogged settings (cmdDEL :: keys)) inputs w n b w') :
    Applies (inputs 0).time (.remove keys) w b w' := by
  by_cases hk : keys = []
  · subst hk
    rw [applyLogged_refuses (toUpper_DEL _) rfl rfl rfl h]
    exact .refused (by simp [Readable])
  · have hpos : 0 < keys.length := List.length_pos_iff.2 hk
    have ha : Command.arityOk ⟨1, none, true, fun _ _ args => del args⟩ keys = true := by
      simp only [Command.arityOk, Option.all_none, Bool.and_true, decide_eq_true_eq]
      omega
    rw [applyLogged_eq (toUpper_DEL _) rfl rfl ha] at h
    obtain ⟨r, w₁, _, _, hr, hb, -⟩ := runs_bind.1 h
    simp only [pure_eq, runs_done] at hb
    obtain ⟨-, rfl, rfl⟩ := hb
    have he := (del_effect keys).andReturn (fun m => [WriteCall.integer m]) hr
    rw [he.answer]
    exact .accepted hk (congrArg Image.keyspace he.image)

lemma applies_touch {key : Key} {d : ℤ}
    (h : Runs ActSpec (applyLogged settings [cmdPEXPIREAT, key, unixMillis d]) inputs w n b w') :
    Applies (inputs 0).time (.touch key d) w b w' := by
  rw [applyLogged_eq (toUpper_PEXPIREAT _) rfl rfl rfl] at h
  obtain ⟨r, w₁, _, _, hr, hb, -⟩ := runs_bind.1 h
  simp only [pure_eq, runs_done] at hb
  obtain ⟨-, rfl, rfl⟩ := hb
  change Runs ActSpec (expireAtIn nanosPerMilli [key, unixMillis d]) _ _ _ _ _ at hr
  simp only [expireAtIn, parseTTL_unixMillis] at hr
  by_cases hin : -maxMillis ≤ unixMilli d ∧ unixMilli d ≤ maxMillis
  · simp only [hin, and_self, if_true] at hr
    have he := (expireAt_effect key (epochPlus (floorMilli d))).map integerOfBool hr
    rw [he.answer]
    refine .accepted hin ?_
    rw [he.image]
    simp only [Image.apply_keyspace, Effect.map, Keyspace.expireEffect]
    rfl
  · simp only [hin, if_false, pure_eq, runs_done] at hr
    obtain ⟨-, rfl, rfl⟩ := hr
    exact .refused hin

lemma applies {m : Mutation} (h : Runs ActSpec (applyLogged settings m.record) inputs w n b w') :
    Applies (inputs 0).time m w b w' := by
  cases m with
  | put key val expiresAt => exact applies_put h
  | putAll pairs => exact applies_putAll h
  | remove keys => exact applies_remove h
  | touch key d => exact applies_touch h

end Applies

def replayRecords (settings : Settings) (T : ℤ) : List Record → Store → Option LogError × Store
  | [], s => (none, s)
  | record :: records, s =>
    match exec (applyLogged settings record) (clockAt T) s with
    | (none, _, s') => replayRecords settings T records s'
    | (some err, _, s') => (some err, s')

lemma replayRecords_view (settings : Settings) (T : ℤ) (ms : List Mutation) :
    ∀ s : Store, WellFormed s → (replayRecords settings T (ms.map Mutation.record) s).1 = none →
      (replayRecords settings T (ms.map Mutation.record) s).2.view = replayedAll T ms s.view := by
  induction ms with
  | nil => exact fun _ _ _ => rfl
  | cons m ms ih =>
    intro s hs hr
    have ha := applies (exec_image (applyLogged settings m.record) (clockAt T) s hs)
    have hs' := exec_wellFormed (applyLogged settings m.record) (clockAt T) s hs
    simp only [List.map_cons, replayRecords] at hr ⊢
    rcases hx : exec (applyLogged settings m.record) (clockAt T) s with ⟨err, k, s'⟩
    rw [hx] at ha hs' hr
    cases ha with
    | accepted _ hk =>
      rw [ih s' hs' hr]
      exact congrArg (replayedAll T ms) hk
    | refused _ => exact absurd hr (Option.some_ne_none _)

lemma replayRecords_accepted (settings : Settings) (T : ℤ) (ms : List Mutation) :
    ∀ s : Store, WellFormed s →
    ((replayRecords settings T (ms.map Mutation.record) s).1 = none ↔ ∀ m ∈ ms, Readable m) := by
  induction ms with
  | nil => exact fun _ _ => iff_of_true rfl fun _ hm => absurd hm List.not_mem_nil
  | cons m ms ih =>
    intro s hs
    have ha := applies (exec_image (applyLogged settings m.record) (clockAt T) s hs)
    have hs' := exec_wellFormed (applyLogged settings m.record) (clockAt T) s hs
    simp only [List.map_cons, replayRecords, List.forall_mem_cons]
    rcases hx : exec (applyLogged settings m.record) (clockAt T) s with ⟨err, k, s'⟩
    rw [hx] at ha hs'
    cases ha with
    | accepted hm _ => exact (ih s' hs').trans (and_iff_right hm).symm
    | refused hm => exact iff_of_false (Option.some_ne_none _) fun h => hm h.1

end RedisClone.Server
