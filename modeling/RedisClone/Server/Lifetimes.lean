import RedisClone.Server.Refusals
import RedisClone.Server.Footprint

namespace RedisClone.Server

open Store Resp Lib Lib.Program Lib.Decimal

structure Lifetime where
  key : Key
  arg : Bytes
  option : ExpiryOption
  val : Option Bytes

def lifetimeOf (P : Platform) : List Bytes → Option Lifetime
  | [first, key, arg] =>
    if P.toUpper first = ascii "EXPIRE" then some ⟨key, arg, ⟨nanosPerSecond, false⟩, none⟩
    else if P.toUpper first = ascii "PEXPIRE" then some ⟨key, arg, ⟨nanosPerMilli, false⟩, none⟩
    else if P.toUpper first = ascii "EXPIREAT" then some ⟨key, arg, ⟨nanosPerSecond, true⟩, none⟩
    else if P.toUpper first = ascii "PEXPIREAT" then some ⟨key, arg, ⟨nanosPerMilli, true⟩, none⟩
    else none
  | [first, key, val, opt, arg] =>
    if P.toUpper first = ascii "SET" then (expiryOptions (P.toUpper opt)).map fun option =>
      ⟨key, arg, option, some val⟩
    else none
  | _ => none

namespace Lifetime

/-- The instant asked for, in unbounded integers. -/
def deadline (l : Lifetime) (now n : ℤ) : ℤ :=
  if l.option.absolute then n * l.option.unit else now + n * l.option.unit

/-- The clock readings that a command without a memory limit makes: the first one, and the one that
the deadline is held against, which is a second one only in `Expire`. -/
def firstReading (inputs : ℕ → Input) : ℤ := (inputs 1).time

def lastReading (l : Lifetime) (inputs : ℕ → Input) : ℤ :=
  if l.val = none ∧ l.option.absolute = false then (inputs 2).time else (inputs 1).time

def operation (l : Lifetime) (d : ℤ) : Option Op :=
  match l.val with
  | none => some (if l.option.absolute then .expireAt l.key (epochPlus d) else .expire l.key d)
  | some val =>
    if d ≤ 0 then none else some (if l.option.absolute then .setWithDeadline l.key val (epochPlus d)
      else .setWithTTL l.key val d)

def errInvalid : Response := [.error (ascii "ERR invalid expire time in 'set' command")]

def program (l : Lifetime) : Prog Response :=
  match parseTTL l.arg l.option.unit with
  | none => return errInteger
  | some d => (l.operation d).elim (return errInvalid) fun o => replyTo <$> o.program

end Lifetime

section Parsing

def IsUnit (unit : ℤ) : Prop := unit = nanosPerSecond ∨ unit = nanosPerMilli

lemma parseTTL_eq {unit : ℤ} (hu : IsUnit unit) (arg : Bytes) :
    parseTTL arg unit = (parseInt64 arg).bind fun n => if inInt64 (n * unit) then some (n * unit)
    else none := by
  have hsec : maxInt64.tdiv nanosPerSecond = 9223372036 ∧
    minInt64.tdiv nanosPerSecond = -9223372036 := by decide
  have hmilli : maxInt64.tdiv nanosPerMilli = 9223372036854 ∧
    minInt64.tdiv nanosPerMilli = -9223372036854 := by decide
  unfold parseTTL
  cases parseInt64 arg with
  | none => rfl
  | some n =>
    have hrange : (maxInt64.tdiv unit < n ∨ n < minInt64.tdiv unit) ↔
        ¬ inInt64 (n * unit) = true := by
      rw [inInt64_iff]
      rcases hu with rfl | rfl
      · rw [hsec.1, hsec.2, nanosPerSecond, minInt64, maxInt64]
        omega
      · rw [hmilli.1, hmilli.2, nanosPerMilli, minInt64, maxInt64]
        omega
    simp only [Option.bind_some]
    by_cases hin : inInt64 (n * unit) = true
    · rw [if_neg (fun h => hrange.1 h hin), if_pos hin]
    · rw [if_pos (hrange.2 hin), if_neg hin]

lemma lifetimeOf_unit {P : Platform} {request : List Bytes} {l : Lifetime}
    (h : lifetimeOf P request = some l) : IsUnit l.option.unit := by
  unfold lifetimeOf at h
  split at h
  · split_ifs at h
    · obtain rfl := Option.some.inj h
      exact .inl rfl
    · obtain rfl := Option.some.inj h
      exact .inr rfl
    · obtain rfl := Option.some.inj h
      exact .inl rfl
    · obtain rfl := Option.some.inj h
      exact .inr rfl
  · split_ifs at h
    obtain ⟨option, ho, rfl⟩ := Option.map_eq_some_iff.1 h
    exact expiryOptions_unit ho
  · cases h

end Parsing

section Programs

lemma expireIn_lifetime (unit : ℤ) (key arg : Bytes) :
    expireIn unit [key, arg] = (⟨key, arg, ⟨unit, false⟩, none⟩ : Lifetime).program := by
  have h := expireIn_handles unit [key, arg]
  cases hp : parseTTL arg unit with
  | none => simp [expireIn, Lifetime.program, hp]
  | some d =>
    rw [expireOperation, hp] at h
    simp only [Lifetime.program, Lifetime.operation, hp]
    exact h

lemma expireAtIn_lifetime (unit : ℤ) (key arg : Bytes) :
    expireAtIn unit [key, arg] = (⟨key, arg, ⟨unit, true⟩, none⟩ : Lifetime).program := by
  have h := expireAtIn_handles unit [key, arg]
  cases hp : parseTTL arg unit with
  | none => simp [expireAtIn, Lifetime.program, hp]
  | some d =>
    rw [expireAtOperation, hp] at h
    simp only [Lifetime.program, Lifetime.operation, hp]
    exact h

lemma set_lifetime {P : Platform} {opt : Bytes} {option : ExpiryOption}
    (ho : expiryOptions (P.toUpper opt) = some option) (key val arg : Bytes) :
    Server.set P [key, val, opt, arg] = (⟨key, arg, option, some val⟩ : Lifetime).program := by
  have h := set_handles P [key, val, opt, arg]
  cases hp : parseTTL arg option.unit with
  | none => simp [Server.set, Lifetime.program, ho, hp]
  | some d =>
    by_cases hd : d ≤ 0
    · simp [Server.set, Lifetime.program, Lifetime.operation, Lifetime.errInvalid, ho, hp, hd]
    · simp only [setOperation, ho, Option.bind_some, hp, if_neg hd] at h
      simp only [Lifetime.program, Lifetime.operation, hp, if_neg hd]
      exact h

lemma lifetimeOf_command {settings : Settings} {request : List Bytes} {l : Lifetime}
    (h : lifetimeOf settings.platform request = some l) (around : Surroundings) :
    ∃ first args cmd, request = first :: args ∧
    commands (settings.platform.toUpper first) = some cmd ∧
      cmd.writes = true ∧ cmd.arityOk args = true ∧ cmd.fn settings around args = l.program := by
  unfold lifetimeOf at h
  split at h
  · rename_i first key arg
    split_ifs at h with h₁ h₂ h₃ h₄
    · obtain rfl := Option.some.inj h
      exact ⟨first, [key, arg], ⟨2, some 2, true, fun _ _ args => expire args⟩, rfl, h₁.symm ▸ rfl,
        rfl, rfl, expireIn_lifetime _ key arg⟩
    · obtain rfl := Option.some.inj h
      exact ⟨first, [key, arg], ⟨2, some 2, true, fun _ _ args => pexpire args⟩, rfl, h₂.symm ▸ rfl,
        rfl, rfl, expireIn_lifetime _ key arg⟩
    · obtain rfl := Option.some.inj h
      exact ⟨first, [key, arg], ⟨2, some 2, true, fun _ _ args => expireat args⟩, rfl,
        h₃.symm ▸ rfl, rfl, rfl, expireAtIn_lifetime _ key arg⟩
    · obtain rfl := Option.some.inj h
      exact ⟨first, [key, arg], ⟨2, some 2, true, fun _ _ args => pexpireat args⟩, rfl,
        h₄.symm ▸ rfl, rfl, rfl, expireAtIn_lifetime _ key arg⟩
  · rename_i first key val opt arg
    split_ifs at h with hset
    obtain ⟨option, ho, rfl⟩ := Option.map_eq_some_iff.1 h
    exact ⟨first, [key, val, opt, arg],
      ⟨2, some 4, true, fun settings _ args => Server.set settings.platform args⟩, rfl,
        hset.symm ▸ rfl,
      rfl, rfl, set_lifetime ho key val arg⟩
  · cases h

end Programs

section Effects

variable {l : Lifetime} {d : ℤ} {o : Op} {ks : Keyspace} {it : Item}

lemma expireKey_live {key : Key} {now : ℤ} (hlive : ks.alive now key = some it) (d : ℤ) :
    (ks.expireKey key (some d) now).2 = if now < d then ks.put key it.val (some d)
    else ks.remove key := by
  obtain ⟨hkey, hx⟩ := Keyspace.alive_eq_some_iff.1 hlive
  simp only [Keyspace.expireKey, hkey, hx, Bool.false_eq_true, if_false]
  split_ifs <;> rfl

lemma Lifetime.effect_keyspace (times : ℕ → ℤ) (ho : l.operation d = some o)
    (hlive : ks.alive (if l.val = none ∧ l.option.absolute = false then times 1 else times 0)
      l.key = some it) :
    (o.effect times ks).keyspace =
      if (if l.val = none ∧ l.option.absolute = false then times 1 else times 0) <
        (if l.option.absolute then d else times 0 + d) then ks.put l.key (l.val.getD it.val)
          (some (if l.option.absolute then d else times 0 + d))
      else ks.remove l.key := by
  obtain ⟨key, arg, ⟨unit, absolute⟩, val⟩ := l
  cases val with
  | none =>
    obtain rfl := Option.some.inj ho
    cases absolute with
    | true =>
      simp only [Bool.true_eq_false, and_false, if_false] at hlive
      exact expireKey_live hlive d
    | false =>
      simp only [and_self, if_true] at hlive
      exact expireKey_live hlive (times 0 + d)
  | some val =>
    simp only [Lifetime.operation] at ho
    split_ifs at ho with hd habs
    · obtain rfl := Option.some.inj ho
      subst habs
      simp only [Op.effect, Effect.map, Keyspace.setWithDeadlineEffect, epochPlus, Time.after,
        decide_eq_true_iff]
      simp only [Bool.true_eq_false, and_false, if_false, if_true, Option.getD_some]
      split_ifs <;> rfl
    · obtain rfl := Option.some.inj ho
      have hlt : times 0 < times 0 + d := by omega
      simp only [Op.effect, Effect.map, Keyspace.setWithTTLEffect, if_neg hd, habs, if_pos hlt,
        reduceCtorEq, false_and, if_false, Bool.false_eq_true, Option.getD_some]
      rfl

lemma Lifetime.effect_answer (times : ℕ → ℤ) (ho : l.operation d = some o) :
    (o.effect times ks).answer ≠ .number none := by
  obtain ⟨key, arg, ⟨unit, absolute⟩, val⟩ := l
  cases val with
  | none =>
    obtain rfl := Option.some.inj ho
    cases absolute <;> exact Answer.noConfusion
  | some val =>
    simp only [Lifetime.operation] at ho
    split_ifs at ho <;> obtain rfl := Option.some.inj ho <;> exact Answer.noConfusion

end Effects

section Dispatch

def errMisconf : Response := [.error (ascii "MISCONF Errors writing to the AOF file")]

lemma exec_dispatch_unlimited {settings : Settings} (around : Surroundings) (fuel : ℕ)
    {first : Bytes} {args : List Bytes} {cmd : Command} {s : Store} (inputs : ℕ → Input)
    (hc : commands (settings.platform.toUpper first) = some cmd) (hw : cmd.writes = true)
    (ha : cmd.arityOk args = true) (hmax : s.maxMemory ≤ 0) :
    ∃ n, exec (dispatch settings around fuel (first :: args)) inputs s =
      if settings.aof ∧ around.aofErr ≠ none then (some errMisconf, 0, s) else
      (some (exec (cmd.fn settings around args) (shift 1 inputs) s).1, n,
        (exec (cmd.fn settings around args) (shift 1 inputs) s).2.2) := by
  obtain ⟨inputs', m, hall⟩ := exec_enforceMemoryLimit inputs s
  have hpre := hall fuel
  simp only [if_pos hmax] at hpre
  refine ⟨(exec (cmd.fn settings around args) (shift 1 inputs) s).2.1 + 1, ?_⟩
  rw [← arrive_rest]
  simp only [arrive, hc, ha, hw, Bool.true_eq_false, if_false, true_and, if_true]
  split_ifs with hlog
  · rfl
  · simp only [DispatchState.rest, exec_bind, hpre, exec_map]

end Dispatch

section Lifetimes

variable {s : Store} {inputs : ℕ → Input} {l : Lifetime}

lemma refuses_singleton (msg : Bytes) : Refuses [.error msg] := ⟨msg, List.mem_singleton_self _⟩

lemma replyTo_ne_errInteger {a : Answer} (h : a ≠ .number none) : ¬ Refuses (replyTo a) :=
  fun hr => h (eq_number_none_of_refuses hr)

lemma exec_lifetime (hs : WellFormed s) (hu : IsUnit l.option.unit) {it : Item}
    (hlive : s.view.alive (l.lastReading inputs) l.key = some it) :
    let r := exec l.program (shift 1 inputs) s
    (r.1 = errInteger ∧ r.2.2 = s ∧ ∀ n, parseInt64 l.arg = some n →
      inInt64 (n * l.option.unit) = false) ∨
    ∃ n, parseInt64 l.arg = some n ∧ inInt64 (n * l.option.unit) = true ∧
      ((r.1 = Lifetime.errInvalid ∧ r.2.2 = s) ∨
      ¬ Refuses r.1 ∧ r.2.2.view =
        if l.lastReading inputs < l.deadline (Lifetime.firstReading inputs) n then
          s.view.put l.key (l.val.getD it.val) (some (l.deadline (Lifetime.firstReading inputs) n))
        else s.view.remove l.key) := by
  intro r
  have hr : r = exec l.program (shift 1 inputs) s := rfl
  rw [Lifetime.program, parseTTL_eq hu] at hr
  cases hn : parseInt64 l.arg with
  | none =>
    rw [hn] at hr
    rw [hr]
    exact .inl ⟨rfl, rfl, fun _ h => absurd h.symm (Option.some_ne_none _)⟩
  | some n =>
    rw [hn, Option.bind_some] at hr
    cases hin : inInt64 (n * l.option.unit) with
    | false =>
      rw [hin] at hr
      rw [hr]
      refine .inl ⟨rfl, rfl, fun m hm => ?_⟩
      rwa [← Option.some.inj hm]
    | true =>
      refine .inr ⟨n, rfl, hin, ?_⟩
      simp only [hin, if_true] at hr
      cases ho : l.operation (n * l.option.unit) with
      | none =>
        rw [ho] at hr
        rw [hr]
        exact .inl ⟨rfl, rfl⟩
      | some o =>
        rw [ho, Option.elim_some, exec_map] at hr
        obtain ⟨hanswer, himage⟩ := o.program_effect (exec_image o.program (shift 1 inputs) s hs)
        have hlast : l.lastReading inputs = if l.val = none ∧ l.option.absolute = false then
          (shift 1 inputs 1).time else (shift 1 inputs 0).time := rfl
        rw [hlast] at hlive ⊢
        refine .inr ⟨?_, ?_⟩
        · rw [hr]
          refine replyTo_ne_errInteger ?_
          rw [hanswer]
          exact Lifetime.effect_answer _ ho
        · rw [hr]
          refine (congrArg Image.keyspace himage).trans ?_
          exact Lifetime.effect_keyspace (fun i => (shift 1 inputs i).time) ho hlive

theorem lifetime_never_wraps (settings : Settings) (around : Surroundings) (fuel : ℕ)
    {request : List Bytes} (hl : lifetimeOf settings.platform request = some l) (hs : WellFormed s)
    (hmax : s.maxMemory ≤ 0) (inputs : ℕ → Input) {it : Item}
    (hlive : s.view.alive (l.lastReading inputs) l.key = some it) :
    let r := exec (dispatch settings around fuel request) inputs s
    ((∃ b, r.1 = some b ∧ Refuses b ∧ r.2.2.view = s.view) ∨
      ∃ n b, parseInt64 l.arg = some n ∧ r.1 = some b ∧ ¬ Refuses b ∧ r.2.2.view =
        if l.lastReading inputs < l.deadline (Lifetime.firstReading inputs) n then
          s.view.put l.key (l.val.getD it.val) (some (l.deadline (Lifetime.firstReading inputs) n))
        else s.view.remove l.key) ∧
    (r.1 = some errInteger ↔
      ¬ (settings.aof ∧ around.aofErr ≠ none) ∧ ∀ n, parseInt64 l.arg = some n →
        inInt64 (n * l.option.unit) = false) := by
  intro r
  have hu := lifetimeOf_unit hl
  obtain ⟨first, args, cmd, rfl, hc, hw, ha, hfn⟩ := lifetimeOf_command hl around
  obtain ⟨n, hr⟩ := exec_dispatch_unlimited around fuel inputs hc hw ha hmax
  rw [hfn] at hr
  by_cases hlog : settings.aof ∧ around.aofErr ≠ none
  · rw [if_pos hlog] at hr
    have hmis : r.1 = some errMisconf := congrArg Prod.fst hr
    refine ⟨.inl ⟨_, hmis, refuses_singleton _, congrArg (fun r => r.2.2.view) hr⟩, ?_⟩
    rw [hmis]
    exact ⟨fun h => absurd h (by decide), fun h => absurd hlog h.1⟩
  · rw [if_neg hlog] at hr
    have hreply : r.1 = some (exec l.program (shift 1 inputs) s).1 := congrArg Prod.fst hr
    have hstore : r.2.2 = (exec l.program (shift 1 inputs) s).2.2 := congrArg (fun r => r.2.2) hr
    rw [hreply, hstore, Option.some_inj]
    rcases exec_lifetime hs hu
      hlive with ⟨herr, hsame, hout⟩ | ⟨m, hm, hin, ⟨herr, hsame⟩ | ⟨hok, hview⟩⟩
    · exact ⟨.inl ⟨_, rfl, herr ▸ refuses_singleton _, by rw [hsame]⟩,
        fun _ => ⟨hlog, hout⟩, fun _ => herr⟩
    · refine ⟨.inl ⟨_, rfl, herr ▸ refuses_singleton _, by rw [hsame]⟩, fun h => ?_, fun h => ?_⟩
      · rw [herr] at h
        exact absurd h (by decide)
      · exact absurd hin (by rw [h.2 m hm]; exact Bool.false_ne_true)
    · refine ⟨.inr ⟨m, _, hm, rfl, hok, hview⟩, fun h => ?_, fun h => ?_⟩
      · exact absurd (h ▸ refuses_singleton _) hok
      · exact absurd hin (by rw [h.2 m hm]; exact Bool.false_ne_true)

end Lifetimes

def answered (time : ℤ) (request : List String) (s : Store) : Option Response × ℕ × Store :=
  exec (dispatch ⟨.asciiOnly, true, ⟨true, [], [], []⟩⟩ replaying 0 (request.map ascii))
    (clockAt time) s

theorem lifetime_never_wraps_longest :
    let r := answered 1000000000 ["EXPIRE", "k", "9223372036"] (holding "k" "v")
    r.1 = some [.integer 1] ∧ r.2.2.view = (holding "k" "v").view.put (ascii "k") (ascii "v")
      (some 9223372037000000000) := by
  intro r
  have hs : WellFormed (holding "k" "v") := exec_wellFormed _ _ _ (configured_wellFormed _ _ _)
  have hreply : r.1 = some [.integer 1] := by decide +kernel
  have hl : lifetimeOf .asciiOnly (["EXPIRE", "k", "9223372036"].map ascii) =
      some ⟨ascii "k", ascii "9223372036", ⟨nanosPerSecond, false⟩, none⟩ := rfl
  have hlive : (holding "k" "v").view.alive 1000000000 (ascii "k") = some ⟨ascii "v", none⟩ := by
    decide +kernel
  have h := (lifetime_never_wraps ⟨.asciiOnly, true, ⟨true, [], [], []⟩⟩ replaying 0 hl hs
    (by decide +kernel) (clockAt 1000000000) hlive).1
  refine ⟨hreply, ?_⟩
  rcases h with ⟨b, hb, ⟨msg, hmsg⟩, -⟩ | ⟨n, b, hn, -, -, hview⟩
  · obtain rfl := Option.some.inj (hreply.symm.trans hb)
    simp at hmsg
  · obtain rfl : 9223372036 = n := Option.some.inj
      ((by decide : parseInt64 (ascii "9223372036") = some 9223372036).symm.trans hn)
    exact hview

section Remaining

lemma roundedRemaining_iff {unit d : ℤ} (hu : IsUnit unit) (hd : 0 < d) :
    max 1 ((wrap64 (max minInt64 (min maxInt64 d) + unit.tdiv 2)).tdiv unit) = max 1
      ((d + unit / 2) / unit) ↔ d + unit / 2 ≤ maxInt64 := by
  have hpos : 2 ≤ unit ∧ unit ≤ nanosPerSecond := by rcases hu with rfl | rfl <;> decide
  have hhalf : unit.tdiv 2 = unit / 2 := Int.tdiv_eq_ediv_of_nonneg (by omega)
  rw [hhalf]
  by_cases hfits : d + unit / 2 ≤ maxInt64
  · refine iff_of_true ?_ hfits
    have hsame : wrap64 (max minInt64 (min maxInt64 d) + unit / 2) = d + unit / 2 := by
      simp only [wrap64, minInt64, maxInt64] at hfits ⊢
      omega
    rw [hsame, Int.tdiv_eq_ediv_of_nonneg (by omega)]
  · refine iff_of_false (fun heq => ?_) hfits
    -- the sum wraps to a negative number, and the reply is one
    have hneg : wrap64 (max minInt64 (min maxInt64 d) + unit / 2) ≤ 0 := by
      simp only [wrap64, minInt64, maxInt64, nanosPerSecond] at hfits hpos ⊢
      omega
    have hone := Int.tdiv_nonneg (Int.neg_nonneg_of_nonpos hneg) (by omega : 0 ≤ unit)
    rw [Int.neg_tdiv] at hone
    have hlarge : 2 ≤ (d + unit / 2) / unit := by
      refine (Int.le_ediv_iff_mul_le (by omega)).2 ?_
      simp only [maxInt64, nanosPerSecond] at hfits hpos
      omega
    omega

variable {settings : Settings} {s : Store} {inputs : ℕ → Input} {key : Key}
  {val : Bytes} {deadline : ℤ}

lemma exec_dispatch_read (around : Surroundings) (fuel : ℕ) {first : Bytes} {args : List Bytes}
    {cmd : Command} (hc : commands (settings.platform.toUpper first) = some cmd)
    (hw : cmd.writes = false) (ha : cmd.arityOk args = true) :
    (exec (dispatch settings around fuel (first :: args)) inputs s).1 =
    some (exec (cmd.fn settings around args) inputs s).1 := by
  rw [← arrive_rest]
  simp only [arrive, hc, ha, hw, Bool.true_eq_false, Bool.false_eq_true, false_and, if_false,
    DispatchState.rest, exec_map]

lemma exec_ttlIn (hs : WellFormed s) (hkey : s.view key = some ⟨val, some deadline⟩)
    (hlater : (inputs 0).time < deadline) (unit : ℤ) : (exec (ttlIn unit [key]) inputs s).1 =
      [.integer
        (max 1 ((wrap64 (saturatingSub deadline (inputs 0).time + unit.tdiv 2)).tdiv unit))] := by
  have hanswer : (exec (Store.ttl key) inputs s).1 = s.view.ttlAnswer key (inputs 0).time :=
    (ttl_effect key (exec_image (Store.ttl key) inputs s hs)).answer
  simp only [Keyspace.ttlAnswer, hkey, if_neg (not_le.2 hlater)] at hanswer
  rw [ttlIn, exec_bind]
  simp only [hanswer]
  rfl

/-- The remaining time is told right exactly if rounding it does not leave the 64-bit range. -/
theorem ttl_exact_iff_in_range (around : Surroundings) (fuel : ℕ) {first : Bytes} {unit : ℤ}
    (hname : settings.platform.toUpper first = ascii "TTL" ∧ unit = nanosPerSecond ∨
      settings.platform.toUpper first = ascii "PTTL" ∧ unit = nanosPerMilli)
    (hs : WellFormed s) (hkey : s.view key = some ⟨val, some deadline⟩)
    (hlater : (inputs 0).time < deadline) : let d := deadline - (inputs 0).time
    (exec (dispatch settings around fuel [first, key]) inputs s).1 = some
    [.integer (max 1 ((d + unit / 2) / unit))] ↔ d + unit / 2 ≤ maxInt64 := by
  intro d
  have hreply : (exec (dispatch settings around fuel [first, key]) inputs s).1 =
      some (exec (ttlIn unit [key]) inputs s).1 := by
    rcases hname with ⟨hfirst, rfl⟩ | ⟨hfirst, rfl⟩
    · have hc : commands (settings.platform.toUpper first) =
        some ⟨1, some 1, false, fun _ _ args => ttl args⟩ := hfirst.symm ▸ rfl
      exact exec_dispatch_read around fuel hc rfl rfl
    · have hc : commands (settings.platform.toUpper first) =
        some ⟨1, some 1, false, fun _ _ args => pttl args⟩ := hfirst.symm ▸ rfl
      exact exec_dispatch_read around fuel hc rfl rfl
  have hu : IsUnit unit := hname.imp And.right And.right
  rw [hreply, exec_ttlIn hs hkey hlater, Option.some_inj, List.singleton_inj,
    WriteCall.integer.injEq]
  exact roundedRemaining_iff hu (Int.sub_pos_of_lt hlater)

end Remaining

theorem ttl_exact_tenSeconds :
    let s := (answered 0 ["SET", "k", "v", "EX", "10"] (configured true 0 .noEviction)).2.2
    (answered 1 ["TTL", "k"] s).1 = some
    [.integer (max 1 ((10000000000 - 1 + nanosPerSecond / 2) / nanosPerSecond))] := by
  intro s
  have hs : WellFormed s := exec_wellFormed _ _ _ (configured_wellFormed _ _ _)
  have hkey : s.view (ascii "k") = some ⟨ascii "v", some 10000000000⟩ := by decide +kernel
  have hlater : (clockAt 1 0).time < 10000000000 := by decide
  have hname : Platform.asciiOnly.toUpper (ascii "TTL") = ascii "TTL" := by decide
  exact (ttl_exact_iff_in_range replaying 0 (.inl ⟨hname, rfl⟩) hs hkey hlater).2 (by decide)

/-- A lifetime that PX accepts and PTTL tells right; TTL says one second. -/
theorem ttl_wraps_long_lifetime :
    let set := answered 0 ["SET", "k", "v", "PX", "9223372036854"] (configured true 0 .noEviction)
    set.1 = some ok ∧ (answered 0 ["PTTL", "k"] set.2.2).1 = some [.integer 9223372036854] ∧
      (answered 0 ["TTL", "k"] set.2.2).1 = some [.integer 1] ∧
      max 1 ((9223372036854 * nanosPerMilli + nanosPerSecond / 2) / nanosPerSecond) =
      9223372037 := by
  decide +kernel

end RedisClone.Server
