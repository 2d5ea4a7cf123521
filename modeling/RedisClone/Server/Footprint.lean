import RedisClone.Server.Readback
import RedisClone.Store.Footprint

namespace RedisClone.Server

open Store Resp Lib Lib.Program Lib.Decimal

lemma parseTTL_inInt64 {arg : Bytes} {unit n : ℤ}
    (hu : unit = nanosPerSecond ∨ unit = nanosPerMilli) (h : parseTTL arg unit = some n) :
    inInt64 n = true := by
  unfold parseTTL at h
  cases hp : parseInt64 arg with
  | none =>
    rw [hp] at h
    cases h
  | some m =>
    rw [hp] at h
    simp only at h
    split_ifs at h with hr
    obtain rfl := Option.some.inj h
    rw [inInt64_iff, minInt64, maxInt64]
    rcases hu with rfl | rfl
    · rw [show maxInt64.tdiv nanosPerSecond = 9223372036 by decide,
        show minInt64.tdiv nanosPerSecond = -9223372036 by decide] at hr
      simp only [nanosPerSecond]
      omega
    · rw [show maxInt64.tdiv nanosPerMilli = 9223372036854 by decide,
        show minInt64.tdiv nanosPerMilli = -9223372036854 by decide] at hr
      simp only [nanosPerMilli]
      omega

lemma expiryOptions_unit {name : Bytes} {opt : ExpiryOption} (h : expiryOptions name = some opt) :
    opt.unit = nanosPerSecond ∨ opt.unit = nanosPerMilli := by
  unfold expiryOptions at h
  split_ifs at h <;> obtain rfl := Option.some.inj h <;> first | exact .inl rfl | exact .inr rfl

lemma within_reply {P : Act → Prop} {Q : (a : Act) → a.Resp → Prop} {α : Type} {p : Prog α}
    (hp : Within P Q p) (f : α → Response) :
    Within P Q (p >>= fun a => pure (f a)) := hp.bind fun _ => .done _

structure Stores (P : Act → Prop) (Q : (a : Act) → a.Resp → Prop) (args : List Bytes)
    (appends : Prop) : Prop where
  other : ∀ a : Act, a.stores = false → P a
  set : ∀ key, ∀ val ∈ args, P (.set key val none)
  setAt : ∀ key, ∀ val ∈ args, ∀ d, inInt64 d = true → P (.set key val (some d))
  setIn : ∀ key, ∀ val ∈ args, ∀ d, inInt64 d = true → ∀ now, Q .now now →
    P (.set key val (some (now + d)))
  mset : ∀ pairs, (∀ p ∈ pairs, p.1 ∈ args ∧ p.2 ∈ args) → P (.mset pairs)
  count : ∀ key n, inInt64 n = true → ∀ e, e = none ∨ Q (.lookup key) e →
    P (.set key (formatInt n) (deadlineOf e))
  append : appends → ∀ key val, ∀ suffix ∈ args, ∀ e, e = none ∨ Q (.lookup key) e →
    P (.set key (val ++ suffix) (deadlineOf e))
  expireAt : ∀ key d, inInt64 d = true → ∀ time, P (.expireAt key (some d) time)
  expireIn : ∀ key d, inInt64 d = true → ∀ now, Q .now now →
    ∀ time, P (.expireAt key (some (now + d)) time)

namespace Stores

variable {P : Act → Prop} {Q : (a : Act) → a.Resp → Prop} {args : List Bytes} {appends : Prop}
  (h : Stores P Q args appends)

include h

lemma plumbed : Plumbed P := by
  refine ⟨fun a ha => h.other a ?_⟩
  cases a <;> first | rfl | cases ha

lemma setCommand (platform : Platform) : Within P Q (Server.set platform args) := by
  unfold Server.set
  split
  · exact within_reply (h.plumbed.setTo (h.set _ _ (by simp))) _
  · rename_i key val opt arg
    split
    · exact .done _
    · rename_i opt' ho
      split
      · exact .done _
      · rename_i n hn
        have hint := parseTTL_inInt64 (expiryOptions_unit ho) hn
        split_ifs
        · exact .done _
        · exact within_reply
            (h.plumbed.setWithDeadline (h.setAt _ _ (by simp) n hint) fun _ => h.other _ rfl) _
        · refine within_reply
            (h.plumbed.setWithTTL (fun _ now hnow => ?_) fun _ _ => h.other _ rfl) _
          exact h.setIn _ _ (by simp) n hint now hnow
  · exact .done _
  · exact .done _

lemma incrementCommand (delta : Int64) : Within P Q (Server.increment delta args) := by
  cases args with
  | nil => exact .done _
  | cons key rest =>
    refine (h.plumbed.increment (h.other _ rfl) (h.other _ rfl) fun n hn e he =>
      h.count key n hn e he).bind fun r => ?_
    cases r <;> exact .done _

lemma appendCommand (happ : ∀ key suffix rest, args = key :: suffix :: rest → appends) :
    Within P Q (Server.append args) := by
  unfold Server.append
  split
  · refine within_reply (h.plumbed.append (h.other _ rfl) (h.other _ rfl) fun val e he => ?_) _
    exact h.append (happ _ _ _ rfl) _ val _ (by simp) e he
  · exact .done _

lemma msetCommand (platform : Platform) : Within P Q (Server.mset platform args) := by
  unfold Server.mset
  split_ifs
  · exact .done _
  · exact within_reply (h.plumbed.mset (h.mset _ fun p hp => pairUp_mem args hp)) _

lemma expireInCommand {unit : ℤ} (hu : unit = nanosPerSecond ∨ unit = nanosPerMilli) :
    Within P Q (Server.expireIn unit args) := by
  unfold Server.expireIn
  split
  · split
    · exact .done _
    · rename_i d hd
      exact within_map (h.plumbed.expire fun now hnow time =>
          h.expireIn _ d (parseTTL_inInt64 hu hd) now hnow time) _
  · exact .done _

lemma expireAtInCommand {unit : ℤ} (hu : unit = nanosPerSecond ∨ unit = nanosPerMilli) :
    Within P Q (Server.expireAtIn unit args) := by
  unfold Server.expireAtIn
  split
  · split
    · exact .done _
    · rename_i d hd
      exact within_map
        (h.plumbed.expireAt fun time => h.expireAt _ d (parseTTL_inInt64 hu hd) time) _
  · exact .done _

end Stores

section Commands

variable {P : Act → Prop} {Q : (a : Act) → a.Resp → Prop} {settings : Settings}
  {around : Surroundings} {name : Bytes} {args : List Bytes} {cmd : Command}

lemma within_write
    (h : Stores P Q args
      (∃ key suffix, writeOperation settings.platform name args = some (.append key suffix)))
    (hc : commands name = some cmd) (hw : cmd.writes = true) :
    Within P Q (cmd.fn settings around args) := by
  cases writeEntry hc hw with
  | set => exact h.setCommand _
  | mset => exact h.msetCommand _
  | incr => exact h.incrementCommand 1
  | decr => exact h.incrementCommand (-1)
  | append => exact h.appendCommand fun key suffix rest he => ⟨key, suffix, he ▸ rfl⟩
  | del => exact within_reply (h.plumbed.del fun _ => h.other _ rfl) _
  | expire => exact h.expireInCommand (.inl rfl)
  | pexpire => exact h.expireInCommand (.inr rfl)
  | expireat => exact h.expireAtInCommand (.inl rfl)
  | pexpireat => exact h.expireAtInCommand (.inr rfl)

lemma within_quiet {α : Type} (h : ∀ a : Act, a.stores = false → P a) {p : Prog α}
    (hp : Only Quiet p) : Within P Q p := by
  refine Obeys.mono (fun a ha => h a ?_) (fun _ _ _ => trivial) (fun _ h => h) hp
  cases a <;> first | rfl | exact absurd ha id

lemma within_dispatch {fuel : ℕ} {request : List Bytes}
    (h : Stores P Q request.tail
      (∃ key suffix, operation settings request = some (.append key suffix))) :
    Within P Q (dispatch settings around fuel request) := by
  rw [← arrive_rest]
  generalize ha : arrive settings around fuel request = phase
  cases arrive_cases ha with
  | empty | unknown | arity | misconf => exact .done _
  | @preflight first args cmd hc _ hw =>
    refine (h.plumbed.enforceMemoryLimit (fun _ => h.other _ rfl) (fun _ _ => h.other _ rfl)
      (fun _ => h.other _ rfl) (h.other _ rfl) fuel).bind fun e => ?_
    cases e with
    | running evicted => exact .done _
    | finished evicted fits =>
      cases fits with
      | false => exact .done _
      | true => exact within_map (within_write h hc hw) _
  | handler hc _ hw => exact within_map (within_quiet h.other (read_quiet hc hw)) _

end Commands

end RedisClone.Server
