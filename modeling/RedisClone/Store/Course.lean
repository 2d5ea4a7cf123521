import RedisClone.Store.Finality
import RedisClone.Store.Memory

namespace RedisClone.Store

open Lib Lib.Program

section Removal

def Act.Takes (i : Input) (key : Key) (it : Item) : Act → Prop
  | .getCollect k => k = key ∧ it.expired i.time = true
  | .delete k => k = key
  | .del keys _ => key ∈ keys
  | .expireAt k deadline time => k = key ∧ (it.expired time = true ∨ deadline.after time = false)
  | .expireShard _ time _ _ => it.expired time = true
  | _ => False

lemma Keyspace.removeAll_of_not_mem {ks : Keyspace} {key : Key} {keys : List Key} (h : key ∉ keys) :
    ks.removeAll keys key = ks key := by
  induction keys generalizing ks with
  | nil => rfl
  | cons k keys ih =>
    rw [List.mem_cons, not_or] at h
    exact (ih h.2).trans (Function.update_of_ne h.1 _ _)

lemma Keyspace.expireKey_takes {ks : Keyspace} {k key : Key} {it : Item} {deadline : Time} {now : ℤ}
    (hk : ks key = some it) (h : (ks.expireKey k deadline now).2 key = none) :
    k = key ∧ (it.expired now = true ∨ deadline.after now = false) := by
  have hremoved {k : Key} (h : ks.remove k key = none) : k = key := by
    by_contra hne
    rw [Keyspace.remove, Function.update_of_ne (Ne.symm hne), hk] at h
    cases h
  unfold expireKey at h
  cases hk' : ks k with
  | none =>
    rw [hk'] at h
    exact absurd (hk.symm.trans h) (Option.some_ne_none _)
  | some old =>
    rw [hk'] at h
    simp only at h
    split_ifs at h with hx
    · have he := hremoved h
      subst he
      rw [hk] at hk'
      exact ⟨rfl, .inl (Option.some.inj hk' ▸ hx)⟩
    · cases deadline with
      | none => exact ⟨hremoved h, .inr rfl⟩
      | some d =>
        simp only at h
        split_ifs at h with hd
        · simp only [Keyspace.put, Function.update_apply] at h
          split_ifs at h
          exact absurd (hk.symm.trans h) (Option.some_ne_none _)
        · exact ⟨hremoved h, .inr (by simpa [Time.after] using hd)⟩

lemma ActSpec.takes {a : Act} {i : Input} {r : a.Resp} {w w' : Image} (h : ActSpec a i r w w')
    {key : Key} {it : Item} (hk : w.keyspace key = some it) (hk' : w'.keyspace key = none) :
    a.Takes i key it := by
  have hsame (hw : w'.keyspace key = w.keyspace key) : False := by
    rw [hw, hk] at hk'
    cases hk'
  cases a with
  | propagate record =>
    obtain rfl := actSpec_propagate.1 h
    exact (hsame rfl).elim
  | getCollect k =>
    obtain rfl := actSpec_getCollect.1 h
    simp only [Keyspace.collect] at hk'
    split_ifs at hk' with hx
    · simp only [Keyspace.remove, Function.update_apply] at hk'
      split_ifs at hk' with he
      · subst he
        rw [hk] at hx
        exact ⟨rfl, hx⟩
      · rw [hk] at hk'
        cases hk'
    · rw [hk] at hk'
      cases hk'
  | set k val expiresAt =>
    obtain rfl := actSpec_set.1 h
    simp only [Keyspace.put, Function.update_apply] at hk'
    split_ifs at hk'
    exact absurd (hk.symm.trans hk') (Option.some_ne_none _)
  | delete k =>
    obtain rfl := actSpec_delete.1 h
    simp only [Keyspace.remove, Function.update_apply] at hk'
    split_ifs at hk' with he
    · exact he.symm
    · exact absurd (hk.symm.trans hk') (Option.some_ne_none _)
  | mset pairs =>
    obtain rfl := actSpec_mset.1 h
    have hsome := Keyspace.isSome_putAll pairs (Option.isSome_iff_exists.2 ⟨it, hk⟩)
    rw [show w.keyspace.putAll pairs key = none from hk'] at hsome
    cases hsome
  | del keys now =>
    obtain ⟨-, rfl⟩ := actSpec_del.1 h
    by_contra hn
    exact hsame (Keyspace.removeAll_of_not_mem hn)
  | expireAt k deadline now =>
    obtain ⟨-, rfl⟩ := actSpec_expireAt.1 h
    exact Keyspace.expireKey_takes hk hk'
  | expireShard j now n scanned =>
    rcases (actSpec_expireShard.1 h).1 key with hw | ⟨-, hx⟩
    · exact (hsame hw).elim
    · rw [hk] at hx
      exact hx
  | _ =>
    rw [ActSpec.unchanged rfl h] at hk'
    exact absurd (hk.symm.trans hk') (Option.some_ne_none _)

end Removal

section Requests

/-- The operation is to delete the key, or to give it a deadline that is over. `readings` is the
clock as the operation has read it, the last time first: `Expire` counts from one reading and
`ExpireAt` judges by the next. -/
inductive Op.AsksGone (key : Key) : List ℤ → Op → Prop
  | del {readings : List ℤ} {keys : List Key} (h : key ∈ keys) : AsksGone key readings (.del keys)
  | setWithTTL {readings : List ℤ} {val : Bytes} {d : ℤ} (h : d ≤ 0) :
      AsksGone key readings (.setWithTTL key val d)
  | setWithDeadline {val : Bytes} {deadline : Time} {T T' : ℤ} (h : deadline.after T = false) :
      AsksGone key [T', T] (.setWithDeadline key val deadline)
  | expire {d T T' : ℤ} (h : T + d ≤ T') : AsksGone key [T', T] (.expire key d)
  | expireAt {deadline : Time} {T : ℤ} (h : deadline.after T = false) :
      AsksGone key [T] (.expireAt key deadline)

end Requests

section Walk

/-- The clock as it has been read, the entry that has been looked up, and whether anything has been
stored. -/
structure Course where
  readings : List ℤ
  seen : Option (Key × Item)
  stored : Bool

def Course.fresh : Course := ⟨[], none, false⟩

variable (asks : List ℤ → Key → Prop)

def Course.allows (g : Course) : Act → Prop
  | .set _ _ _ | .mset _ => g.stored = false
  | .delete key => ∃ it, g.seen = some (key, it) ∧ ∃ T ∈ g.readings, it.expired T = true
  | .del keys _ => ∀ key ∈ keys, asks g.readings key
  | .expireAt key deadline time =>
    time ∈ g.readings ∧ (deadline.after time = false → asks g.readings key)
  | .expireShard _ _ _ _ => False
  | _ => True

def Course.next (g : Course) : (a : Act) → a.Resp → Course
  | .now, r => { g with readings := r :: g.readings }
  | .lookup key, r => { g with seen := r.map fun e => (key, e.item) }
  | .set _ _ _, _ | .mset _, _ => { g with seen := none, stored := true }
  | .expireAt _ _ _, _ => { g with seen := none }
  | _, _ => g

variable {α : Type}

abbrev Courses (g : Course) (p : Prog α) : Prop :=
  Follows (S := sig) (fun _ _ => True) (Course.allows asks) Course.next (fun _ _ => True) g p

variable {asks}

lemma courses_act {g : Course} {a : Act} {f : a.Resp → Prog α} (ha : g.allows asks a)
    (hf : ∀ r, Courses asks (g.next a r) (f r)) :
    Courses asks g (invoke a >>= f) := Follows.act ha fun r _ => hf r

lemma courses_last {g : Course} {a : Act} (ha : g.allows asks a) : Courses asks g (invoke a) :=
  Follows.act ha fun _ _ => .done trivial

lemma courses_quiet {p : Prog α} (hp : Only Quiet p) : ∀ g, Courses asks g p := by
  unfold Only at hp
  induction hp with
  | done _ => exact fun _ => .done trivial
  | act ha _ ih =>
    refine fun g => .act ?_ fun r _ => ih r trivial _
    rename_i a _ _
    cases a <;> trivial

lemma courses_lockAll {f : Unit → Prog α} {g : Course} (ids : List ShardId)
    (hf : Courses asks g (f ())) : Courses asks g (lockAll ids >>= f) := by
  induction ids with
  | nil => exact hf
  | cons i ids ih => exact courses_act (a := .lockShard i) trivial fun _ => ih

lemma courses_lockWriteShards {f : List ShardId → Prog α} {g : Course} {keys : List Key}
    (hf : Courses asks g (f (shardIds keys))) : Courses asks g (lockWriteShards keys >>= f) := by
  rw [lockWriteShards, bind_assoc]
  exact courses_lockAll (shardIds keys) hf

lemma courses_unlockAll (g : Course) (ids : List ShardId) : Courses asks g (unlockAll ids) := by
  induction ids with
  | nil => exact .done trivial
  | cons i ids ih => exact courses_act (a := .unlockShard i) trivial fun _ => ih

lemma courses_setLocked {f : Unit → Prog α} {g : Course} {key : Key} {val : Bytes}
    {expiresAt : Time} (hg : g.stored = false)
    (hf : Courses asks { g with seen := none, stored := true } (f ())) :
    Courses asks g (setLocked key val expiresAt >>= f) :=
  courses_act (a := .set key val expiresAt) hg fun _ =>
    courses_act (a := .propagate _) trivial fun _ => hf

lemma courses_setTo {g : Course} {key : Key} {val : Bytes} {expiresAt : Time}
    (hg : g.stored = false) : Courses asks g (setTo key val expiresAt) :=
  courses_act (a := .lockDurableMutation) trivial fun _ =>
    courses_setLocked (f := fun _ => invoke .unlockDurableMutation) hg
      (courses_last (a := .unlockDurableMutation) trivial)

lemma courses_del {g : Course} {keys : List Key}
    (h : ∀ T, ∀ key ∈ keys, asks (T :: g.readings) key) : Courses asks g (del keys) := by
  have hrest (g : Course) (n : ℕ) (ids : List ShardId) :
      Courses asks g (invoke .unlockDurableMutation >>= fun _ => unlockWriteShards ids >>= fun _ =>
          (pure n : Prog ℕ)) :=
    courses_act (a := .unlockDurableMutation) trivial fun _ => (courses_unlockAll g _).bind
      fun _ _ _ => .done trivial
  refine courses_act (a := .now) trivial fun time => courses_act (a := .lockDurableMutation)
    trivial fun _ => ?_
  refine courses_lockWriteShards (courses_act (a := .del keys time) (h time) fun r => ?_)
  by_cases hr : r.2 = []
  · simpa [hr] using hrest _ r.1 (shardIds keys)
  · have hlog (g : Course) : Courses asks g (invoke (.propagate (cmdDEL :: r.2)) >>= fun _ =>
        invoke .unlockDurableMutation >>= fun _ => unlockWriteShards (shardIds keys) >>= fun _ =>
            (pure r.1 : Prog ℕ)) :=
      courses_act (a := .propagate _) trivial fun _ => hrest _ r.1 (shardIds keys)
    simpa [hr] using hlog _

lemma courses_expireAt {g : Course} {key : Key} {deadline : Time}
    (h : ∀ T, deadline.after T = false → asks (T :: g.readings) key) :
    Courses asks g (expireAt key deadline) := by
  have hrest (g : Course) (b : Bool) :
      Courses asks g (invoke (.unlockShard (shardIndex key)) >>= fun _ =>
      invoke .unlockDurableMutation >>= fun _ => (pure b : Prog Bool)) :=
    courses_act (a := .unlockShard _) trivial fun _ => courses_act (a := .unlockDurableMutation)
      trivial fun _ => .done trivial
  refine courses_act (a := .now) trivial fun time => courses_act (a := .lockDurableMutation)
    trivial fun _ => ?_
  refine courses_act (a := .lockShard _) trivial fun _ => ?_
  refine courses_act (a := .expireAt key deadline time) ⟨List.mem_cons_self, h time⟩
    fun answer => ?_
  cases answer with
  | missing => exact hrest _ false
  | collected => exact courses_act (a := .propagate [cmdDEL, key]) trivial fun _ => hrest _ false
  | deleted => exact courses_act (a := .propagate [cmdDEL, key]) trivial fun _ => hrest _ true
  | kept d =>
    exact courses_act (a := .propagate [cmdPEXPIREAT, key, unixMillis d]) trivial
      fun _ => hrest _ true

lemma courses_mset {g : Course} (hg : g.stored = false) (pairs : List (Key × Bytes)) :
    Courses asks g (mset pairs) :=
  courses_act (a := .lockDurableMutation) trivial fun _ => courses_lockWriteShards
    (courses_act (a := .mset pairs) hg fun _ => courses_act (a := .propagate _) trivial fun _ =>
      courses_act (a := .unlockDurableMutation) trivial fun _ => courses_unlockAll _ _)

lemma courses_lookup {g : Course} {key : Key} {time : ℤ} (hT : time ∈ g.readings)
    (hg : g.stored = false) {f : Option Entry → Prog α}
    (hf : ∀ e g, g.stored = false → Courses asks g (f e)) :
    Courses asks g (invoke (.lookup key) >>= fun e => deleteIfExpired key time e >>= f) := by
  refine courses_act (a := .lookup key) trivial fun e => ?_
  cases e with
  | none => exact hf none _ hg
  | some e =>
    simp only [deleteIfExpired]
    split_ifs with hx
    · exact courses_act (a := .delete key) ⟨e.item, rfl, time, hT, hx⟩ fun _ => hf none _ hg
    · exact hf (some e) _ hg

lemma courses_increment {g : Course} (hg : g.stored = false) (key : Key) (delta : Int64) :
    Courses asks g (increment key delta) := by
  refine courses_act (a := .now) trivial fun time => courses_act (a := .lockDurableMutation)
    trivial fun _ => ?_
  refine courses_lookup (g := { g with readings := time :: g.readings }) List.mem_cons_self hg
    fun e g hg => ?_
  cases counterValue e with
  | none => exact courses_act (a := .unlockDurableMutation) trivial fun _ => .done trivial
  | some n =>
    simp only
    split_ifs
    · exact courses_act (a := .unlockDurableMutation) trivial fun _ => .done trivial
    · refine courses_setLocked
        (f := fun _ => invoke .unlockDurableMutation >>= fun _ => pure (some _)) hg ?_
      exact courses_act (a := .unlockDurableMutation) trivial fun _ => .done trivial

lemma courses_append {g : Course} (hg : g.stored = false) (key : Key) (suffix : Bytes) :
    Courses asks g (append key suffix) := by
  refine courses_act (a := .now) trivial fun time => courses_act (a := .lockDurableMutation)
    trivial fun _ => ?_
  refine courses_lookup (g := { g with readings := time :: g.readings }) List.mem_cons_self hg
    fun e g hg => ?_
  refine courses_setLocked (f := fun _ => invoke .unlockDurableMutation >>= fun _ => pure _) hg ?_
  exact courses_act (a := .unlockDurableMutation) trivial fun _ => .done trivial

end Walk

lemma Op.courses {asks : List ℤ → Key → Prop} (o : Op)
    (hasks : ∀ readings key, o.AsksGone key readings → asks readings key) :
    Courses asks .fresh o.program := by
  have hg : Course.fresh.stored = false := rfl
  have hmap {α : Type} {p : Prog α} {f : α → Answer} (hp : Courses asks .fresh p) :
      Courses asks .fresh (f <$> p) :=
    Follows.map f hp
  cases o with
  | get key => exact hmap (courses_quiet (quiet_get key) _)
  | set key val => exact hmap (courses_setTo hg)
  | setWithTTL key val d =>
    refine hmap ?_
    simp only [Store.setWithTTL]
    split_ifs with hd
    · refine (courses_del fun T k hk => hasks _ k ?_).bind fun _ _ _ => .done trivial
      rw [List.mem_singleton] at hk
      exact hk ▸ .setWithTTL hd
    · exact courses_act (a := .now) trivial fun time => courses_setTo hg
  | setWithDeadline key val deadline =>
    refine hmap (courses_act (a := .now) trivial fun time => ?_)
    split_ifs with hd
    · exact courses_setTo hg
    · refine (courses_del fun T k hk => hasks _ k ?_).bind fun _ _ _ => .done trivial
      rw [List.mem_singleton] at hk
      exact hk ▸ .setWithDeadline (Bool.not_eq_true _ ▸ hd)
  | mset pairs => exact hmap (courses_mset hg pairs)
  | increment key delta => exact hmap (courses_increment hg key delta)
  | append key suffix => exact hmap (courses_append hg key suffix)
  | expire key d =>
    refine hmap
      (courses_act (a := .now) trivial fun time => courses_expireAt fun T hT => hasks _ key ?_)
    refine .expire ?_
    simpa [Time.after] using hT
  | expireAt key deadline =>
    exact hmap (courses_expireAt fun T hT => hasks _ key (.expireAt hT))
  | ttl key => exact hmap (courses_quiet (quiet_ttl key) _)
  | del keys => exact hmap (courses_del fun T key hk => hasks _ key (.del hk))
  | exists_ keys => exact hmap (courses_quiet (quiet_exists keys) _)
  | dbSize => exact hmap (courses_quiet quiet_dbSize _)

section World

def Act.noted (a : Act) (i : Input) (readings : List ℤ) : List ℤ :=
  match a with
  | .now => i.time :: readings
  | _ => readings

structure Course.Fits (g : Course) (readings : List ℤ) (s : Store) : Prop where
  readings : g.readings = readings
  seen : ∀ key it, g.seen = some (key, it) → ∀ it' ∈ s.view key, it' = it

variable {asks : List ℤ → Key → Prop} {g : Course} {readings : List ℤ} {s s' : Store}

lemma Course.Fits.of_le (h : g.Fits readings s)
    (hv : ∀ key it, s'.view key = some it → s.view key = some it) :
    g.Fits readings s' :=
  ⟨h.readings, fun key it hk it' hit => h.seen key it hk it' (hv key it' hit)⟩

lemma perform_view {a : Act} {i : Input} (hs : WellFormed s) (ha : ∀ key, a.storesKey key = false)
    (he : ∀ key deadline time, a ≠ .expireAt key deadline time) {key : Key} {it : Item}
    (hk : (perform a i s).2.view key = some it) : s.view key = some it := by
  rcases (perform_spec a i s hs).origin hk with h | h | ⟨deadline, time, _, _, h, -⟩
  · exact h
  · rw [ha key] at h
    cases h
  · exact absurd h (he key deadline time)

lemma Course.Fits.perform {a : Act} (i : Input) (hs : WellFormed s) (h : g.Fits readings s) :
    (g.next a (perform a i s).1).Fits (a.noted i readings) (perform a i s).2 := by
  cases a with
  | now => exact ⟨congrArg (i.time :: ·) h.readings, h.seen⟩
  | lookup key =>
    refine ⟨h.readings, fun key' it hk it' hit => ?_⟩
    obtain ⟨e, he, heq⟩ := Option.map_eq_some_iff.1 hk
    obtain ⟨rfl, rfl⟩ := Prod.mk.inj heq
    have hl : s.view key = some e.item := congrArg (Option.map Entry.item) he
    exact Option.some.inj (hit.symm.trans hl)
  | set | mset | expireAt => exact ⟨h.readings, fun _ _ hk => by cases hk⟩
  | _ => exact h.of_le fun key it hk =>
      perform_view hs (fun _ => rfl) (fun _ _ _ => Act.noConfusion) hk

lemma Course.Fits.takes {a : Act} {i : Input} (h : g.Fits readings s) (ha : g.allows asks a)
    {key : Key} {it : Item} (hk : s.view key = some it) (ht : a.Takes i key it) :
    asks readings key ∨ ∃ T ∈ i.time :: readings, it.expired T = true := by
  obtain ⟨rfl, hseen⟩ := h
  cases a with
  | getCollect k => exact .inr ⟨i.time, List.mem_cons_self, ht.2⟩
  | delete k =>
    obtain ⟨it', hlast, T, hT, hx⟩ := ha
    have hk' : k = key := ht
    subst hk'
    rw [← hseen k it' hlast it hk] at hx
    exact .inr ⟨T, List.mem_cons_of_mem _ hT, hx⟩
  | del keys time => exact .inl (ha key ht)
  | expireAt k deadline time =>
    obtain ⟨rfl, hx | hx⟩ := ht
    · exact .inr ⟨time, List.mem_cons_of_mem _ ha.1, hx⟩
    · exact .inl (ha.2 hx)
  | expireShard => exact absurd ha id
  | _ => exact absurd ht id

end World

section Cycle

def sweepAllows (readings : List ℤ) : Act → Prop
  | .expireShard _ time _ _ => readings.head? = some time
  | .now | .tick => True
  | _ => False

def sweepNext (readings : List ℤ) : (a : Act) → a.Resp → List ℤ
  | .now, r => r :: readings
  | _, _ => readings

abbrev Sweeps {α : Type} (readings : List ℤ) (p : Prog α) : Prop :=
  Follows (S := sig) (fun _ _ => True) sweepAllows sweepNext (fun _ _ => True) readings p

lemma sweeps_act {α : Type} {readings : List ℤ} {a : Act} {f : a.Resp → Prog α}
    (ha : sweepAllows readings a) (hf : ∀ r, Sweeps (sweepNext readings a r) (f r)) :
    Sweeps readings (invoke a >>= f) := Follows.act ha fun r _ => hf r

lemma sweeps_expireShards {readings : List ℤ} {time : ℤ} (hT : readings.head? = some time) (n : ℕ)
    (ids : List ShardId) :
    ∀ scanned expired, Sweeps readings (expireShards time n ids scanned expired) := by
  induction ids with
  | nil => exact fun _ _ => .done trivial
  | cons i ids ih =>
    intro scanned expired
    simp only [expireShards]
    split_ifs
    · exact .done trivial
    · exact sweeps_act (a := .expireShard i time n scanned) hT fun r => ih r.1 (expired + r.2)

lemma sweeps_expireRounds (rounds : ℕ) : ∀ (readings : List ℤ) (scanned expired : ℕ),
    Sweeps readings (expireRounds rounds scanned expired) := by
  induction rounds with
  | zero => exact fun _ _ _ => .done trivial
  | succ rounds ih =>
    intro readings scanned expired
    have hsample : Sweeps readings (expireSample activeExpireSampleSize) :=
      sweeps_act (a := .now) trivial fun time => sweeps_act (a := .tick) trivial fun _ =>
        sweeps_expireShards rfl _ _ _ _
    refine hsample.bind fun readings r _ => ?_
    simp only
    split_ifs
    · exact .done trivial
    · exact ih _ _ _

lemma sweeps_activeExpireCycle (readings : List ℤ) : Sweeps readings activeExpireCycle :=
  sweeps_expireRounds _ _ _ _

end Cycle

end RedisClone.Store
