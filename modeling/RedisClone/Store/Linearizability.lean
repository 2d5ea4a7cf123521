import RedisClone.Lib.RealTime
import RedisClone.Store.Updates

/-! Reads and writes that run at once on a store with a journal: one order of them explains every
reply, and it agrees with real time. -/

namespace RedisClone.Store

open Lib Lib.Program

/-- The operations that take effect by one section. `DBSize`, and `Exists` on several keys, look at
one shard after another. -/
def Op.atomic : Op → Bool
  | .exists_ keys => decide (keys.length = 1)
  | .dbSize => false
  | _ => true

def Act.looks : Act → Prop
  | .lookup _ | .getRead _ _ => True
  | _ => False

def Act.decides : Act → Prop
  | .set _ _ _ | .mset _ | .del _ _ | .expireAt _ _ _ => True
  | _ => False

def opSections : Sections sig := ⟨Act.stable, Act.looks, Act.decides⟩

def noneDue (T : ℤ) : (a : Act) → a.Resp → Prop
  | .getRead _ now, r => now ≤ T → r ≠ .expired
  | a, r => Early T a r

section Programs

variable {T : ℤ} {α : Type}

abbrev Decides (T : ℤ) (st : Stage) (p : Prog α) : Prop := Staged opSections (noneDue T) True st p

lemma decides_stable {st : Stage} {a : Act} {f : a.Resp → Prog α} (hst : st ≠ .looked)
    (ha : a.stable) (hf : ∀ r, noneDue T a r → Decides T st (f r)) :
    Decides T st (invoke a >>= f) :=
  Staged.stable (K := opSections) hst ha hf

lemma decides_write {a : Act} {f : a.Resp → Prog α} (ha : a.decides)
    (hf : ∀ r, Decides T .settled (f r)) : Decides T .fresh (invoke a >>= f) :=
  Staged.writes (K := opSections) Stage.noConfusion ha fun r _ => hf r

lemma decides_look {a : Act} {f : a.Resp → Prog α} (ha : a.looks)
    (hf : ∀ r, noneDue T a r → Decides T .settled (f r)) : Decides T .fresh (invoke a >>= f) :=
  Staged.looks (K := opSections) trivial ha (fun _ => .settled) (fun _ _ => Stage.noConfusion) hf

lemma decides_of_stable {β : Type} {st : Stage} {p : Prog β} {f : β → Prog α} (hst : st ≠ .looked)
    (hp : Only Act.stable p) (hf : ∀ b, Decides T st (f b)) : Decides T st (p >>= f) := by
  unfold Only at hp
  induction hp with
  | done _ => exact hf _
  | act ha _ ih => exact .stable hst ha fun r _ => ih r trivial

lemma decides_of_updates {key : Key} {st : Stage} {p : Prog α} (hp : Updates T key True st p) :
    Decides T st p := by
  refine Staged.mono (K := keySections key) (fun _ h => h) (fun a ha => ?_) (fun a ha => ?_)
    (fun a r hr => ?_) hp
  · obtain rfl : a = .lookup key := ha
    trivial
  · have ha : a.writes = some [key] := ha
    cases a with
    | set | del | expireAt => trivial
    | _ => exact absurd ha.symm (Option.some_ne_none _)
  · cases a with
    | getRead key now => trivial
    | _ => exact hr

lemma decides_return (b : α) :
    Decides T .settled (invoke .unlockDurableMutation >>= fun _ => (pure b : Prog α)) :=
  decides_stable Stage.noConfusion trivial fun _ _ => .done

lemma decides_unlock (ids : List ShardId) (b : α) :
    Decides T .settled (invoke .unlockDurableMutation >>= fun _ =>
    unlockWriteShards ids >>= fun _ => (pure b : Prog α)) :=
  decides_stable Stage.noConfusion trivial fun _ _ =>
    decides_of_stable Stage.noConfusion (stable_unlockAll _) fun _ => .done

lemma decides_setTo (key : Key) (val : Bytes) (expiresAt : Time) :
    Decides T .fresh (setTo key val expiresAt) := by
  refine decides_stable Stage.noConfusion trivial fun _ _ =>
    decides_write (a := .set key val expiresAt) trivial fun _ => ?_
  refine decides_stable (a := .propagate _) Stage.noConfusion trivial fun _ _ => ?_
  exact Staged.stable (K := opSections) Stage.noConfusion trivial fun _ _ => .done

lemma decides_del (keys : List Key) : Decides T .fresh (del keys) := by
  refine decides_stable Stage.noConfusion trivial fun now _ =>
    decides_stable Stage.noConfusion trivial fun _ _ => ?_
  refine decides_of_stable Stage.noConfusion (stable_lockWriteShards _) fun ids =>
    decides_write trivial fun r => ?_
  by_cases hr : r.2 = []
  · simpa [hr] using decides_unlock ids r.1
  · simpa [hr] using decides_stable (a := .propagate (cmdDEL :: r.2)) Stage.noConfusion trivial
      fun _ _ => decides_unlock ids r.1

lemma Decides.andReturn {β : Type} {st : Stage} {p : Prog β} (hp : Decides T st p) (f : β → α) :
    Decides T st (p >>= fun b => pure (f b)) := by
  have hm : Decides T st (f <$> p) := Staged.map f hp
  rwa [map_eq_pure_bind] at hm

lemma decides_setWithTTL (key : Key) (val : Bytes) (d : ℤ) :
    Decides T .fresh (setWithTTL key val d) := by
  unfold setWithTTL
  split_ifs
  · exact (decides_del [key]).andReturn fun _ => ()
  · exact decides_stable Stage.noConfusion trivial fun _ _ => decides_setTo key val _

lemma decides_setWithDeadline (key : Key) (val : Bytes) (deadline : Time) :
    Decides T .fresh (setWithDeadline key val deadline) := by
  refine decides_stable Stage.noConfusion trivial fun now _ => ?_
  split_ifs
  · exact decides_setTo key val deadline
  · exact (decides_del [key]).andReturn fun _ => ()

lemma decides_mset (pairs : List (Key × Bytes)) : Decides T .fresh (mset pairs) := by
  refine decides_stable Stage.noConfusion trivial fun _ _ => ?_
  refine decides_of_stable Stage.noConfusion (stable_lockWriteShards _) fun ids =>
    decides_write trivial fun _ => ?_
  refine decides_stable (a := .propagate (msetRecord pairs)) Stage.noConfusion trivial fun _ _ => ?_
  have hu := decides_unlock (T := T) ids ()
  rwa [pure_eq, bind_done] at hu

lemma decides_expireAt (key : Key) (deadline : Time) :
    Decides T .fresh (expireAt key deadline) := by
  have hrest (b : Bool) : Decides T .settled (invoke (.unlockShard (shardIndex key)) >>= fun _ =>
      invoke .unlockDurableMutation >>= fun _ => (pure b : Prog Bool)) :=
    decides_stable Stage.noConfusion trivial fun _ _ => decides_return b
  refine decides_stable Stage.noConfusion trivial fun now _ =>
    decides_stable Stage.noConfusion trivial fun _ _ => ?_
  refine decides_stable Stage.noConfusion trivial fun _ _ => decides_write trivial fun answer => ?_
  cases answer with
  | missing => exact hrest false
  | collected =>
    exact decides_stable (a := .propagate [cmdDEL, key]) Stage.noConfusion trivial
      fun _ _ => hrest false
  | deleted =>
    exact decides_stable (a := .propagate [cmdDEL, key]) Stage.noConfusion trivial
      fun _ _ => hrest true
  | kept d =>
    exact decides_stable (a := .propagate [cmdPEXPIREAT, key, unixMillis d]) Stage.noConfusion
      trivial fun _ _ => hrest true

lemma decides_get (key : Key) : Decides T .fresh (get key) := by
  refine decides_stable Stage.noConfusion trivial fun now hn => decides_look (a := .getRead key now)
    trivial fun r hr => ?_
  cases r with
  | missing | hit => exact .done
  | expired => exact absurd rfl (hr hn)

lemma decides_ttl (key : Key) : Decides T .fresh (ttl key) := by
  refine decides_stable Stage.noConfusion trivial fun now _ =>
    decides_look (a := .lookup key) trivial fun r _ => ?_
  cases r with
  | none => exact .done
  | some e =>
    simp only
    cases e.expiresAt <;> exact .done

lemma decides_exists (key : Key) : Decides T .fresh (exists_ [key]) := by
  refine decides_stable Stage.noConfusion trivial fun now _ =>
    decides_look (a := .lookup key) trivial fun r _ => ?_
  cases r <;> exact .done

lemma decides_op (o : Op) (h : o.atomic = true) : Decides T .fresh (Call.op o).program := by
  refine Staged.map Reply.answer ?_
  cases o with
  | get key => exact Staged.map _ (decides_get key)
  | set key val => exact Staged.map _ (decides_setTo key val none)
  | setWithTTL key val d => exact Staged.map _ (decides_setWithTTL key val d)
  | setWithDeadline key val deadline =>
    exact Staged.map _ (decides_setWithDeadline key val deadline)
  | mset pairs => exact Staged.map _ (decides_mset pairs)
  | increment key delta =>
    exact Staged.map _ (decides_of_updates (updates_increment trivial key delta))
  | append key suffix => exact Staged.map _ (decides_of_updates (updates_append trivial key suffix))
  | expire key d =>
    exact Staged.map _ (decides_stable Stage.noConfusion trivial fun _ _ => decides_expireAt key _)
  | expireAt key deadline => exact Staged.map _ (decides_expireAt key deadline)
  | ttl key => exact Staged.map _ (decides_ttl key)
  | del keys => exact Staged.map _ (decides_del keys)
  | exists_ keys =>
    obtain ⟨key, rfl⟩ := List.length_eq_one_iff.1 (of_decide_eq_true h)
    exact Staged.map _ (decides_exists key)
  | dbSize => exact Bool.noConfusion h

end Programs

def Image.detached (w : Image) : Image := { w with journal := none }

section Sections

variable {T : ℤ} {a : Act} {i : Input} {r : a.Resp} {w w' : Image}

lemma ActSpec.detached (h : ActSpec a i r w w') : ActSpec a i r w.detached w'.detached := by
  cases a with
  | now | getRead | lookup | shardLive | shardSnapshot | sampleShard =>
    exact ⟨h.1, congrArg Image.detached h.2⟩
  | propagate record =>
    obtain rfl := actSpec_propagate.1 h
    rfl
  | getCollect | set | delete | mset =>
    exact congrArg Image.detached (show w' = _ from h)
  | del | expireAt => exact ⟨h.1, congrArg Image.detached h.2⟩
  | expireShard => exact ⟨h.1, rfl⟩
  | _ => exact congrArg Image.detached (show w' = w from h)

lemma looks_unchanged (a : Act) (ha : a.looks) (i : Input) (r : a.Resp) (w w' : Image)
    (h : ActSpec a i r w w') : w' = w := by
  cases a with
  | lookup key => exact (actSpec_lookup.1 h).2
  | getRead key now => exact (actSpec_getRead.1 h).2
  | _ => exact absurd ha id

lemma noneDue_of_spec (hi : i.time ≤ T) (hl : w.keyspace.Lively T) (h : ActSpec a i r w w') :
    noneDue T a r := by
  cases a with
  | getRead key now =>
    rintro hn rfl
    have hx := (actSpec_getRead.1 h).1
    simp only [Keyspace.readAnswer] at hx
    split at hx
    · exact GetAnswer.noConfusion hx
    · rename_i it hk
      rw [hl.expired hn hk] at hx
      exact GetAnswer.noConfusion hx
  | _ => exact h.early hl hi

end Sections

section Order

variable {ι : Type} {T : ℤ} {calls : ι → Call} {inputs : ι → ℕ → Input} {w₀ : Image}
  {c c' : Threads ι Reply} {t u : ι}

lemma InCommitOrder.gate_of_decides (hc : InCommitOrder T calls inputs w₀ c) {b : Act}
    {k : b.Resp → Prog Reply} (hk : c.prog u = .act b k) (hb : b.decides) :
    c.world.locks.gate = some u := by
  have hidle (hi : b.idle) : False := by
    cases b with
    | set | mset | del | expireAt => exact hi
    | _ => exact hb
  by_cases hw : (calls u).watches = true
  · have hwatch := hc.watching u hw
    rw [hk] at hwatch
    have hq := hwatch.next.1
    cases b with
    | set | mset | del | expireAt => exact absurd hq id
    | _ => exact absurd hb id
  obtain ⟨settled, base, hs⟩ := hc.serial
  by_cases hm : u ∈ c.world.locks.commits
  · rw [hs.order] at hm
    rcases List.mem_append.1 hm with hm | hm
    · have hg := hs.gone u hm
      rw [hk] at hg
      cases hg with
      | idle _ hi _ => exact absurd hi hidle
    · exact Option.mem_toList.1 hm
  · have hg := (hs.waiting u hw hm).1
    rw [hk] at hg
    cases hg with
    | idle _ hi _ => exact absurd hi hidle
    | enter _ => exact absurd hb id

variable [DecidableEq ι] {a : Act} {r : a.Resp}

lemma InCommitOrder.unchanged_of_gate (hclock : ∀ t n, (inputs t n).time ≤ T)
    (hc : InCommitOrder T calls inputs w₀ c) (hl : c.world.store.view.Lively T)
    (hm : c.Moves World.act inputs t a r c') (hg : c.world.locks.gate = some u) (hu : u ≠ t) :
    c'.world.store.image = c.world.store.image := by
  have ha := World.act_spec hc.wellFormed hm.acts
  obtain ⟨k, hk, -⟩ := hm.prog
  by_cases hw : (calls t).watches = true
  · have hwatch := hc.watching t hw
    rw [hk] at hwatch
    exact watching_unchanged (hclock t _) hl hwatch.next.1 ha.image
  obtain ⟨settled, base, hs⟩ := hc.serial
  have hidle (hi : a.idle) : c'.world.store.image = c.world.store.image :=
    (idle_stable a hi _ _ _ _ ha.image).1
  by_cases hmem : t ∈ c.world.locks.commits
  · rw [hs.order, hg] at hmem
    rcases List.mem_append.1 hmem with hmem | hmem
    · have hgone := hs.gone t hmem
      rw [hk] at hgone
      cases hgone with
      | idle _ hi _ => exact hidle hi
    · exact absurd (List.mem_singleton.1 hmem).symm hu
  · have hbefore := (hs.waiting t hw hmem).1
    rw [hk] at hbefore
    cases hbefore with
    | idle _ hi _ => exact hidle hi
    | enter _ =>
      have hfree := ((ha.turn hc.journalled).acquire rfl).1
      exact absurd (hg.symm.trans hfree) (Option.some_ne_none u)

end Order

section Runs

variable {ι : Type} (T : ℤ) (ops : ι → Op) (inputs : ι → ℕ → Input) (w₀ : Image)

/-- The calls took `commitMu` one after another, and `order` is how they took effect. -/
structure InLine (c : Threads ι Reply) (order : List ι) : Prop where
  gated : InCommitOrder T (fun t => .op (ops t)) inputs w₀ c
  committed : Committed ActSpec inputs (fun t => (Call.op (ops t)).program) opSections (noneDue T)
    (fun _ => True) (fun w => w.keyspace.Lively T) (fun w => w.journal = none)
      (fun w : World ι => w.store.image.detached) w₀.detached c order

variable {T ops inputs w₀} [DecidableEq ι] {c c' : Threads ι Reply} {t : ι} {a : Act} {r : a.Resp}
  {order : List ι}

lemma InLine.step (hclock : ∀ t n, (inputs t n).time ≤ T) (hc : InLine T ops inputs w₀ c order)
    (hl : c.world.store.view.Lively T) (hm : c.Moves World.act inputs t a r c') :
    InLine T ops inputs w₀ c' order ∨ InLine T ops inputs w₀ c' (order ++ [t]) := by
  have hg := hc.gated.step hclock hl hm
  have ha := (World.act_spec hc.gated.wellFormed hm.acts).image
  refine (hc.committed.step hm stable_spec looks_unchanged ha.detached
    (noneDue_of_spec (hclock t _) hl ha) hl rfl rfl fun u hu _ _ hs => ?_).imp (fun h => ⟨hg, h⟩)
      fun h => ⟨hg, h⟩
  obtain ⟨b, k, hk, hb⟩ := hs.of_looked
  exact congrArg Image.detached
    (hc.gated.unchanged_of_gate hclock hl hm (hc.gated.gate_of_decides hk hb) hu)

omit [DecidableEq ι] in
lemma InLine.mem_of_returned (hc : InLine T ops inputs w₀ c order)
    (ht : (c.result t).isSome = true) : t ∈ order := by
  obtain ⟨reply, hr⟩ := Option.isSome_iff_exists.1 ht
  exact hc.committed.mem_of_done (Config.result_eq_some.1 hr)

omit [DecidableEq ι] in
lemma serially_replies {s₀ : Store} (hs₀ : WellFormed s₀) {ts : List ι} {w : Image}
    (hdone : ∀ t ∈ ts, (c.result t).isSome = true)
    (h : Serially (fun t w w' => Alone ActSpec inputs (fun t => (Call.op (ops t)).program) c t w w')
      s₀.image.detached ts w) :
    let serial := serially (fun t => (ops t).program) inputs ts s₀
    WellFormed serial.2 ∧ serial.2.image.detached = w ∧ ∀ q ∈ serial.1,
    c.result q.1 = some (.answer q.2) := by
  induction h with
  | nil => exact ⟨hs₀, rfl, fun q hq => absurd hq List.not_mem_nil⟩
  | @snoc ts t w w' _ ht ih =>
    obtain ⟨hwf, himage, hagree⟩ := ih fun u hu => hdone u (List.mem_append_left _ hu)
    obtain ⟨reply, hreply⟩ :=
      Option.isSome_iff_exists.1 (hdone t (List.mem_append_right _ List.mem_cons_self))
    rw [Alone, Config.result_eq_some.1 hreply] at ht
    obtain ⟨b, hb, rfl⟩ := runs_map.1 ht
    have heffect := (ops t).program_effect hb
    have hlast := (ops t).program_effect (exec_image (ops t).program (inputs t) _ hwf)
    have hks :
        (serially (fun t => (ops t).program) inputs ts s₀).2.image.detached.keyspace = w.keyspace :=
      congrArg Image.keyspace himage
    simp only [serially_snoc]
    refine ⟨exec_wellFormed _ _ _ hwf, ?_, fun q hq => ?_⟩
    · rw [hlast.image, heffect.image, ← himage]
      rfl
    · rcases List.mem_append.1 hq with hq | hq
      · exact hagree q hq
      · rw [List.mem_singleton.1 hq, hreply, hlast.answer, heffect.answer, ← hks]
        rfl

/-- Operations that run at once on a store with a journal are linearizable: once all have returned,
their replies and the keyspace are those of running them one after another, in an order in which a
call that had returned before another began comes first. -/
theorem operations_linearize (maxMemory : ℤ) (policy : EvictionPolicy) (ops : ι → Op)
    (hops : ∀ t, (ops t).atomic = true) (inputs : ι → ℕ → Input) (schedule : List ι) (T : ℤ)
    (hclock : ∀ t n, (inputs t n).time ≤ T)
    (hlive : (booted true maxMemory policy fun t => (Call.op (ops t)).program).Along World.act
      inputs (fun c _ => c.world.store.undue T = true) schedule) :
    let c₀ := booted true maxMemory policy fun t => (Call.op (ops t)).program
    let c := c₀.after World.act inputs schedule
    (∀ t, (c.result t).isSome = true) →
      ∃ order : List ι, order.Nodup ∧ (∀ t, t ∈ order) ∧
        (∀ t u, c₀.Precedes World.act inputs schedule t u → [t, u].Sublist order) ∧
        let serial :=
          serially (fun t => (ops t).program) inputs order (configured true maxMemory policy)
        (∀ q ∈ serial.1, c.result q.1 = some (.answer q.2)) ∧
            serial.2.view = c.world.store.view := by
  intro c₀ c hdone
  have hs₀ := configured_wellFormed true maxMemory policy
  have hstart : InLine T ops inputs (configured true maxMemory policy).image c₀ [] :=
    ⟨inCommitOrder_start maxMemory policy, .start rfl fun t => decides_op (ops t) (hops t)⟩
  obtain ⟨order, hline, hreal⟩ :=
    Config.exists_realTime_order (P := InLine T ops inputs (configured true maxMemory policy).image)
    (fun _ _ _ _ _ _ hc hl hm => hc.step hclock (undue_lively hl) hm)
      (fun _ _ _ hc => hc.mem_of_returned) hstart schedule hlive
  have hall (t : ι) : t ∈ order := hline.mem_of_returned (hdone t)
  obtain ⟨-, himage, hagree⟩ :=
    serially_replies hs₀ (fun t _ => hdone t) (hline.committed.ran.imp fun _ _ _ _ h => h.2.2)
  exact ⟨order, hline.committed.nodup, hall, fun t u h => hreal t u h (hall u), hagree,
    congrArg Image.keyspace himage⟩

end Runs

def countedUp : Fin 4 → Op
  | 0 => .set (ascii "k") (ascii "5")
  | 1 => .increment (ascii "k") 1
  | 2 => .get (ascii "k")
  | 3 => .get (ascii "k")

def countedUpTurns : List (Fin 4) := turns 4 [1, 0, 0, 2, 2, 0, 0, 1, 1, 1, 3, 1, 1, 3]

theorem operations_linearize_countedUp :
    let c₀ := booted true 0 .noEviction fun t => (Call.op (countedUp t)).program
    let c := c₀.after World.act (fun _ _ => ⟨7, .stored⟩) countedUpTurns
    c.result 2 = some (.answer (.value (some (ascii "5")))) ∧
    c.result 3 = some (.answer (.value (some (ascii "6")))) ∧
      ∃ order : List (Fin 4), order.Nodup ∧ (∀ t, t ∈ order) ∧
        (∀ t u, c₀.Precedes World.act (fun _ _ => ⟨7, .stored⟩) countedUpTurns t u →
          [t, u].Sublist order) ∧
        let serial := serially (fun t => (countedUp t).program) (fun _ _ => ⟨7, .stored⟩) order
          (configured true 0 .noEviction)
        (∀ q ∈ serial.1, c.result q.1 = some (.answer q.2)) ∧ serial.2.view = c.world.store.view :=
  ⟨by decide +kernel, by
    decide +kernel, operations_linearize 0 .noEviction countedUp (by decide)
      (fun _ _ => ⟨7, .stored⟩)
    countedUpTurns 7 (fun _ _ => le_refl 7) (by decide +kernel) (by decide +kernel)⟩

end RedisClone.Store
