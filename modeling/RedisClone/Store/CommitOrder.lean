import RedisClone.Lib.Serial
import RedisClone.Store.Concurrency
import RedisClone.Store.Journal

/-! With a journal attached every interleaving of calls comes down to one order of them: the order
in which they took `commitMu`. -/

namespace RedisClone.Store

open Lib Lib.Program

def Act.idle : Act → Prop
  | .now | .config | .unlockShard _ => True
  | _ => False

def Act.inner : Act → Prop
  | .lockDurableMutation | .unlockDurableMutation => False
  | _ => True

def commitGate : Gate sig where
  acquire := .lockDurableMutation
  release := .unlockDurableMutation
  idle := Act.idle
  work := Act.inner
  acquire_ne := Act.noConfusion
  idle_ne a h := ⟨fun he => by subst he; exact h, fun he => by subst he; exact h⟩
  work_ne a h := ⟨fun he => by subst he; exact h, fun he => by subst he; exact h⟩

lemma idle_stable (a : Act) (ha : a.idle) (i : Input) (r : a.Resp) (w w' : Image)
    (h : ActSpec a i r w w') : w' = w ∧ ∀ v, ActSpec a i r v v := by
  cases a with
  | now =>
    obtain ⟨rfl, rfl⟩ := actSpec_now.1 h
    exact ⟨rfl, fun _ => ⟨rfl, rfl⟩⟩
  | config => exact ⟨actSpec_config.1 h, fun _ => rfl⟩
  | unlockShard j => exact ⟨actSpec_unlockShard.1 h, fun _ => rfl⟩
  | _ => exact absurd ha id

section Turn

variable {ι : Type} {t : ι} {l l' : Locks ι}

lemma Locks.after_acquire (h : l.after t true .lockDurableMutation = some l') :
    l.gate = none ∧ l'.gate = some t ∧ l'.commits = l.commits ++ [t] := by
  simp only [Locks.after, if_true] at h
  split_ifs at h with hg
  obtain rfl := Option.some.inj h
  exact ⟨Option.isNone_iff_eq_none.1 hg, rfl, rfl⟩

lemma Locks.after_release (h : l.after t true .unlockDurableMutation = some l') :
    l'.gate = none ∧ l'.commits = l.commits := by
  simp only [Locks.after, if_true] at h
  obtain rfl := Option.some.inj h
  exact ⟨rfl, rfl⟩

lemma Locks.after_other {a : Act} (ha : a.inner) (h : l.after t true a = some l') :
    l'.gate = l.gate ∧ l'.commits = l.commits := by
  cases a with
  | lockDurableMutation | unlockDurableMutation => exact absurd ha id
  | lockShard i =>
    simp only [Locks.after] at h
    split_ifs at h
    obtain rfl := Option.some.inj h
    exact ⟨rfl, rfl⟩
  | unlockShard i =>
    obtain rfl := Option.some.inj h
    exact ⟨rfl, rfl⟩
  | _ =>
    simp only [Locks.after] at h
    split_ifs at h
    obtain rfl := Option.some.inj h
    exact ⟨rfl, rfl⟩

lemma World.Acts.turn {a : Act} {i : Input} {r : a.Resp} {w w' : World ι}
    (h : World.Acts t a i r w w') (hj : w.store.journal.isSome = true) :
    Turn commitGate (fun w : World ι => w.locks.gate) (fun w => w.locks.commits) t a w w' := by
  have hl := h.locks
  rw [hj] at hl
  refine ⟨?_, ?_, fun h₁ h₂ => ?_⟩
  · rintro rfl
    exact Locks.after_acquire hl
  · rintro rfl
    exact Locks.after_release hl
  · refine Locks.after_other ?_ hl
    cases a with
    | lockDurableMutation => exact absurd rfl h₁
    | unlockDurableMutation => exact absurd rfl h₂
    | _ => exact trivial

end Turn

section Programs

variable {α : Type} {ends : Phase → α → Prop}

lemma gated_idle {ph : Phase} {a : Act} {f : a.Resp → Prog α} (hph : ph ≠ .inside) (ha : a.idle)
    (hf : ∀ r, Gated commitGate ends ph (f r)) : Gated commitGate ends ph (invoke a >>= f) :=
  Gated.idle (G := commitGate) hph ha hf

lemma gated_enter {f : Unit → Prog α} (hf : ∀ r, Gated commitGate ends .inside (f r)) :
    Gated commitGate ends .before (invoke .lockDurableMutation >>= f) :=
      Gated.enter (G := commitGate) hf

lemma gated_work {a : Act} {f : a.Resp → Prog α} (ha : a.inner)
    (hf : ∀ r, Gated commitGate ends .inside (f r)) :
    Gated commitGate ends .inside (invoke a >>= f) := Gated.work (G := commitGate) ha hf

lemma gated_leave {f : Unit → Prog α} (hf : ∀ r, Gated commitGate ends .after (f r)) :
    Gated commitGate ends .inside (invoke .unlockDurableMutation >>= f) :=
      Gated.leave (G := commitGate) hf

def atEnd (ph : Phase) (_ : α) : Prop := ph = .after

lemma gated_return (b : α) : Gated commitGate atEnd .after (pure b : Prog α) := .done rfl

lemma gated_giveBack : Gated commitGate atEnd .inside (invoke .unlockDurableMutation) :=
  Gated.leave (G := commitGate) fun _ => .done rfl

lemma inner_act {a : Act} {f : a.Resp → Prog α} (ha : a.inner) (hf : ∀ r, Only Act.inner (f r)) :
    Only Act.inner (invoke a >>= f) := Only.act ha hf

lemma inner_setLocked (key : Key) (val : Bytes) (expiresAt : Time) :
    Only Act.inner (setLocked key val expiresAt) :=
  Only.act (S := sig) trivial fun _ => Only.act trivial Only.done

lemma inner_lockAll (ids : List ShardId) : Only Act.inner (lockAll ids) := by
  induction ids with
  | nil => exact .done ()
  | cons i ids ih => exact Only.act (S := sig) trivial fun _ => ih

lemma idle_unlockAll (ids : List ShardId) : Only Act.idle (unlockAll ids) := by
  induction ids with
  | nil => exact .done ()
  | cons i ids ih => exact Only.act (S := sig) trivial fun _ => ih

lemma inner_lockWriteShards (keys : List Key) : Only Act.inner (lockWriteShards keys) :=
  (inner_lockAll _).bind fun _ => .done _

lemma inner_deleteIfExpired (key : Key) (now : ℤ) (e : Option Entry) :
    Only Act.inner (deleteIfExpired key now e) := by
  cases e with
  | none => exact .done _
  | some e =>
    simp only [deleteIfExpired]
    split_ifs
    · exact Only.act (S := sig) trivial fun _ => .done _
    · exact .done _

lemma inner_used : Only Act.inner used := by
  refine Obeys.mono (fun a ha => ?_) (fun _ _ h => h) (fun _ h => h) quiet_used
  cases a with
  | lockDurableMutation | unlockDurableMutation => exact absurd ha id
  | _ => exact trivial

lemma inner_sampleShards (ids : List ShardId) :
    ∀ sample, Only Act.inner (sampleShards ids sample) := by
  induction ids with
  | nil => exact fun _ => .done _
  | cons i ids ih =>
    refine fun sample => inner_act trivial fun r => ?_
    cases r with
    | victim key => exact .done _
    | more sample' =>
      simp only
      split_ifs
      · exact .done _
      · exact ih sample'

lemma gated_setTo (key : Key) (val : Bytes) (expiresAt : Time) :
    Gated commitGate atEnd .before (setTo key val expiresAt) :=
  gated_enter fun _ => Gated.of_work (inner_setLocked key val expiresAt) fun _ => gated_giveBack

lemma gated_unlock {β : Type} (ids : List ShardId) (b : β) :
    Gated commitGate atEnd .inside (invoke .unlockDurableMutation >>= fun _ =>
      unlockWriteShards ids >>= fun _ => (pure b : Prog β)) :=
  gated_leave fun _ => Gated.of_idle Phase.noConfusion (idle_unlockAll _) fun _ => gated_return b

lemma gated_del (keys : List Key) : Gated commitGate atEnd .before (del keys) := by
  refine gated_idle Phase.noConfusion trivial fun now => gated_enter fun _ => ?_
  refine Gated.of_work (inner_lockWriteShards keys) fun ids => gated_work trivial fun r => ?_
  by_cases hr : r.2 = []
  · simpa [hr] using gated_unlock ids r.1
  · simpa [hr] using gated_work (a := .propagate (cmdDEL :: r.2)) trivial fun _ =>
      gated_unlock ids r.1

lemma Gated.andReturn {β : Type} {ph : Phase} {p : Prog β}
    (hp : Gated commitGate atEnd ph p) (f : β → α) :
    Gated commitGate atEnd ph (p >>= fun b => pure (f b)) := by
  have hm : Gated commitGate atEnd ph (f <$> p) := Gated.map f hp
  rwa [map_eq_pure_bind] at hm

lemma gated_setWithTTL (key : Key) (val : Bytes) (d : ℤ) :
    Gated commitGate atEnd .before (setWithTTL key val d) := by
  unfold setWithTTL
  split_ifs
  · exact Gated.andReturn (gated_del [key]) fun _ => ()
  · exact gated_idle Phase.noConfusion trivial fun now => gated_setTo key val _

lemma gated_setWithDeadline (key : Key) (val : Bytes) (deadline : Time) :
    Gated commitGate atEnd .before (setWithDeadline key val deadline) := by
  refine gated_idle Phase.noConfusion trivial fun now => ?_
  split_ifs
  · exact gated_setTo key val deadline
  · exact Gated.andReturn (gated_del [key]) fun _ => ()

lemma gated_mset (pairs : List (Key × Bytes)) : Gated commitGate atEnd .before (mset pairs) := by
  refine gated_enter fun _ => Gated.of_work (inner_lockWriteShards _) fun ids => ?_
  refine gated_work trivial fun _ => gated_work trivial fun _ => gated_leave fun _ => ?_
  have hu := Gated.of_idle (G := commitGate) Phase.noConfusion (idle_unlockAll ids.reverse)
    fun _ => gated_return ()
  rwa [pure_eq, bind_done] at hu

lemma gated_increment (key : Key) (delta : Int64) :
    Gated commitGate atEnd .before (increment key delta) := by
  refine gated_idle Phase.noConfusion trivial fun now => gated_enter fun _ =>
    gated_work trivial fun r => ?_
  refine Gated.of_work (inner_deleteIfExpired key now r) fun e => ?_
  cases counterValue e with
  | none => exact gated_leave fun _ => gated_return none
  | some n =>
    simp only
    split_ifs
    · exact gated_leave fun _ => gated_return none
    · exact Gated.of_work (inner_setLocked _ _ _) fun _ => gated_leave fun _ => gated_return _

lemma gated_append (key : Key) (suffix : Bytes) :
    Gated commitGate atEnd .before (append key suffix) := by
  refine gated_idle Phase.noConfusion trivial fun now => gated_enter fun _ =>
    gated_work trivial fun r => ?_
  refine Gated.of_work (inner_deleteIfExpired key now r) fun e => ?_
  exact Gated.of_work (inner_setLocked _ _ _) fun _ => gated_leave fun _ => gated_return _

lemma gated_expireAt (key : Key) (deadline : Time) :
    Gated commitGate atEnd .before (expireAt key deadline) := by
  refine gated_idle Phase.noConfusion trivial fun now => gated_enter fun _ =>
    gated_work trivial fun _ => ?_
  refine gated_work trivial fun answer => ?_
  have hrest (b : Bool) :
      Gated commitGate atEnd .inside (invoke (.unlockShard (shardIndex key)) >>= fun _ =>
      invoke .unlockDurableMutation >>= fun _ => (pure b : Prog Bool)) :=
    gated_work trivial fun _ => gated_leave fun _ => gated_return b
  cases answer with
  | missing => exact hrest false
  | collected => exact gated_work (a := .propagate [cmdDEL, key]) trivial fun _ => hrest false
  | deleted => exact gated_work (a := .propagate [cmdDEL, key]) trivial fun _ => hrest true
  | kept d =>
    exact gated_work (a := .propagate [cmdPEXPIREAT, key, unixMillis d]) trivial fun _ => hrest true

lemma gated_expire (key : Key) (d : ℤ) : Gated commitGate atEnd .before (expire key d) :=
  gated_idle Phase.noConfusion trivial fun _ => gated_expireAt key _

def Enforced.mayEnd (ph : Phase) (e : Enforced) : Prop :=
  match ph with
  | .before => e = .finished 0 true
  | .inside => ∃ evicted, e = .running evicted
  | .after => True

lemma gated_evictLoop (maxMemory : ℤ) (fuel : ℕ) :
    ∀ evicted, Gated commitGate Enforced.mayEnd .inside (evictLoop maxMemory fuel evicted) := by
  induction fuel with
  | zero => exact fun evicted => .done ⟨evicted, rfl⟩
  | succ fuel ih =>
    refine fun evicted => Gated.of_work inner_used fun _ => ?_
    split_ifs
    · refine Gated.of_work (inner_sampleShards allShards ⟨none, 0⟩) fun r => ?_
      cases r with
      | none => exact gated_leave fun _ => .done trivial
      | some key => exact gated_work trivial fun _ => gated_work trivial fun _ =>
          gated_work trivial fun _ => ih _
    · exact gated_leave fun _ => .done trivial

lemma gated_enforceMemoryLimit (fuel : ℕ) :
    Gated commitGate Enforced.mayEnd .before (enforceMemoryLimit fuel) := by
  refine gated_idle Phase.noConfusion trivial fun r => ?_
  simp only
  split
  · exact .done rfl
  · refine gated_enter fun _ => Gated.of_work inner_used fun _ => ?_
    split_ifs
    · exact gated_leave fun _ => .done trivial
    · exact gated_leave fun _ => .done trivial
    · exact gated_evictLoop _ fuel 0

end Programs

end RedisClone.Store
