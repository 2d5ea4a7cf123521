import RedisClone.Store.Durability

namespace RedisClone.Store

open Lib Lib.Decimal

def Mutation.applied (ks : Keyspace) : Mutation → Keyspace
  | .put key val expiresAt => ks.put key val (expiresAt.map floorMilli)
  | .putAll pairs => ks.putAll pairs
  | .remove keys => ks.removeAll keys
  | .touch key d =>
    match ks key with
    | none => ks
    | some it => ks.put key it.val (some (floorMilli d))

def appliedAll (ms : List Mutation) (ks : Keyspace) : Keyspace := ms.foldl Mutation.applied ks

def readSet : List Bytes → Option Mutation
  | [key, val] => some (.put key val none)
  | [key, val, opt, ms] =>
    if opt = cmdPXAT then (parseInt ms).map fun n => .put key val (some (n * nanosPerMilli))
      else none
  | _ => none

def readPexpireat : List Bytes → Option Mutation
  | [key, ms] => (parseInt ms).map fun n => .touch key (n * nanosPerMilli)
  | _ => none

def readRecord : Record → Option Mutation
  | [] => none
  | name :: args =>
    if name = cmdSET then readSet args
    else if name = cmdMSET then some (.putAll (pairUp args))
    else if name = cmdDEL then some (.remove args)
    else if name = cmdPEXPIREAT then readPexpireat args
    else none

def foldRecord (ks : Keyspace) (record : Record) : Keyspace :=
  ((readRecord record).map fun m => m.applied ks).getD ks

def foldRecords (records : List Record) (ks : Keyspace) : Keyspace := records.foldl foldRecord ks

def Mutation.rounded : Mutation → Mutation
  | .put key val expiresAt => .put key val (expiresAt.map floorMilli)
  | .touch key d => .touch key (floorMilli d)
  | m => m

lemma readRecord_record (m : Mutation) : readRecord m.record = some m.rounded := by
  cases m with
  | put key val expiresAt =>
    cases expiresAt with
    | none => rfl
    | some d =>
      simp [Mutation.record, Mutation.rounded, setRecord, readRecord, readSet, unixMillis,
        parseInt_formatInt, floorMilli]
  | putAll pairs =>
    have hn : cmdMSET ≠ cmdSET := by decide
    simp [Mutation.record, Mutation.rounded, msetRecord, readRecord, hn, pairUp_flatMap]
  | remove keys =>
    have hn : cmdDEL ≠ cmdSET ∧ cmdDEL ≠ cmdMSET := by decide
    simp [Mutation.record, Mutation.rounded, readRecord, hn]
  | touch key d =>
    have hn : cmdPEXPIREAT ≠ cmdSET ∧ cmdPEXPIREAT ≠ cmdMSET ∧ cmdPEXPIREAT ≠ cmdDEL := by decide
    simp [Mutation.record, Mutation.rounded, readRecord, readPexpireat, unixMillis,
      parseInt_formatInt, hn, floorMilli]

lemma map_floorMilli_idem (expiresAt : Time) :
    (expiresAt.map floorMilli).map floorMilli = expiresAt.map floorMilli := by
  rw [Option.map_map]
  exact congrArg (Option.map · expiresAt) (funext floorMilli_idem)

lemma foldRecord_record (ks : Keyspace) (m : Mutation) : foldRecord ks m.record = m.applied ks := by
  rw [foldRecord, readRecord_record]
  cases m with
  | put key val expiresAt =>
    exact congrArg (ks.put key val) (map_floorMilli_idem expiresAt)
  | putAll pairs => rfl
  | remove keys => rfl
  | touch key d =>
    simp only [Mutation.rounded, Option.map_some, Option.getD_some, Mutation.applied,
      floorMilli_idem]

lemma foldRecords_records (ms : List Mutation) :
    ∀ ks, foldRecords (ms.map Mutation.record) ks = appliedAll ms ks := by
  induction ms with
  | nil => exact fun _ => rfl
  | cons m ms ih =>
    intro ks
    simp only [List.map_cons, foldRecords, List.foldl_cons, foldRecord_record]
    exact ih _

namespace Keyspace

def Lively (ks : Keyspace) (T : ℤ) : Prop := ∀ key it, ks key = some it → it.expired T = false

variable {ks : Keyspace} {T : ℤ}

lemma Lively.expired (h : ks.Lively T) {now : ℤ} (hT : now ≤ T) {key : Key} {it : Item}
    (hi : ks key = some it) : it.expired now = false := by
  rw [← Bool.not_eq_true]
  intro hx
  exact Bool.noConfusion ((h key it hi).symm.trans (expired_mono hT hx))

lemma Lively.collect (h : ks.Lively T) {now : ℤ} (hT : now ≤ T) (key : Key) :
    ks.collect key now = ks := by
  funext key'
  rcases ks.collect_collected key now key' with hk | ⟨-, hx⟩
  · exact hk
  · obtain ⟨it, hi, hx⟩ := Option.any_eq_true _ _ |>.1 hx
    exact Bool.noConfusion ((h.expired hT hi).symm.trans hx)

lemma Lively.collected (h : ks.Lively T) {now : ℤ} (hT : now ≤ T) {ks' : Keyspace}
    (hc : ks.Collected now ks') : ks' = ks := by
  funext key
  rcases hc key with hk | ⟨-, hx⟩
  · exact hk
  · obtain ⟨it, hi, hx⟩ := Option.any_eq_true _ _ |>.1 hx
    exact Bool.noConfusion ((h.expired hT hi).symm.trans hx)

lemma rounded_update (ks : Keyspace) (key : Key) (it : Option Item) :
    rounded (Function.update ks key it) = Function.update ks.rounded key (it.map roundItem) := by
  funext key'
  simp only [rounded, Function.update_apply]
  split_ifs <;> rfl

lemma rounded_put (ks : Keyspace) (key : Key) (val : Bytes) (expiresAt : Time) :
    (ks.put key val expiresAt).rounded = ks.rounded.put key val (expiresAt.map floorMilli) :=
      rounded_update ks key _

lemma rounded_remove (ks : Keyspace) (key : Key) :
    (ks.remove key).rounded = ks.rounded.remove key :=
  rounded_update ks key none

lemma rounded_removeAll (keys : List Key) :
    ∀ ks : Keyspace, (ks.removeAll keys).rounded = ks.rounded.removeAll keys := by
  induction keys with
  | nil => exact fun _ => rfl
  | cons key keys ih => exact fun ks => (ih (ks.remove key)).trans (by rw [rounded_remove]; rfl)

lemma rounded_putAll (pairs : List (Key × Bytes)) :
    ∀ ks : Keyspace, (ks.putAll pairs).rounded = ks.rounded.putAll pairs := by
  induction pairs with
  | nil => exact fun _ => rfl
  | cons p pairs ih => exact fun ks => (ih (ks.put p.1 p.2 none)).trans (by rw [rounded_put]; rfl)

lemma putEffect_applied (ks : Keyspace) (key : Key) (val : Bytes) (expiresAt : Time) :
    appliedAll (ks.putEffect key val expiresAt).mutations ks.rounded =
    (ks.putEffect key val expiresAt).keyspace.rounded :=
  (rounded_put ks key val expiresAt).symm

lemma delEffect_applied (ks : Keyspace) (keys : List Key) (now : ℤ) :
    appliedAll (ks.delEffect keys now).mutations ks.rounded =
    (ks.delEffect keys now).keyspace.rounded := by
  have hd := removeAll_deleted now keys ks
  simp only [delEffect]
  split_ifs with hf
  · rw [← hd, hf]
    rfl
  · rw [← hd, rounded_removeAll]
    rfl

lemma incrementEffect_applied (h : ks.Lively T) (key : Key) (delta : Int64) {now : ℤ}
    (hT : now ≤ T) :
    appliedAll (ks.incrementEffect key delta now).mutations ks.rounded =
    (ks.incrementEffect key delta now).keyspace.rounded := by
  simp only [incrementEffect, h.collect hT key]
  split
  · rfl
  · split_ifs
    · rfl
    · exact (rounded_put ks key _ _).symm

lemma appendEffect_applied (h : ks.Lively T) (key : Key) (suffix : Bytes) {now : ℤ} (hT : now ≤ T) :
    appliedAll (ks.appendEffect key suffix now).mutations ks.rounded =
    (ks.appendEffect key suffix now).keyspace.rounded := by
  simp only [appendEffect, h.collect hT key]
  exact (rounded_put ks key _ _).symm

lemma expireEffect_applied (ks : Keyspace) (key : Key) (deadline : Time) (now : ℤ) :
    appliedAll (ks.expireEffect key deadline now).mutations ks.rounded =
    (ks.expireEffect key deadline now).keyspace.rounded := by
  have hremove : appliedAll [.remove [key]] ks.rounded = (ks.remove key).rounded :=
    (rounded_remove ks key).symm
  simp only [expireEffect, expireKey]
  cases hk : ks key with
  | none => rfl
  | some it =>
    simp only
    split_ifs
    · exact hremove
    · cases deadline with
      | none => exact hremove
      | some d =>
        simp only
        split_ifs
        · have hr : ks.rounded key = some (roundItem it) := by
            simp only [rounded, hk, Option.map_some]
          simp only [expireMutations, appliedAll, List.foldl_cons, List.foldl_nil, Mutation.applied,
            hr, rounded_put]
          rfl
        · exact hremove

lemma getEffect_applied (h : ks.Lively T) (key : Key) {now later : ℤ} (hT : later ≤ T) :
    appliedAll (ks.getEffect key now later).mutations ks.rounded =
    (ks.getEffect key now later).keyspace.rounded := by
  unfold getEffect
  split
  · rfl
  · rfl
  · simp only [h.collect hT key]
    rfl

end Keyspace

def Early (T : ℤ) : (a : Act) → a.Resp → Prop
  | .now, r => r ≤ T
  | .lookup _, r => ∀ e ∈ r, e.expired T = false
  | _, _ => True

lemma ActSpec.early {T : ℤ} {a : Act} {i : Input} {r : a.Resp} {w w' : Image}
    (hs : ActSpec a i r w w') (hl : w.keyspace.Lively T) (hi : i.time ≤ T) : Early T a r := by
  cases a with
  | now => exact (actSpec_now.1 hs).1 ▸ hi
  | lookup key =>
    intro e he
    have hk := (actSpec_lookup.1 hs).1
    rw [show r = some e from he] at hk
    exact hl key e.item hk.symm
  | _ => exact trivial

lemma Op.effect_applied (o : Op) {T : ℤ} {times : ℕ → ℤ} {ks : Keyspace} (h : ks.Lively T)
    (hT : ∀ i, times i ≤ T) :
    appliedAll (o.effect times ks).mutations ks.rounded = (o.effect times ks).keyspace.rounded := by
  cases o with
  | get key => exact Keyspace.getEffect_applied h key (hT 2)
  | set key val => exact ks.putEffect_applied key val none
  | setWithTTL key val d =>
    simp only [Op.effect, Keyspace.setWithTTLEffect]
    split_ifs
    · exact ks.delEffect_applied [key] _
    · exact ks.putEffect_applied key val _
  | setWithDeadline key val deadline =>
    simp only [Op.effect, Keyspace.setWithDeadlineEffect]
    split_ifs
    · exact ks.putEffect_applied key val _
    · exact ks.delEffect_applied [key] _
  | mset pairs => exact (Keyspace.rounded_putAll pairs ks).symm
  | increment key delta => exact Keyspace.incrementEffect_applied h key delta (hT 0)
  | append key suffix => exact Keyspace.appendEffect_applied h key suffix (hT 0)
  | expire key d => exact ks.expireEffect_applied key _ _
  | expireAt key deadline => exact ks.expireEffect_applied key deadline _
  | ttl key => rfl
  | del keys => exact ks.delEffect_applied keys _
  | exists_ keys => rfl
  | dbSize => rfl

lemma evictions_applied (victims : List Key) : ∀ ks : Keyspace,
    appliedAll (evictions victims) ks.rounded = (ks.removeAll victims).rounded := by
  induction victims with
  | nil => exact fun _ => rfl
  | cons key victims ih =>
    intro ks
    have hr : appliedAll (evictions (key :: victims)) ks.rounded = appliedAll (evictions victims)
        (ks.remove key).rounded := by
      rw [Keyspace.rounded_remove]
      rfl
    rw [hr, ih (ks.remove key)]
    rfl

end RedisClone.Store
