import RedisClone.Store.Reads

namespace RedisClone.Store

open Lib Lib.Program

namespace Keyspace

def roundItem (it : Item) : Item := { it with expiresAt := it.expiresAt.map floorMilli }

def rounded (ks : Keyspace) : Keyspace := fun key => (ks key).map roundItem

def shown (ks : Keyspace) (T : ℤ) : Keyspace := ks.rounded.alive T

/-- The key has a deadline that the millisecond clock puts at or before `T`, and is given one
that it puts after `T`. -/
def extends_ (ks : Keyspace) (T : ℤ) (key : Key) (d' now : ℤ) : Bool :=
  ((ks key).bind Item.expiresAt).any fun d =>
    decide (now < d ∧ floorMilli d ≤ T ∧ T < floorMilli d')

end Keyspace

def Mutation.replayed (T : ℤ) (ks : Keyspace) : Mutation → Keyspace
  | .put key val none => ks.put key val none
  | .put key val (some d) =>
    if T < floorMilli d then ks.put key val (some (floorMilli d)) else ks.remove key
  | .putAll pairs => ks.putAll pairs
  | .remove keys => ks.removeAll keys
  | .touch key d => (ks.expireKey key (some (floorMilli d)) T).2

def replayedAll (T : ℤ) (ms : List Mutation) (ks : Keyspace) : Keyspace :=
  ms.foldl (fun ks m => m.replayed T ks) ks

/-- From one image to the next, what is journalled rebuilds at `T` what is shown at `T`. -/
def Durably (T : ℤ) (w w' : Image) : Prop :=
  ∃ ms : List Mutation, w'.journal = w.journal.map (· ++ ms.map Mutation.record) ∧
    replayedAll T ms (w.keyspace.shown T) = w'.keyspace.shown T

lemma Durably.of_shown {T : ℤ} {w w' : Image} (hj : w'.journal = w.journal)
    (hk : w'.keyspace.shown T = w.keyspace.shown T) : Durably T w w' :=
  ⟨[], by simp [hj], hk.symm⟩

lemma Durably.refl (T : ℤ) (w : Image) : Durably T w w := .of_shown rfl rfl

lemma Durably.trans {T : ℤ} {w₁ w₂ w₃ : Image} (h : Durably T w₁ w₂) (h' : Durably T w₂ w₃) :
    Durably T w₁ w₃ := by
  obtain ⟨ms, hj, hk⟩ := h
  obtain ⟨ms', hj', hk'⟩ := h'
  refine ⟨ms ++ ms', ?_, ?_⟩
  · simp [hj', hj, Function.comp_def]
  · rw [replayedAll, List.foldl_append]
    exact (congrArg (replayedAll T ms') hk).trans hk'

namespace Keyspace

variable {T : ℤ}

lemma shown_update (ks : Keyspace) (key : Key) (it : Option Item) :
    shown (Function.update ks key it) T =
      Function.update (ks.shown T) key ((it.map roundItem).filter fun it => !it.expired T) := by
  have hr : rounded (Function.update ks key it) = Function.update ks.rounded key
      (it.map roundItem) := by
    funext key'
    simp only [rounded, Function.update_apply]
    split_ifs <;> rfl
  rw [shown, hr, alive_update]
  rfl

lemma shown_apply (ks : Keyspace) (key : Key) :
    ks.shown T key = ((ks key).map roundItem).filter fun it => !it.expired T := rfl

lemma shown_remove (ks : Keyspace) (key : Key) :
    (ks.remove key).shown T = (ks.shown T).remove key := by
  rw [remove, shown_update]
  rfl

lemma shown_removeAll (keys : List Key) :
    ∀ ks : Keyspace, (ks.removeAll keys).shown T = (ks.shown T).removeAll keys := by
  induction keys with
  | nil => exact fun _ => rfl
  | cons key keys ih => exact fun ks => (ih (ks.remove key)).trans (by rw [shown_remove]; rfl)

lemma shown_put (ks : Keyspace) (key : Key) (val : Bytes) (expiresAt : Time) :
    (ks.put key val expiresAt).shown T = (Mutation.put key val expiresAt).replayed T
      (ks.shown T) := by
  rw [put, shown_update]
  cases expiresAt with
  | none => rfl
  | some d =>
    simp only [Mutation.replayed]
    by_cases hd : T < floorMilli d
    · simp [hd, put, roundItem, Option.filter, Item.expired, expiredAt]
    · simp [hd, remove, roundItem, Option.filter, Item.expired, expiredAt, not_lt.1 hd]

lemma shown_putAll (pairs : List (Key × Bytes)) :
    ∀ ks : Keyspace, (ks.putAll pairs).shown T = (ks.shown T).putAll pairs := by
  induction pairs with
  | nil => exact fun _ => rfl
  | cons p pairs ih => exact fun ks => (ih (ks.put p.1 p.2 none)).trans (by rw [shown_put]; rfl)

lemma shown_eq_none_of_expired {ks : Keyspace} {key : Key} {now : ℤ} (hT : now ≤ T)
    (hx : (ks key).any (·.expired now)) : ks.shown T key = none := by
  obtain ⟨it, hi, hx⟩ := Option.any_eq_true _ _ |>.1 hx
  obtain ⟨val, expiresAt⟩ := it
  cases expiresAt with
  | none => exact absurd hx Bool.false_ne_true
  | some d =>
    have hd : d ≤ now := of_decide_eq_true hx
    have hf : floorMilli d ≤ T := (floorMilli_le d).trans (hd.trans hT)
    simp [shown_apply, hi, roundItem, Option.filter, Item.expired, expiredAt, hf]

lemma Collected.shown_eq {ks ks' : Keyspace} {now : ℤ} (h : ks.Collected now ks') (hT : now ≤ T) :
    ks'.shown T = ks.shown T := by
  funext key
  rcases h key with hk | ⟨hk, hx⟩
  · simp only [shown_apply, hk]
  · rw [shown_eq_none_of_expired hT hx, shown_apply, hk]
    rfl

lemma removeAll_deleted (now : ℤ) (keys : List Key) :
    ∀ ks : Keyspace, ks.removeAll (deleted now keys ks).2 = ks.removeAll keys := by
  induction keys with
  | nil => exact fun _ => rfl
  | cons key keys ih =>
    intro ks
    unfold deleted
    cases hk : ks key with
    | none =>
      have hr : ks.removeAll (key :: keys) = (ks.remove key).removeAll keys := rfl
      rw [hr, remove_eq_self hk]
      exact ih ks
    | some it => exact ih (ks.remove key)

end Keyspace

section Effects

variable {T : ℤ} {α : Type} {w w' : Image} {b : α}

lemma Effect.Holds.durably {e : Effect α} (h : e.Holds w b w')
    (he : replayedAll T e.mutations (w.keyspace.shown T) = e.keyspace.shown T) :
    Durably T w w' := by
  refine ⟨e.mutations, ?_, ?_⟩
  · rw [h.image]
    rfl
  · rw [he, h.image]
    rfl

lemma putEffect_durable (ks : Keyspace) (key : Key) (val : Bytes) (expiresAt : Time) :
    replayedAll T (ks.putEffect key val expiresAt).mutations (ks.shown T) =
      (ks.putEffect key val expiresAt).keyspace.shown T :=
  (ks.shown_put key val expiresAt).symm

lemma delEffect_durable (ks : Keyspace) (keys : List Key) (now : ℤ) :
    replayedAll T (ks.delEffect keys now).mutations (ks.shown T) =
    (ks.delEffect keys now).keyspace.shown T := by
  have hr := ks.removeAll_deleted now keys
  simp only [Keyspace.delEffect]
  split_ifs with hf
  · rw [← hr, hf]
    rfl
  · rw [← hr, Keyspace.shown_removeAll]
    rfl

lemma incrementEffect_durable (ks : Keyspace) (key : Key) (delta : Int64) {now : ℤ} (hT : now ≤ T) :
    replayedAll T (ks.incrementEffect key delta now).mutations (ks.shown T) =
      (ks.incrementEffect key delta now).keyspace.shown T := by
  have hc := (ks.collect_collected key now).shown_eq hT
  simp only [Keyspace.incrementEffect]
  split
  · exact hc.symm
  · split_ifs
    · exact hc.symm
    · rw [← hc]
      exact (Keyspace.shown_put _ _ _ _).symm

lemma appendEffect_durable (ks : Keyspace) (key : Key) (suffix : Bytes) {now : ℤ} (hT : now ≤ T) :
    replayedAll T (ks.appendEffect key suffix now).mutations (ks.shown T) =
      (ks.appendEffect key suffix now).keyspace.shown T := by
  simp only [Keyspace.appendEffect]
  rw [← (ks.collect_collected key now).shown_eq hT]
  exact (Keyspace.shown_put _ _ _ _).symm

lemma getEffect_shown (ks : Keyspace) (key : Key) (now : ℤ) {later : ℤ} (hT : later ≤ T) :
    (ks.getEffect key now later).mutations = [] ∧
    (ks.getEffect key now later).keyspace.shown T = ks.shown T := by
  unfold Keyspace.getEffect
  split
  · exact ⟨rfl, rfl⟩
  · exact ⟨rfl, rfl⟩
  · exact ⟨rfl, (ks.collect_collected key later).shown_eq hT⟩

lemma shown_touch {ks : Keyspace} {key : Key} {it : Item} {d' now : ℤ} (hk : ks key = some it)
    (hlive : it.expired now = false) (hx : ks.extends_ T key d' now = false) :
    (Mutation.touch key d').replayed T (ks.shown T) = (ks.put key it.val (some d')).shown T := by
  have hs :
      ks.shown T key = Option.filter (fun it => !it.expired T) (some (Keyspace.roundItem it)) := by
    rw [ks.shown_apply, hk]
    rfl
  rw [Keyspace.shown_put]
  simp only [Mutation.replayed, Keyspace.expireKey]
  cases hl : (Keyspace.roundItem it).expired T with
  | false =>
    have hf : ks.shown T key = some (Keyspace.roundItem it) := by simpa [Option.filter, hl] using hs
    simp only [hf, hl, Bool.false_eq_true, if_false]
    split_ifs <;> rfl
  | true =>
    have hf : ks.shown T key = none := by simpa [Option.filter, hl] using hs
    obtain ⟨val, expiresAt⟩ := it
    cases expiresAt with
    | none => exact absurd hl Bool.false_ne_true
    | some d =>
      have hdT : floorMilli d ≤ T := of_decide_eq_true hl
      have hnd : now < d := not_le.1 (of_decide_eq_false hlive)
      have hd' : ¬ T < floorMilli d' := by simpa [Keyspace.extends_, hk, hnd, hdT] using hx
      simp only [hf, hd', if_false]
      exact (Keyspace.remove_eq_self hf).symm

lemma expireEffect_durable (ks : Keyspace) (key : Key) (deadline : Time) {now : ℤ}
    (hx : ∀ d', deadline = some d' → ks.extends_ T key d' now = false) :
    replayedAll T (ks.expireEffect key deadline now).mutations (ks.shown T) =
      (ks.expireEffect key deadline now).keyspace.shown T := by
  have hremove : (ks.remove key).shown T = (ks.shown T).remove key := ks.shown_remove key
  simp only [Keyspace.expireEffect, Keyspace.expireKey]
  cases hk : ks key with
  | none => rfl
  | some it =>
    simp only
    cases hlive : it.expired now with
    | true => exact hremove.symm
    | false =>
      simp only [Bool.false_eq_true, if_false]
      cases deadline with
      | none => exact hremove.symm
      | some d' =>
        simp only
        split_ifs
        · exact shown_touch hk hlive (hx d' rfl)
        · exact hremove.symm

end Effects

def Op.extends_ (T : ℤ) (times : ℕ → ℤ) (ks : Keyspace) : Op → Bool
  | .expire key d => ks.extends_ T key (times 0 + d) (times 1)
  | .expireAt key (some d) => ks.extends_ T key d (times 0)
  | _ => false

lemma Op.effect_durable (o : Op) {T : ℤ} {times : ℕ → ℤ} {ks : Keyspace} (hT : ∀ i, times i ≤ T)
    (hx : o.extends_ T times ks = false) :
    replayedAll T (o.effect times ks).mutations (ks.shown T) =
    (o.effect times ks).keyspace.shown T := by
  cases o with
  | get key =>
    obtain ⟨hm, hk⟩ := getEffect_shown ks key (times 0) (hT 2)
    have hm : ((Op.get key).effect times ks).mutations = [] := hm
    rw [hm]
    exact hk.symm
  | set key val => exact putEffect_durable ks key val none
  | setWithTTL key val d =>
    simp only [Op.effect, Keyspace.setWithTTLEffect]
    split_ifs
    · exact delEffect_durable ks [key] (times 0)
    · exact putEffect_durable ks key val _
  | setWithDeadline key val deadline =>
    simp only [Op.effect, Keyspace.setWithDeadlineEffect]
    split_ifs
    · exact putEffect_durable ks key val deadline
    · exact delEffect_durable ks [key] (times 1)
  | mset pairs => exact (ks.shown_putAll pairs).symm
  | increment key delta => exact incrementEffect_durable ks key delta (hT 0)
  | append key suffix => exact appendEffect_durable ks key suffix (hT 0)
  | expire key d =>
    refine expireEffect_durable ks key _ fun d' hd' => ?_
    obtain rfl := Option.some.inj hd'
    exact hx
  | expireAt key deadline =>
    refine expireEffect_durable ks key _ fun d' hd' => ?_
    subst hd'
    exact hx
  | del keys => exact delEffect_durable ks keys (times 0)
  | ttl key => rfl
  | exists_ keys => rfl
  | dbSize => rfl

lemma Evicts.durably {T : ℤ} {w w' : Image} {victims : List Key} (h : Evicts w w' victims) :
    Durably T w w' := by
  refine ⟨evictions victims, by rw [h.image]; rfl, ?_⟩
  have hk : w'.keyspace = w.keyspace.removeAll victims := by rw [h.image]; rfl
  rw [hk, Keyspace.shown_removeAll, replayedAll, evictions, List.foldl_map]
  rfl

lemma Quietly.durably {T : ℤ} {w w' : Image} (h : Quietly T w w') : Durably T w w' :=
  .of_shown h.1 (h.2.shown_eq le_rfl)

end RedisClone.Store
