import RedisClone.Store.Housekeeping

/-! Expiry as clients see it: one map in which a key vanishes when its deadline is reached. -/

namespace RedisClone.Store

open Lib Lib.Program Lib.Decimal

namespace Keyspace

def alive (ks : Keyspace) (now : ℤ) : Keyspace :=
  fun key => (ks key).filter fun it => !it.expired now

def expireReference (m : Keyspace) (key : Key) (deadline : Time) (now : ℤ) : Answer × Keyspace :=
  match m.alive now key with
  | none => (.flag false, m)
  | some it => (.flag true, if deadline.after now then m.put key it.val deadline else m.remove key)

end Keyspace

/-- The reference store: a single map, looked at through the clock. -/
noncomputable def Op.reference (times : ℕ → ℤ) (m : Keyspace) : Op → Answer × Keyspace
  | .get key => (.value ((m.alive (times 0) key).map Item.val), m)
  | .set key val => (.unit, m.put key val none)
  | .setWithTTL key val d =>
    (.unit, if 0 < d then m.put key val (some (times 0 + d)) else m.remove key)
  | .setWithDeadline key val deadline =>
    (.unit, if deadline.after (times 0) then m.put key val deadline else m.remove key)
  | .mset pairs => (.unit, m.putAll pairs)
  | .increment key delta =>
    let m := m.alive (times 0)
    match Keyspace.itemCounter (m key) with
    | none => (.number none, m)
    | some n =>
      if inInt64 (n + delta.toInt) then
        (.number (some (n + delta.toInt)),
          m.put key (formatInt (n + delta.toInt)) (Keyspace.itemDeadline (m key)))
      else (.number none, m)
  | .append key suffix =>
    let m := m.alive (times 0)
    let val := ((m key).map Item.val).getD [] ++ suffix
    (.count val.length, m.put key val (Keyspace.itemDeadline (m key)))
  | .expire key d => m.expireReference key (some (times 0 + d)) (times 1)
  | .expireAt key deadline => m.expireReference key deadline (times 0)
  | .ttl key =>
    (.ttl (match m.alive (times 0) key with
      | none => .keyMissing
      | some it =>
        match it.expiresAt with
        | none => .keyPersistent
        | some d => .keyVolatile (saturatingSub d (times 0))), m)
  | .del keys =>
    (.count (keys.toFinset.filter fun key => (m.alive (times 0) key).isSome).card, m.removeAll keys)
  | .exists_ keys => (.count (keys.countP fun key => (m.alive (times 0) key).isSome), m)
  | .dbSize => (.count {key | (m.alive (times 0) key).isSome}.ncard, m)

namespace Keyspace

lemma alive_apply (ks : Keyspace) (now : ℤ) (key : Key) :
    ks.alive now key = (ks key).filter fun it => !it.expired now := rfl

lemma alive_alive (ks : Keyspace) {now later : ℤ} (h : now ≤ later) :
    (ks.alive now).alive later = ks.alive later := by
  funext key
  simp only [alive_apply]
  cases ks key with
  | none => rfl
  | some it =>
    cases hx : it.expired now with
    | false => simp [Option.filter, hx]
    | true => simp [Option.filter, hx, expired_mono h hx]

lemma alive_congr {ks m : Keyspace} {now later : ℤ} (h : ks.alive now = m.alive now)
    (hl : now ≤ later) : ks.alive later = m.alive later := by
  rw [← alive_alive ks hl, h, alive_alive m hl]

lemma alive_update (ks : Keyspace) (now : ℤ) (key : Key) (it : Option Item) :
    alive (Function.update ks key it) now =
      Function.update (ks.alive now) key (it.filter fun it => !it.expired now) := by
  funext key'
  simp only [alive_apply, Function.update_apply]
  split_ifs <;> rfl

section Congruence

variable {ks m : Keyspace} {now : ℤ} (h : ks.alive now = m.alive now)

include h

lemma alive_put (key : Key) (val : Bytes) (expiresAt : Time) :
    (ks.put key val expiresAt).alive now = (m.put key val expiresAt).alive now := by
  simp only [put, alive_update, h]

lemma alive_remove (key : Key) : (ks.remove key).alive now = (m.remove key).alive now := by
  simp only [remove, alive_update, h]

end Congruence

lemma alive_putAll (pairs : List (Key × Bytes)) {now : ℤ} :
    ∀ {ks m : Keyspace}, ks.alive now = m.alive now →
    (ks.putAll pairs).alive now = (m.putAll pairs).alive now := by
  induction pairs with
  | nil => exact fun h => h
  | cons p pairs ih => exact fun h => ih (alive_put h p.1 p.2 none)

lemma alive_removeAll (keys : List Key) {now : ℤ} :
    ∀ {ks m : Keyspace}, ks.alive now = m.alive now →
    (ks.removeAll keys).alive now = (m.removeAll keys).alive now := by
  induction keys with
  | nil => exact fun h => h
  | cons key keys ih => exact fun h => ih (alive_remove h key)

lemma collect_apply (ks : Keyspace) (key : Key) (now : ℤ) :
    ks.collect key now key = ks.alive now key := by
  unfold collect
  rw [alive_apply]
  cases hk : ks key with
  | none => simp [hk]
  | some it =>
    cases hx : it.expired now with
    | false => simp [Option.filter, hk, hx]
    | true => simp [Option.filter, hx, remove]

lemma alive_eq_none_of_expired {ks : Keyspace} {key : Key} {now later : ℤ} (hl : now ≤ later)
    (hx : (ks key).any (·.expired now)) : ks.alive later key = none := by
  obtain ⟨it, hi, hx⟩ := Option.any_eq_true _ _ |>.1 hx
  simp [alive_apply, hi, expired_mono hl hx]

lemma Collected.alive_eq {ks ks' : Keyspace} {now later : ℤ} (h : ks.Collected now ks')
    (hl : now ≤ later) : ks'.alive later = ks.alive later := by
  funext key
  rcases h key with hk | ⟨hk, hx⟩
  · simp only [alive_apply, hk]
  · rw [alive_eq_none_of_expired hl hx, alive_apply, hk]
    rfl

lemma collect_collected (ks : Keyspace) (key : Key) (now : ℤ) :
    ks.Collected now (ks.collect key now) := by
  intro key'
  unfold collect
  split_ifs with hx
  · by_cases hk : key' = key
    · subst hk
      exact .inr ⟨by simp [remove], hx⟩
    · exact .inl (by simp [remove, hk])
  · exact .inl rfl

lemma alive_isSome_iff (ks : Keyspace) (now : ℤ) (key : Key) :
    (ks.alive now key).isSome ↔ ks.Live now key := by
  simp only [alive_apply, Live]
  cases ks key with
  | none => simp
  | some it => cases hx : it.expired now <;> simp [hx]

lemma alive_eq_some_iff {ks : Keyspace} {now : ℤ} {key : Key} {it : Item} :
    ks.alive now key = some it ↔ ks key = some it ∧ it.expired now = false := by
  simp [alive_apply, Option.filter_eq_some_iff]

lemma deleted_count (now : ℤ) (keys : List Key) : ∀ ks : Keyspace, (deleted now keys ks).1 =
    (keys.toFinset.filter fun key => (ks.alive now key).isSome).card := by
  induction keys with
  | nil => exact fun ks => rfl
  | cons key keys ih =>
    intro ks
    have hrest : (keys.toFinset.filter fun k => ((ks.remove key).alive now k).isSome) =
        (keys.toFinset.filter fun k => (ks.alive now k).isSome).erase key := by
      ext k
      by_cases hk : k = key
      · subst hk
        simp [remove, alive_update]
      · simp [remove, alive_update, hk]
    unfold deleted
    cases hk : ks key with
    | none =>
      have hn : ¬ (ks.alive now key).isSome := by simp [alive_apply, hk]
      rw [List.toFinset_cons, Finset.filter_insert, if_neg hn]
      exact ih ks
    | some it =>
      simp only [ih (ks.remove key), hrest, List.toFinset_cons, Finset.filter_insert]
      cases hx : it.expired now with
      | true =>
        have hn : (ks.alive now key).isSome = false := by simp [alive_apply, hk, hx]
        rw [Finset.erase_eq_of_notMem (by simp [hn])]
        simp [hn]
      | false =>
        have hn : (ks.alive now key).isSome = true := by simp [alive_apply, hk, hx]
        simp only [hn, if_true, Bool.false_eq_true, if_false]
        rw [← Finset.card_erase_add_one (Finset.mem_insert_self key _),
          Finset.erase_insert_eq_erase]

lemma existing_eq (ks : Keyspace) (now : ℤ) (keys : List Key) :
    ks.existing now keys = keys.countP fun key => (ks.alive now key).isSome := by
  refine List.countP_congr fun key _ => ?_
  rw [alive_isSome_iff, Option.any_eq_true]
  simp only [Live, Bool.not_eq_true']

end Keyspace

lemma sumOverflows_iff {n : ℤ} (hn : inInt64 n = true) (delta : Int64) :
    sumOverflows n delta.toInt = true ↔ ¬ inInt64 (n + delta.toInt) = true := by
  have h₁ := Int64.le_toInt delta
  have h₂ := Int64.toInt_lt delta
  rw [inInt64_iff, minInt64, maxInt64] at hn ⊢
  simp only [sumOverflows, Bool.or_eq_true, Bool.and_eq_true, decide_eq_true_iff]
  simp only [wrap64, minInt64, maxInt64]
  omega

lemma Keyspace.itemCounter_inInt64 {it : Option Item} {n : ℤ} (h : itemCounter it = some n) :
    inInt64 n = true := by
  cases it with
  | none =>
    obtain rfl : (0 : ℤ) = n := Option.some.inj h
    rfl
  | some it => exact parseInt64_inInt64 h

def Agrees (times : ℕ → ℤ) (e : Effect Answer) (r : Answer × Keyspace) : Prop :=
  e.answer = r.1 ∧ ∀ later, (∀ i, times i ≤ later) → e.keyspace.alive later = r.2.alive later

section Agreement

variable {times : ℕ → ℤ} {ks m : Keyspace} (h : ks.alive (times 0) = m.alive (times 0))

include h

lemma get_agrees (key : Key) :
    Agrees times ((Op.get key).effect times ks) ((Op.get key).reference times m) := by
  have hm : m.alive (times 0) key = ks.alive (times 0) key := by rw [h]
  simp only [Op.effect, Op.reference, Effect.map, Keyspace.getEffect, Keyspace.readAnswer, hm]
  cases hk : ks key with
  | none =>
    exact ⟨by simp [Keyspace.alive_apply, hk], fun later hl => Keyspace.alive_congr h (hl 0)⟩
  | some it =>
    cases hx : it.expired (times 0) with
    | false =>
      refine ⟨?_, fun later hl => ?_⟩
      · simp [Keyspace.alive_apply, hk, hx, Option.filter]
      · simpa [hx] using Keyspace.alive_congr h (hl 0)
    | true =>
      refine ⟨?_, fun later hl => ?_⟩
      · simp [Keyspace.alive_apply, hk, hx, Option.filter]
      · simp only [hx, if_true]
        rw [(ks.collect_collected key (times 2)).alive_eq (hl 2)]
        exact Keyspace.alive_congr h (hl 0)

lemma increment_agrees (key : Key) (delta : Int64) :
    Agrees times ((Op.increment key delta).effect times ks)
      ((Op.increment key delta).reference times m) := by
  have hm : m.alive (times 0) key = ks.collect key (times 0) key := by
    rw [Keyspace.collect_apply, h]
  have hlater : ∀ later, (∀ i, times i ≤ later) →
      (ks.collect key (times 0)).alive later = (m.alive (times 0)).alive later := by
    intro later hl
    rw [(ks.collect_collected key (times 0)).alive_eq (hl 0), Keyspace.alive_alive m (hl 0)]
    exact Keyspace.alive_congr h (hl 0)
  simp only [Op.effect, Op.reference, Effect.map, Keyspace.incrementEffect, hm]
  cases hc : Keyspace.itemCounter (ks.collect key (times 0) key) with
  | none => exact ⟨rfl, hlater⟩
  | some n =>
    have hn := Keyspace.itemCounter_inInt64 hc
    simp only
    by_cases ho : inInt64 (n + delta.toInt) = true
    · rw [if_neg (fun hs => (sumOverflows_iff hn delta).1 hs ho), if_pos ho]
      refine ⟨by simp only [wrap64_of_inInt64 ho], fun later hl => ?_⟩
      simp only [wrap64_of_inInt64 ho]
      exact Keyspace.alive_put (hlater later hl) _ _ _
    · rw [if_pos ((sumOverflows_iff hn delta).2 ho), if_neg ho]
      exact ⟨rfl, hlater⟩

lemma append_agrees (key : Key) (suffix : Bytes) :
    Agrees times ((Op.append key suffix).effect times ks)
      ((Op.append key suffix).reference times m) := by
  have hm : m.alive (times 0) key = ks.collect key (times 0) key := by
    rw [Keyspace.collect_apply, h]
  simp only [Op.effect, Op.reference, Effect.map, Keyspace.appendEffect, hm]
  refine ⟨rfl, fun later hl => Keyspace.alive_put ?_ _ _ _⟩
  rw [(ks.collect_collected key (times 0)).alive_eq (hl 0), Keyspace.alive_alive m (hl 0)]
  exact Keyspace.alive_congr h (hl 0)

lemma ttl_agrees (key : Key) :
    Agrees times ((Op.ttl key).effect times ks) ((Op.ttl key).reference times m) := by
  have hm : m.alive (times 0) key = ks.alive (times 0) key := by rw [h]
  refine ⟨?_, fun later hl => Keyspace.alive_congr h (hl 0)⟩
  simp only [Op.effect, Op.reference, Keyspace.ttlAnswer, hm]
  cases hk : ks key with
  | none => simp [Keyspace.alive_apply, hk]
  | some it =>
    obtain ⟨val, expiresAt⟩ := it
    cases expiresAt with
    | none => simp [Keyspace.alive_apply, hk, Option.filter, Item.expired, expiredAt]
    | some d =>
      by_cases hd :
        d ≤ times 0 <;> simp [Keyspace.alive_apply, hk, Option.filter, Item.expired, expiredAt, hd]

end Agreement

lemma expire_agrees {times : ℕ → ℤ} {ks m : Keyspace} {now : ℤ} (h : ks.alive now = m.alive now)
    (hn : ∃ i, now = times i) (key : Key) (deadline : Time) :
    Agrees times ((ks.expireEffect key deadline now).map .flag)
      (m.expireReference key deadline now) := by
  obtain ⟨i, rfl⟩ := hn
  have hm : m.alive (times i) key = ks.alive (times i) key := by rw [h]
  have hlater : ∀ later, (∀ i, times i ≤ later) → ks.alive later = m.alive later :=
    fun later hl => Keyspace.alive_congr h (hl i)
  simp only [Effect.map, Keyspace.expireEffect, Keyspace.expireReference, Keyspace.expireKey, hm]
  cases hk : ks key with
  | none =>
    have hn : ks.alive (times i) key = none := by simp [Keyspace.alive_apply, hk]
    rw [hn]
    exact ⟨rfl, hlater⟩
  | some it =>
    cases hx : it.expired (times i) with
    | true =>
      have hn : ks.alive (times i) key = none := by
        simp [Keyspace.alive_apply, hk, hx, Option.filter]
      rw [hn]
      simp only [hx, if_true]
      refine ⟨rfl, fun later hl => ?_⟩
      have hc := (ks.collect_collected key (times i)).alive_eq (hl i)
      simp only [Keyspace.collect, hk, Option.any_some, hx, if_true] at hc
      exact hc.trans (hlater later hl)
    | false =>
      have hn : ks.alive (times i) key = some it := by
        simp [Keyspace.alive_apply, hk, hx, Option.filter]
      rw [hn]
      simp only [hx, Bool.false_eq_true, if_false]
      cases deadline with
      | none => exact ⟨rfl, fun later hl => Keyspace.alive_remove (hlater later hl) key⟩
      | some d =>
        by_cases hd : times i < d
        · simp only [hd, if_true, Time.after, decide_true]
          exact ⟨rfl, fun later hl => Keyspace.alive_put (hlater later hl) _ _ _⟩
        · simp only [hd, if_false, Time.after, decide_false, Bool.false_eq_true]
          exact ⟨rfl, fun later hl => Keyspace.alive_remove (hlater later hl) key⟩

lemma Op.effect_agrees (o : Op) {times : ℕ → ℤ} {ks m : Keyspace} (ht : Monotone times)
    (h : ks.alive (times 0) = m.alive (times 0)) :
    Agrees times (o.effect times ks) (o.reference times m) := by
  have hlater : ∀ later, (∀ i, times i ≤ later) → ks.alive later = m.alive later :=
    fun later hl => Keyspace.alive_congr h (hl 0)
  cases o with
  | get key => exact get_agrees h key
  | set key val => exact ⟨rfl, fun later hl => Keyspace.alive_put (hlater later hl) _ _ _⟩
  | setWithTTL key val d =>
    simp only [Op.effect, Op.reference, Keyspace.setWithTTLEffect]
    by_cases hd : 0 < d
    · rw [if_neg (not_le.2 hd), if_pos hd]
      exact ⟨rfl, fun later hl => Keyspace.alive_put (hlater later hl) _ _ _⟩
    · rw [if_pos (not_lt.1 hd), if_neg hd]
      exact ⟨rfl, fun later hl => Keyspace.alive_remove (hlater later hl) key⟩
  | setWithDeadline key val deadline =>
    simp only [Op.effect, Op.reference, Keyspace.setWithDeadlineEffect]
    split_ifs
    · exact ⟨rfl, fun later hl => Keyspace.alive_put (hlater later hl) _ _ _⟩
    · exact ⟨rfl, fun later hl => Keyspace.alive_remove (hlater later hl) key⟩
  | mset pairs => exact ⟨rfl, fun later hl => Keyspace.alive_putAll pairs (hlater later hl)⟩
  | increment key delta => exact increment_agrees h key delta
  | append key suffix => exact append_agrees h key suffix
  | expire key d => exact expire_agrees (Keyspace.alive_congr h (ht (Nat.zero_le 1))) ⟨1, rfl⟩ key _
  | expireAt key deadline => exact expire_agrees h ⟨0, rfl⟩ key deadline
  | ttl key => exact ttl_agrees h key
  | del keys =>
    refine ⟨?_, fun later hl => Keyspace.alive_removeAll keys (hlater later hl)⟩
    simp only [Op.effect, Op.reference, Effect.map, Keyspace.delEffect, Keyspace.deleted_count, h]
  | exists_ keys =>
    refine ⟨?_, hlater⟩
    simp only [Op.effect, Op.reference, Keyspace.existing_eq, h]
  | dbSize =>
    refine ⟨?_, hlater⟩
    simp only [Op.effect, Op.reference, ← Keyspace.alive_isSome_iff, h]

structure Step where
  op : Option Op
  inputs : ℕ → Input

def Step.time (st : Step) (i : ℕ) : ℤ := (st.inputs i).time

def NonDecreasing (steps : List Step) : Prop :=
  (∀ st ∈ steps, Monotone st.time) ∧ steps.Pairwise fun st st' => ∀ i j, st.time i ≤ st'.time j

def runSteps : List Step → Store → List Answer
  | [], _ => []
  | ⟨some o, inputs⟩ :: steps, s =>
    let r := exec o.program inputs s
    r.1 :: runSteps steps r.2.2
  | ⟨none, inputs⟩ :: steps, s => runSteps steps (exec activeExpireCycle inputs s).2.2

noncomputable def referenceAnswers : List Step → Keyspace → List Answer
  | [], _ => []
  | ⟨some o, inputs⟩ :: steps, m =>
    let r := o.reference (fun i => (inputs i).time) m
    r.1 :: referenceAnswers steps r.2
  | ⟨none, _⟩ :: steps, m => referenceAnswers steps m

lemma runSteps_eq (steps : List Step) :
    ∀ {s : Store} {m : Keyspace}, WellFormed s → NonDecreasing steps →
    (∀ st ∈ steps, ∀ i, s.view.alive (st.time i) = m.alive (st.time i)) →
    runSteps steps s = referenceAnswers steps m := by
  induction steps with
  | nil => exact fun _ _ _ => rfl
  | cons st steps ih =>
    intro s m hs ⟨hmono, hpair⟩ hv
    obtain ⟨hfirst, hpair⟩ := List.pairwise_cons.1 hpair
    have hrest : NonDecreasing steps := ⟨fun st' h => hmono st' (List.mem_cons_of_mem _ h), hpair⟩
    have hhead := hv st List.mem_cons_self
    obtain ⟨op, inputs⟩ := st
    cases op with
    | none =>
      refine ih (exec_wellFormed _ _ _ hs) hrest fun st' h' i => ?_
      have hr := exec_image activeExpireCycle inputs s hs
      obtain ⟨hc, -⟩ := runs_expireRounds (fun j => hfirst st' h' j i) hr
      exact (hc.alive_eq le_rfl).trans (hv st' (List.mem_cons_of_mem _ h') i)
    | some o =>
      have he := o.program_effect (exec_image o.program inputs s hs)
      obtain ⟨ha, hk⟩ := o.effect_agrees (hmono _ List.mem_cons_self) (hhead 0)
      simp only [runSteps, referenceAnswers]
      rw [he.answer]
      refine congrArg₂ _ ha (ih (exec_wellFormed _ _ _ hs) hrest fun st' h' i => ?_)
      have hw : (exec o.program inputs s).2.2.view =
          (o.effect (fun i => (inputs i).time) s.view).keyspace :=
        congrArg Image.keyspace he.image
      rw [hw]
      exact hk _ fun j => hfirst st' h' j i

theorem expiry_invisible (journalled : Bool) (maxMemory : ℤ) (policy : EvictionPolicy)
    (steps : List Step) (hclock : NonDecreasing steps) :
    runSteps steps (configured journalled maxMemory policy) = referenceAnswers steps
    fun _ => none := by
  refine runSteps_eq steps (configured_wellFormed journalled maxMemory policy) hclock
    fun st _ i => ?_
  funext key
  cases journalled <;> rfl

def clockAt (t : ℤ) : ℕ → Input := fun _ => ⟨t, .stored⟩

def shortLived : List Step :=
  [⟨some (.setWithTTL (ascii "k") (ascii "v") 5), clockAt 10⟩,
    ⟨some (.get (ascii "k")), clockAt 14⟩, ⟨none, clockAt 15⟩,
      ⟨some (.get (ascii "k")), clockAt 15⟩]

theorem expiry_invisible_shortLived :
    runSteps shortLived (configured false 0 .noEviction) =
    [.unit, .value (some (ascii "v")), .value none] ∧
      runSteps shortLived (configured false 0 .noEviction) = referenceAnswers shortLived
      fun _ => none := by
  refine ⟨by decide +kernel, expiry_invisible false 0 .noEviction shortLived ⟨?_, ?_⟩⟩
  · intro st hst
    simp only [shortLived, List.mem_cons, List.not_mem_nil, or_false] at hst
    rcases hst with rfl | rfl | rfl | rfl <;> exact fun _ _ _ => le_rfl
  · simp [shortLived, Step.time, clockAt]

end RedisClone.Store
