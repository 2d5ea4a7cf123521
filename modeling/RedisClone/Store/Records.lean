import RedisClone.Store.Concurrency
import RedisClone.Store.Effects

namespace RedisClone.Store

open Lib Lib.Program Lib.Decimal

structure Limits where
  bulk : Bytes → Prop
  count : ℕ → Prop
  deadline : ℤ → Prop
  count_le : ∀ {m n : ℕ}, m ≤ n → count n → count m

namespace Keyspace

variable {ks : Keyspace} {key : Key} {it : Item}

lemma of_put {k : Key} {val : Bytes} {expiresAt : Time} (h : ks.put k val expiresAt key = some it) :
    (key = k ∧ it = ⟨val, expiresAt⟩) ∨ ks key = some it := by
  simp only [put, Function.update_apply] at h
  split_ifs at h with hk
  · exact .inl ⟨hk, (Option.some.inj h).symm⟩
  · exact .inr h

lemma of_remove {k : Key} (h : ks.remove k key = some it) : ks key = some it := by
  simp only [remove, Function.update_apply] at h
  split_ifs at h
  exact h

lemma of_removeAll {keys : List Key} (h : ks.removeAll keys key = some it) : ks key = some it := by
  induction keys generalizing ks with
  | nil => exact h
  | cons k keys ih => exact of_remove (ih h)

lemma of_collected {ks' : Keyspace} {now : ℤ} (hc : ks.Collected now ks') (h : ks' key = some it) :
    ks key = some it := by
  rcases hc key with hk | ⟨hk, -⟩
  · rwa [hk] at h
  · rw [hk] at h
    cases h

lemma of_collect {k : Key} {now : ℤ} (h : ks.collect k now key = some it) : ks key = some it := by
  unfold collect at h
  split_ifs at h
  · exact of_remove h
  · exact h

lemma of_putAll {pairs : List (Key × Bytes)} (h : ks.putAll pairs key = some it) :
    (∃ val, (key, val) ∈ pairs ∧ it = ⟨val, none⟩) ∨ ks key = some it := by
  induction pairs generalizing ks with
  | nil => exact .inr h
  | cons p pairs ih =>
    rcases ih h with ⟨val, hm, hi⟩ | h
    · exact .inl ⟨val, List.mem_cons_of_mem _ hm, hi⟩
    · rcases of_put h with ⟨rfl, rfl⟩ | h
      · exact .inl ⟨p.2, List.mem_cons_self, rfl⟩
      · exact .inr h

lemma isSome_putAll (pairs : List (Key × Bytes)) (h : (ks key).isSome = true) :
    (ks.putAll pairs key).isSome = true := by
  induction pairs generalizing ks with
  | nil => exact h
  | cons p pairs ih =>
    refine ih ?_
    simp only [put, Function.update_apply]
    split_ifs
    · rfl
    · exact h

lemma of_expireKey {k : Key} {deadline : Time} {now : ℤ}
    (h : (ks.expireKey k deadline now).2 key = some it) :
    ks key = some it ∨ ∃ old d, k = key ∧ ks key = some old ∧ old.expired now = false ∧
      (ks.expireKey k deadline now).1 = .kept d ∧ it = ⟨old.val, some d⟩ := by
  unfold expireKey at h ⊢
  cases hk : ks k with
  | none =>
    rw [hk] at h
    exact .inl h
  | some old =>
    rw [hk] at h
    simp only at h ⊢
    split_ifs at h ⊢ with hx
    · exact .inl (of_remove h)
    · cases deadline with
      | none => exact .inl (of_remove h)
      | some d =>
        simp only at h ⊢
        split_ifs at h ⊢
        · rcases of_put h with ⟨rfl, rfl⟩ | h
          · exact .inr ⟨old, d, rfl, hk, Bool.not_eq_true _ ▸ hx, rfl, rfl⟩
          · exact .inl h
        · exact .inl (of_remove h)

lemma deadline_of_kept {deadline : Time} {now d : ℤ}
    (h : (ks.expireKey key deadline now).1 = .kept d) : deadline = some d := by
  unfold expireKey at h
  cases hk : ks key with
  | none =>
    rw [hk] at h
    cases h
  | some it =>
    rw [hk] at h
    simp only at h
    split_ifs at h
    cases deadline with
    | none => cases h
    | some d' =>
      simp only at h
      split_ifs at h
      obtain rfl := ExpireAnswer.kept.inj h
      rfl

lemma deleted_sublist (now : ℤ) (keys : List Key) : ∀ ks, (deleted now keys ks).2.Sublist keys := by
  induction keys with
  | nil => exact fun _ => .slnil
  | cons key keys ih =>
    intro ks
    simp only [deleted]
    cases ks key with
    | none => exact (ih _).cons _
    | some it => exact (ih _).cons_cons _

end Keyspace

namespace Limits

variable (L : Limits)

def time : Time → Prop
  | none => True
  | some d => L.deadline d

def Stored (key : Key) (it : Item) : Prop := L.bulk key ∧ L.bulk it.val ∧ L.time it.expiresAt

def Sound : Mutation → Prop
  | .put key val expiresAt => L.Stored key ⟨val, expiresAt⟩
  | .putAll pairs => pairs ≠ [] ∧ L.count (2 * pairs.length) ∧ ∀ p ∈ pairs, L.bulk p.1 ∧ L.bulk p.2
  | .remove keys => keys ≠ [] ∧ L.count keys.length ∧ ∀ key ∈ keys, L.bulk key
  | .touch key d => L.bulk key ∧ L.deadline d

def Logged (record : Record) : Prop := ∃ m : Mutation, L.Sound m ∧ m.record = record

structure Kept (w : Image) : Prop where
  entries : ∀ key it, w.keyspace key = some it → L.Stored key it
  journal : ∀ records ∈ w.journal, ∀ record ∈ records, L.Logged record

def Asks : Act → Prop
  | .set key _ _ => L.bulk key
  | .mset pairs => ∀ p ∈ pairs, L.bulk p.1 ∧ L.bulk p.2
  | .propagate record => L.Logged record
  | _ => True

/-- What they do not see to: the size of a value that is put together in the store, and the
deadline that comes of a clock reading. -/
def Admits (ks : Keyspace) : Act → Prop
  | .set _ val expiresAt => L.bulk val ∧ L.time expiresAt
  | .expireAt key deadline now => ∀ d, (ks.expireKey key deadline now).1 = .kept d → L.deadline d
  | _ => True

def Answers : (a : Act) → a.Resp → Prop
  | .set _ val expiresAt, _ => L.bulk val ∧ L.time expiresAt
  | .expireAt _ _ _, r => ∀ d, r = .kept d → L.deadline d
  | .del keys _, r => r.2.Sublist keys
  | .shardSnapshot _ _, r => ∀ record ∈ r, L.Logged record
  | .sampleShard _ _, .victim key => L.bulk key
  | .sampleShard _ sample, .more sample' =>
    ∀ best ∈ sample'.best, best ∈ sample.best ∨ L.bulk best.1
  | _, _ => True

variable {L}

lemma Kept.of_entries {w : Image} (hw : L.Kept w) {ks : Keyspace}
    (hks : ∀ key it, ks key = some it → L.Stored key it) :
    L.Kept { w with keyspace := ks } := ⟨hks, hw.journal⟩

lemma kept_propagate {w : Image} (hw : L.Kept w) {record : Record} (hr : L.Logged record) :
    L.Kept (w.propagate record) := by
  refine ⟨hw.entries, fun records hm record' hr' => ?_⟩
  obtain ⟨old, ho, rfl⟩ := Option.mem_map.1 hm
  rcases List.mem_append.1 hr' with hr' | hr'
  · exact hw.journal old ho record' hr'
  · exact List.mem_singleton.1 hr' ▸ hr

lemma kept_set {w : Image} (hw : L.Kept w) {key : Key} {val : Bytes} {expiresAt : Time}
    (hs : L.Stored key ⟨val, expiresAt⟩) :
    L.Kept { w with keyspace := w.keyspace.put key val expiresAt } := by
  refine hw.of_entries fun key' it h => ?_
  rcases Keyspace.of_put h with ⟨rfl, rfl⟩ | h
  · exact hs
  · exact hw.entries key' it h

lemma kept_mset {w : Image} (hw : L.Kept w) {pairs : List (Key × Bytes)}
    (hp : ∀ p ∈ pairs, L.bulk p.1 ∧ L.bulk p.2) :
    L.Kept { w with keyspace := w.keyspace.putAll pairs } := by
  refine hw.of_entries fun key it h => ?_
  rcases Keyspace.of_putAll h with ⟨val, hm, rfl⟩ | h
  · exact ⟨(hp _ hm).1, (hp _ hm).2, trivial⟩
  · exact hw.entries key it h

lemma kept_expireAt {w : Image} (hw : L.Kept w) {key : Key} {deadline : Time} {now : ℤ}
    (hd : ∀ d, (w.keyspace.expireKey key deadline now).1 = .kept d → L.deadline d) :
    L.Kept { w with keyspace := (w.keyspace.expireKey key deadline now).2 } := by
  refine hw.of_entries fun key' it h => ?_
  rcases Keyspace.of_expireKey h with h | ⟨old, d, -, ho, -, hk, rfl⟩
  · exact hw.entries key' it h
  · have hs := hw.entries key' old ho
    exact ⟨hs.1, hs.2.1, hd d hk⟩

lemma logged_record {w : Image} (hw : L.Kept w) {now : ℤ} {key : Key}
    (hl : w.keyspace.Live now key) : L.Logged (w.keyspace.record key) := by
  obtain ⟨it, hi, -⟩ := hl
  exact ⟨.put key it.val it.expiresAt, hw.entries key it hi, by
    simp only [Mutation.record, Keyspace.record, hi]⟩

lemma bulk_of_isSome {w : Image} (hw : L.Kept w) {key : Key} (h : (w.keyspace key).isSome) :
    L.bulk key := by
  obtain ⟨it, hi⟩ := Option.isSome_iff_exists.1 h
  exact (hw.entries key it hi).1

lemma kept_act {a : Act} {i : Input} {r : a.Resp} {w w' : Image} (hw : L.Kept w) (ha : L.Asks a)
    (hc : L.Admits w.keyspace a) (h : ActSpec a i r w w') : L.Kept w' ∧ L.Answers a r := by
  cases a with
  | propagate record =>
    obtain rfl := actSpec_propagate.1 h
    exact ⟨kept_propagate hw ha, trivial⟩
  | getCollect key =>
    obtain rfl := actSpec_getCollect.1 h
    exact ⟨hw.of_entries fun key' it h => hw.entries key' it (Keyspace.of_collect h), trivial⟩
  | set key val expiresAt =>
    obtain rfl := actSpec_set.1 h
    exact ⟨kept_set hw ⟨ha, hc⟩, hc⟩
  | delete key =>
    obtain rfl := actSpec_delete.1 h
    exact ⟨hw.of_entries fun key' it h => hw.entries key' it (Keyspace.of_remove h), trivial⟩
  | mset pairs =>
    obtain rfl := actSpec_mset.1 h
    exact ⟨kept_mset hw ha, trivial⟩
  | del keys now =>
    obtain ⟨rfl, rfl⟩ := actSpec_del.1 h
    exact ⟨hw.of_entries fun key' it h => hw.entries key' it (Keyspace.of_removeAll h),
      Keyspace.deleted_sublist now keys _⟩
  | expireAt key deadline now =>
    obtain ⟨rfl, rfl⟩ := actSpec_expireAt.1 h
    exact ⟨kept_expireAt hw hc, hc⟩
  | expireShard j now n scanned =>
    obtain ⟨hk, hj⟩ := actSpec_expireShard.1 h
    exact ⟨⟨fun key' it h => hw.entries key' it (Keyspace.of_collected hk h), hj ▸ hw.journal⟩,
      trivial⟩
  | shardSnapshot j now =>
    obtain ⟨⟨keys, -, hk, rfl⟩, rfl⟩ :
      (∃ keys : List Key, keys.Nodup ∧ (∀ key, key ∈ keys ↔ _) ∧ _) ∧ _ := h
    refine ⟨hw, fun record hr => ?_⟩
    obtain ⟨key, hm, rfl⟩ := List.mem_map.1 hr
    exact logged_record hw ((hk key).1 hm).2
  | sampleShard j sample =>
    obtain ⟨hs, rfl⟩ := actSpec_sampleShard.1 h
    refine ⟨hw, ?_⟩
    cases r with
    | victim key => exact bulk_of_isSome hw hs
    | more sample' => exact fun best hb => (hs best hb).imp_right (bulk_of_isSome hw)
  | _ =>
    obtain rfl := ActSpec.unchanged rfl h
    exact ⟨hw, trivial⟩

abbrev Proper (L : Limits) {α : Type} (D : α → Prop) (p : Prog α) : Prop :=
  Obeys (S := sig) L.Asks L.Answers D p

lemma exec_kept {α : Type} {D : α → Prop} {check : Store → Act → Bool}
    (hcheck : ∀ s a, check s a = true → L.Admits s.view a) {p : Prog α} (hp : L.Proper D p)
    {inputs : ℕ → Input} {s : Store} (hs : WellFormed s) (hk : L.Kept s.image)
    (hpass : passes (S := sig) perform check p inputs s = true) :
    L.Kept (exec p inputs s).2.2.image := by
  refine (Obeys.run_invariant (S := sig) (K := fun s => WellFormed s ∧ L.Kept s.image)
    (fun a i s hs ha hc => ?_) hp ⟨hs, hk⟩ hpass).2
  obtain ⟨hkept, hanswer⟩ := kept_act hs.2 ha (hcheck s a hc) (perform_spec a i s hs.1)
  exact ⟨⟨perform_wellFormed a i s hs.1, hkept⟩, hanswer⟩

section Programs

variable {L : Limits} {α : Type} {D : α → Prop}

lemma proper_act {a : Act} {f : a.Resp → Prog α} (ha : L.Asks a)
    (hf : ∀ r, L.Answers a r → L.Proper D (f r)) : L.Proper D (invoke a >>= f) := Obeys.act ha hf

lemma proper_last {a : Act} (ha : L.Asks a) : L.Proper (fun _ => True) (invoke a) :=
  Obeys.act ha fun _ _ => .done trivial

lemma proper_setLocked {key : Key} (val : Bytes) (expiresAt : Time) (hk : L.bulk key) :
    L.Proper (fun _ => True) (setLocked key val expiresAt) :=
  proper_act hk fun _ hs => proper_last (a := .propagate (setRecord key val expiresAt))
    ⟨.put key val expiresAt, ⟨hk, hs⟩, rfl⟩

lemma proper_setTo {key : Key} (val : Bytes) (expiresAt : Time) (hk : L.bulk key) :
    L.Proper (fun _ => True) (setTo key val expiresAt) :=
  proper_act trivial fun _ _ => (proper_setLocked val expiresAt hk).bind fun _ _ =>
    proper_last (a := .unlockDurableMutation) trivial

lemma proper_lockAll (ids : List ShardId) : L.Proper (fun _ => True) (lockAll ids) := by
  induction ids with
  | nil => exact .done trivial
  | cons i ids ih => exact proper_act trivial fun _ _ => ih

lemma proper_unlockAll (ids : List ShardId) : L.Proper (fun _ => True) (unlockAll ids) := by
  induction ids with
  | nil => exact .done trivial
  | cons i ids ih => exact proper_act trivial fun _ _ => ih

lemma proper_lockWriteShards (keys : List Key) : L.Proper (fun _ => True) (lockWriteShards keys) :=
  (proper_lockAll _).bind fun _ _ => .done trivial

lemma proper_del {keys : List Key} (hn : L.count keys.length) (hk : ∀ key ∈ keys, L.bulk key) :
    L.Proper (fun _ => True) (del keys) := by
  refine proper_act trivial fun now _ => proper_act trivial fun _ _ =>
    (proper_lockWriteShards keys).bind fun ids _ => ?_
  refine proper_act trivial fun r hr => ?_
  have hrest : L.Proper (fun _ => True) (invoke .unlockDurableMutation >>= fun _ =>
      unlockWriteShards ids >>= fun _ => (pure r.1 : Prog ℕ)) :=
    proper_act trivial fun _ _ => (proper_unlockAll _).bind fun _ _ => .done trivial
  by_cases hne : r.2 = []
  · simpa [hne] using hrest
  · have hs : L.Logged (cmdDEL :: r.2) :=
      ⟨.remove r.2, ⟨hne, L.count_le hr.length_le hn, fun key h => hk key (hr.subset h)⟩, rfl⟩
    simpa [hne] using proper_act (a := .propagate (cmdDEL :: r.2)) hs fun _ _ => hrest

lemma proper_delOne {key : Key} (hn : L.count 1) (hk : L.bulk key) :
    L.Proper (fun _ => True) (del [key]) :=
  proper_del hn fun _ h => List.mem_singleton.1 h ▸ hk

lemma proper_setWithTTL {key : Key} (val : Bytes) (d : ℤ) (hn : L.count 1) (hk : L.bulk key) :
    L.Proper (fun _ => True) (setWithTTL key val d) := by
  unfold setWithTTL
  split_ifs
  · exact (proper_delOne hn hk).bind fun _ _ => .done trivial
  · exact proper_act trivial fun now _ => proper_setTo val _ hk

lemma proper_setWithDeadline {key : Key} (val : Bytes) (deadline : Time) (hn : L.count 1)
    (hk : L.bulk key) : L.Proper (fun _ => True) (setWithDeadline key val deadline) := by
  refine proper_act trivial fun now _ => ?_
  split_ifs
  · exact proper_setTo val _ hk
  · exact (proper_delOne hn hk).bind fun _ _ => .done trivial

lemma proper_mset {pairs : List (Key × Bytes)} (hne : pairs ≠ []) (hn : L.count (2 * pairs.length))
    (hp : ∀ p ∈ pairs, L.bulk p.1 ∧ L.bulk p.2) : L.Proper (fun _ => True) (mset pairs) := by
  refine proper_act trivial fun _ _ => (proper_lockWriteShards _).bind fun ids _ =>
    proper_act hp fun _ _ => ?_
  exact proper_act (a := .propagate (msetRecord pairs))
      ⟨.putAll pairs, ⟨hne, hn, hp⟩, rfl⟩ fun _ _ =>
    proper_act trivial fun _ _ => proper_unlockAll _

lemma proper_deleteIfExpired (key : Key) (now : ℤ) (e : Option Entry) :
    L.Proper (fun _ => True) (deleteIfExpired key now e) := by
  cases e with
  | none => exact .done trivial
  | some e =>
    simp only [deleteIfExpired]
    split_ifs
    · exact proper_act trivial fun _ _ => .done trivial
    · exact .done trivial

lemma proper_increment {key : Key} (delta : Int64) (hk : L.bulk key) :
    L.Proper (fun _ => True) (increment key delta) := by
  refine proper_act trivial fun now _ => proper_act trivial fun _ _ => proper_act trivial fun r _ =>
    ?_
  refine (proper_deleteIfExpired key now r).bind fun e _ => ?_
  cases counterValue e with
  | none => exact proper_act trivial fun _ _ => .done trivial
  | some n =>
    simp only
    split_ifs
    · exact proper_act trivial fun _ _ => .done trivial
    · exact (proper_setLocked _ _ hk).bind fun _ _ => proper_act trivial fun _ _ => .done trivial

lemma proper_append {key : Key} (suffix : Bytes) (hk : L.bulk key) :
    L.Proper (fun _ => True) (append key suffix) := by
  refine proper_act trivial fun now _ => proper_act trivial fun _ _ => proper_act trivial fun r _ =>
    ?_
  refine (proper_deleteIfExpired key now r).bind fun e _ => ?_
  exact (proper_setLocked _ _ hk).bind fun _ _ => proper_act trivial fun _ _ => .done trivial

lemma proper_expireAt {key : Key} (deadline : Time) (hn : L.count 1) (hk : L.bulk key) :
    L.Proper (fun _ => True) (expireAt key deadline) := by
  refine proper_act trivial fun now _ => proper_act trivial fun _ _ => proper_act trivial fun _ _ =>
    ?_
  refine proper_act trivial fun answer ha => ?_
  have hdel : L.Logged [cmdDEL, key] :=
    ⟨.remove [key], ⟨List.cons_ne_nil _ _, hn, fun _ h => List.mem_singleton.1 h ▸ hk⟩, rfl⟩
  have hrest (b : Bool) :
      L.Proper (fun _ => True) (invoke (.unlockShard (shardIndex key)) >>= fun _ =>
      invoke .unlockDurableMutation >>= fun _ => (pure b : Prog Bool)) :=
    proper_act trivial fun _ _ => proper_act trivial fun _ _ => .done trivial
  cases answer with
  | missing => exact hrest false
  | collected => exact proper_act (a := .propagate [cmdDEL, key]) hdel fun _ _ => hrest false
  | deleted => exact proper_act (a := .propagate [cmdDEL, key]) hdel fun _ _ => hrest true
  | kept d =>
    exact proper_act (a := .propagate [cmdPEXPIREAT, key, unixMillis d])
      ⟨.touch key d, ⟨hk, ha d rfl⟩, rfl⟩ fun _ _ => hrest true

lemma proper_expire {key : Key} (d : ℤ) (hn : L.count 1) (hk : L.bulk key) :
    L.Proper (fun _ => True) (expire key d) := proper_act trivial fun _ _ => proper_expireAt _ hn hk

lemma proper_sumShards {N : Type} [Add N] {subtotal : ShardId → Prog N}
    (hs : ∀ i, L.Proper (fun _ => True) (subtotal i)) (ids : List ShardId) :
    ∀ n, L.Proper (fun _ => True) (sumShards subtotal ids n) := by
  induction ids with
  | nil => exact fun n => .done trivial
  | cons i ids ih => exact fun n => (hs i).bind fun m _ => ih (n + m)

lemma proper_used : L.Proper (fun _ => True) used :=
  proper_sumShards (fun i => proper_last (a := .shardUsed i) trivial) _ _

lemma proper_snapshotShards (now : ℤ) (ids : List ShardId) :
    ∀ out : List Record, (∀ record ∈ out, L.Logged record) →
    L.Proper (fun records => ∀ record ∈ records, L.Logged record) (snapshotShards now ids out) := by
  induction ids with
  | nil => exact fun out ho => .done ho
  | cons i ids ih =>
    refine fun out ho => proper_act trivial fun records hr => ih _ fun record hm => ?_
    rcases List.mem_append.1 hm with hm | hm
    · exact ho record hm
    · exact hr record hm

lemma proper_aofSnapshot :
    L.Proper (fun records => ∀ record ∈ records, L.Logged record) aofSnapshot := by
  refine proper_act trivial fun now _ => Obeys.bind (D := fun _ => True) ?_ fun _ _ => ?_
  · exact proper_sumShards (fun i => proper_last (a := .shardLen i) trivial) _ _
  · exact proper_snapshotShards now allShards [] fun _ h => absurd h List.not_mem_nil

lemma proper_expireShards (now : ℤ) (n : ℕ) (ids : List ShardId) :
    ∀ scanned expired, L.Proper (fun _ => True) (expireShards now n ids scanned expired) := by
  induction ids with
  | nil => exact fun _ _ => .done trivial
  | cons i ids ih =>
    intro scanned expired
    unfold expireShards
    split_ifs
    · exact .done trivial
    · exact proper_act trivial fun r _ => ih _ _

lemma proper_expireRounds (rounds : ℕ) :
    ∀ scanned expired, L.Proper (fun _ => True) (expireRounds rounds scanned expired) := by
  induction rounds with
  | zero => exact fun _ _ => .done trivial
  | succ rounds ih =>
    refine fun scanned expired => Obeys.bind (D := fun _ => True) ?_ fun r _ => ?_
    · exact proper_act trivial fun _ _ => proper_act trivial fun _ _ =>
        proper_expireShards _ _ _ _ _
    · simp only
      split_ifs
      · exact .done trivial
      · exact ih _ _

lemma proper_sampleShards (ids : List ShardId) :
    ∀ sample : Sample, (∀ best ∈ sample.best, L.bulk best.1) →
    L.Proper (fun victim => ∀ key ∈ victim, L.bulk key) (sampleShards ids sample) := by
  have hbest {sample : Sample} (hs : ∀ best ∈ sample.best, L.bulk best.1) :
      ∀ key ∈ sample.best.map Prod.fst, L.bulk key := by
    intro key hk
    obtain ⟨best, hb, rfl⟩ := Option.mem_map.1 hk
    exact hs best hb
  induction ids with
  | nil => exact fun sample hs => .done (hbest hs)
  | cons i ids ih =>
    refine fun sample hs => proper_act trivial fun r hr => ?_
    cases r with
    | victim key => exact .done fun key' hk => Option.some.inj hk ▸ hr
    | more sample' =>
      have hs' := fun best hb => (hr best hb).elim (hs best) id
      simp only
      split_ifs
      · exact .done (hbest hs')
      · exact ih sample' hs'

lemma proper_evictLoop (maxMemory : ℤ) (hn : L.count 1) (fuel : ℕ) :
    ∀ evicted, L.Proper (fun _ => True) (evictLoop maxMemory fuel evicted) := by
  induction fuel with
  | zero => exact fun _ => .done trivial
  | succ fuel ih =>
    refine fun evicted => proper_used.bind fun _ _ => ?_
    split_ifs
    · refine (proper_sampleShards allShards ⟨none, 0⟩ fun _ h =>
        absurd h (Option.not_mem_none _)).bind fun r hr => ?_
      cases r with
      | none => exact proper_act trivial fun _ _ => .done trivial
      | some key =>
        refine proper_act trivial fun _ _ => proper_act trivial fun _ _ => ?_
        exact proper_act (a := .propagate [cmdDEL, key]) ⟨.remove [key], ⟨List.cons_ne_nil _ _, hn,
          fun _ h => List.mem_singleton.1 h ▸ hr key rfl⟩, rfl⟩ fun _ _ => ih _
    · exact proper_act trivial fun _ _ => .done trivial

lemma proper_enforceMemoryLimit (fuel : ℕ) (hn : L.count 1) :
    L.Proper (fun _ => True) (enforceMemoryLimit fuel) := by
  refine proper_act trivial fun r _ => ?_
  simp only
  split
  · exact .done trivial
  · refine proper_act trivial fun _ _ => proper_used.bind fun _ _ => ?_
    split_ifs
    · exact proper_act trivial fun _ _ => .done trivial
    · exact proper_act trivial fun _ _ => .done trivial
    · exact proper_evictLoop _ hn fuel 0

end Programs

end Limits

end RedisClone.Store
