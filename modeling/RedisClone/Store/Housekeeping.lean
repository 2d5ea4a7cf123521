import RedisClone.Store.Effects

/-! What expiry cycles and evictions do to keyspace and journal: a cycle collects keys whose
deadline has passed and journals nothing, an eviction removes keys and journals each. -/

namespace RedisClone.Store

open Lib Lib.Program

namespace Keyspace

lemma expired_mono {it : Item} {now later : ℤ} (h : now ≤ later) (hx : it.expired now = true) :
    it.expired later = true := by
  simp only [Item.expired, expiredAt] at hx ⊢
  split at hx
  · exact absurd hx Bool.false_ne_true
  · exact decide_eq_true ((of_decide_eq_true hx).trans h)

lemma Collected.refl (now : ℤ) (ks : Keyspace) : ks.Collected now ks := fun _ => .inl rfl

lemma Collected.mono {now later : ℤ} {ks ks' : Keyspace} (h : ks.Collected now ks')
    (hl : now ≤ later) : ks.Collected later ks' := by
  intro key
  rcases h key with hk | ⟨hk, hx⟩
  · exact .inl hk
  · refine .inr ⟨hk, ?_⟩
    obtain ⟨it, hi, hx⟩ := Option.any_eq_true _ _ |>.1 hx
    exact (Option.any_eq_true _ _).2 ⟨it, hi, expired_mono hl hx⟩

lemma Collected.trans {now : ℤ} {ks₁ ks₂ ks₃ : Keyspace} (h : ks₁.Collected now ks₂)
    (h' : ks₂.Collected now ks₃) : ks₁.Collected now ks₃ := by
  intro key
  rcases h' key with hk' | ⟨hk', hx'⟩
  · rw [hk']
    exact h key
  · rcases h key with hk | ⟨hk, hx⟩
    · exact .inr ⟨hk', hk ▸ hx'⟩
    · exact .inr ⟨hk', hx⟩

end Keyspace

lemma runs_expireShards {now : ℤ} {m : ℕ} {ids : List ShardId} {scanned expired : ℕ}
    {inputs : ℕ → Input} {w w' : Image} {n : ℕ} {b : ℕ × ℕ}
    (h : Runs ActSpec (expireShards now m ids scanned expired) inputs w n b w') :
    w.keyspace.Collected now w'.keyspace ∧ w'.journal = w.journal := by
  induction ids generalizing inputs scanned expired w n with
  | nil =>
    simp only [expireShards, pure_eq, runs_done] at h
    obtain ⟨-, -, rfl⟩ := h
    exact ⟨.refl _ _, rfl⟩
  | cons i ids ih =>
    unfold expireShards at h
    split_ifs at h
    · simp only [pure_eq, runs_done] at h
      obtain ⟨-, -, rfl⟩ := h
      exact ⟨.refl _ _, rfl⟩
    · simp only [invoke, call, act_bind, done_bind, runs_act, actSpec_expireShard] at h
      obtain ⟨r, w₁, k, ⟨hc, hj⟩, h, -⟩ := h
      obtain ⟨hc', hj'⟩ := ih h
      exact ⟨hc.trans hc', hj'.trans hj⟩

lemma runs_expireSample {m : ℕ} {inputs : ℕ → Input} {w w' : Image} {n : ℕ} {b : ℕ × ℕ}
    (h : Runs ActSpec (expireSample m) inputs w n b w') :
    w.keyspace.Collected (inputs 0).time w'.keyspace ∧ w'.journal = w.journal := by
  simp only [expireSample, invoke, call, act_bind, done_bind, runs_act, actSpec_now,
    actSpec_tick] at h
  obtain ⟨_, _, _, ⟨rfl, rfl⟩, ⟨_, _, _, rfl, h, -⟩, -⟩ := h
  exact runs_expireShards h

lemma runs_expireRounds {rounds scanned expired : ℕ} {inputs : ℕ → Input} {w w' : Image}
    {n : ℕ} {b : ℕ × ℕ} {now : ℤ} (ht : ∀ i, (inputs i).time ≤ now)
    (h : Runs ActSpec (expireRounds rounds scanned expired) inputs w n b w') :
    w.keyspace.Collected now w'.keyspace ∧ w'.journal = w.journal := by
  induction rounds generalizing inputs scanned expired w n with
  | zero =>
    simp only [expireRounds, pure_eq, runs_done] at h
    obtain ⟨-, -, rfl⟩ := h
    exact ⟨.refl _ _, rfl⟩
  | succ rounds ih =>
    obtain ⟨r, w₁, _, _, hs, h, -⟩ := runs_bind.1 h
    obtain ⟨hc, hj⟩ := runs_expireSample hs
    have hc := hc.mono (ht 0)
    simp only at h
    split_ifs at h
    · simp only [pure_eq, runs_done] at h
      obtain ⟨-, -, rfl⟩ := h
      exact ⟨hc, hj⟩
    · obtain ⟨hc', hj'⟩ := ih (fun i => ht _) h
      exact ⟨hc.trans hc', hj'.trans hj⟩

def ReadsOnly {α : Type} (p : Prog α) : Prop :=
  ∀ ⦃inputs w n b w'⦄, Runs ActSpec p inputs w n b w' → w' = w

lemma readsOnly_invoke {a : Act} (ha : a.mutates = false) : ReadsOnly (invoke a) := by
  intro inputs w n b w' h
  obtain ⟨r, w₁, m, hact, hrest, -⟩ := runs_act.1 h
  obtain ⟨-, -, rfl⟩ := runs_done.1 hrest
  exact ActSpec.unchanged ha hact

lemma sumShards_readsOnly {N : Type} [Add N] {subtotal : ShardId → Prog N}
    (hs : ∀ i, ReadsOnly (subtotal i)) (ids : List ShardId) :
    ∀ n, ReadsOnly (sumShards subtotal ids n) := by
  induction ids with
  | nil =>
    intro n inputs w m b w' h
    exact (runs_done.1 h).2.2
  | cons i ids ih =>
    intro n inputs w m b w' h
    obtain ⟨r, w₁, _, _, hi, hrest, -⟩ := runs_bind.1 h
    rw [ih _ hrest, hs i hi]

lemma used_readsOnly : ReadsOnly used :=
  sumShards_readsOnly (fun i => readsOnly_invoke (a := .shardUsed i) rfl) _ _

lemma len_readsOnly : ReadsOnly len :=
  sumShards_readsOnly (fun i => readsOnly_invoke (a := .shardLen i) rfl) _ _

lemma runs_sampleShards {ids : List ShardId} {sample : Sample} {inputs : ℕ → Input}
    {w w' : Image} {n : ℕ} {b : Option Key} (hs : ∀ best ∈ sample.best, (w.keyspace best.1).isSome)
    (h : Runs ActSpec (sampleShards ids sample) inputs w n b w') :
    w' = w ∧ ∀ key ∈ b, (w.keyspace key).isSome := by
  have hfinal {sample : Sample} (hs : ∀ best ∈ sample.best, (w.keyspace best.1).isSome) :
      ∀ key ∈ sample.best.map Prod.fst, (w.keyspace key).isSome := by
    intro key hk
    obtain ⟨best, hb, rfl⟩ := Option.mem_map.1 hk
    exact hs best hb
  induction ids generalizing inputs sample n with
  | nil =>
    simp only [sampleShards, pure_eq, runs_done] at h
    obtain ⟨-, rfl, rfl⟩ := h
    exact ⟨rfl, hfinal hs⟩
  | cons i ids ih =>
    simp only [sampleShards, invoke, call, act_bind, done_bind, runs_act, actSpec_sampleShard] at h
    obtain ⟨r, _, _, ⟨hr, rfl⟩, h, -⟩ := h
    cases r with
    | victim key =>
      simp only [pure_eq, runs_done] at h
      obtain ⟨-, rfl, rfl⟩ := h
      exact ⟨rfl, fun key' hk => Option.some.inj hk ▸ hr⟩
    | more sample' =>
      have hs' := fun best hb => (hr best hb).elim (hs best) id
      simp only at h
      split_ifs at h
      · simp only [pure_eq, runs_done] at h
        obtain ⟨-, rfl, rfl⟩ := h
        exact ⟨rfl, hfinal hs'⟩
      · exact ih hs' h

lemma runs_pickVictim {inputs : ℕ → Input} {w w' : Image} {n : ℕ} {b : Option Key}
    (h : Runs ActSpec pickVictim inputs w n b w') : w' = w ∧ ∀ key ∈ b, (w.keyspace key).isSome :=
  runs_sampleShards (fun _ hb => absurd hb (Option.not_mem_none _)) h

def Enforced.evicted : Enforced → ℕ
  | .running evicted => evicted
  | .finished evicted _ => evicted

def evictions (victims : List Key) : List Mutation := victims.map fun key => .remove [key]

structure Evicts (w w' : Image) (victims : List Key) : Prop where
  nodup : victims.Nodup
  present : ∀ key ∈ victims, (w.keyspace key).isSome
  image : w' = w.apply (w.keyspace.removeAll victims) ((evictions victims).map Mutation.record)

lemma Evicts.nil (w : Image) : Evicts w w [] :=
  ⟨List.nodup_nil, fun _ h => absurd h List.not_mem_nil, (Image.apply_self w).symm⟩

lemma Evicts.cons {w w' : Image} {key : Key} {victims : List Key} (hk : (w.keyspace key).isSome)
    (h : Evicts (w.apply (w.keyspace.remove key) [[cmdDEL, key]]) w' victims) :
    Evicts w w' (key :: victims) := by
  have hrest : ∀ key' ∈ victims, key' ≠ key ∧ (w.keyspace key').isSome := by
    intro key' hk'
    have hp := h.present key' hk'
    simp only [Image.apply_keyspace, Keyspace.remove, Function.update_apply] at hp
    split_ifs at hp with he
    · exact absurd hp Bool.false_ne_true
    · exact ⟨he, hp⟩
  refine ⟨List.nodup_cons.2 ⟨fun hm => (hrest key hm).1 rfl, h.nodup⟩, fun key' hk' => ?_, ?_⟩
  · rcases List.mem_cons.1 hk' with rfl | hk'
    · exact hk
    · exact (hrest key' hk').2
  · simpa [Keyspace.removeAll, evictions, Mutation.record] using h.image

lemma runs_evictLoop {maxMemory : ℤ} {fuel evicted : ℕ} {inputs : ℕ → Input} {w w' : Image}
    {n : ℕ} {b : Enforced} (h : Runs ActSpec (evictLoop maxMemory fuel evicted) inputs w n b w') :
    ∃ victims, Evicts w w' victims ∧ b.evicted = evicted + victims.length := by
  induction fuel generalizing inputs evicted w n with
  | zero =>
    simp only [evictLoop, pure_eq, runs_done] at h
    obtain ⟨-, rfl, rfl⟩ := h
    exact ⟨[], .nil _, rfl⟩
  | succ fuel ih =>
    obtain ⟨used, w₁, _, _, hu, h, -⟩ := runs_bind.1 h
    rw [used_readsOnly hu] at h
    split_ifs at h
    · obtain ⟨victim, w₂, _, _, hv, h, -⟩ := runs_bind.1 h
      obtain ⟨rfl, hpresent⟩ := runs_pickVictim hv
      cases victim with
      | none =>
        simp [invoke, call] at h
        obtain ⟨⟨rfl, rfl⟩, -⟩ := h
        exact ⟨[], .nil _, rfl⟩
      | some key =>
        simp only [invoke, call, act_bind, done_bind, runs_act, actSpec_delete, actSpec_evicted,
          actSpec_propagate] at h
        obtain ⟨_, _, _, rfl, ⟨_, _, _, rfl, ⟨_, _, _, rfl, h, -⟩, -⟩, -⟩ := h
        obtain ⟨victims, hv, hb⟩ := ih h
        exact ⟨key :: victims, .cons (hpresent key rfl) hv, by rw [hb, List.length_cons]; omega⟩
    · simp [invoke, call] at h
      obtain ⟨⟨rfl, rfl⟩, -⟩ := h
      exact ⟨[], .nil _, rfl⟩

lemma runs_enforceMemoryLimit {fuel : ℕ} {inputs : ℕ → Input} {w w' : Image} {n : ℕ} {b : Enforced}
    (h : Runs ActSpec (enforceMemoryLimit fuel) inputs w n b w') :
    ∃ victims, Evicts w w' victims ∧ b.evicted = victims.length := by
  simp only [enforceMemoryLimit, invoke, call, act_bind, done_bind, runs_act, actSpec_config] at h
  obtain ⟨⟨maxMemory, policy⟩, _, _, rfl, h, -⟩ := h
  simp only at h
  split at h
  · simp only [pure_eq, runs_done] at h
    obtain ⟨-, rfl, rfl⟩ := h
    exact ⟨[], .nil _, rfl⟩
  · simp only [runs_act, actSpec_lockDurableMutation] at h
    obtain ⟨_, _, _, rfl, h, -⟩ := h
    obtain ⟨used, w₁, _, _, hu, h, -⟩ := runs_bind.1 h
    rw [used_readsOnly hu] at h
    split_ifs at h
    · simp at h
      obtain ⟨⟨rfl, rfl⟩, -⟩ := h
      exact ⟨[], .nil _, rfl⟩
    · simp at h
      obtain ⟨⟨rfl, rfl⟩, -⟩ := h
      exact ⟨[], .nil _, rfl⟩
    · obtain ⟨victims, hv, hb⟩ := runs_evictLoop h
      exact ⟨victims, hv, by rw [hb, Nat.zero_add]⟩

end RedisClone.Store
