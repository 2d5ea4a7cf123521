import RedisClone.Store.Course

/-! What the expiry sampler can get at. A round has a budget of twenty keys and spends it on the
shards in their order, so the volatile keys of the lower shards stand before those of the higher. -/

namespace RedisClone.Store

open Lib Lib.Program

section Budget

/-- A budget spent on the volatile keys of shards, one shard after another: what is left of them,
how many were expired and how many shards were visited. Only in the last of these shards is there
a choice. -/
inductive Spent (due : Key → ℤ) (time : ℤ) :
    ℕ → List (Finset Key) → List (Finset Key) → ℕ → ℕ → Prop
  | whole {left gone m : ℕ} {keys : Finset Key} {rest rest' : List (Finset Key)}
      (hfit : keys.card < left) (h : Spent due time (left - keys.card) rest rest' gone m) :
      Spent due time left (keys :: rest) (keys \ keys.filter (due · ≤ time) :: rest')
        ((keys.filter (due · ≤ time)).card + gone) (m + 1)
  | part {left : ℕ} {keys visited : Finset Key} (rest : List (Finset Key)) (hsub : visited ⊆ keys)
      (hcard : visited.card = left) :
      Spent due time left (keys :: rest) (keys \ visited.filter (due · ≤ time) :: rest)
        (visited.filter (due · ≤ time)).card 1

/-- Rounds can get past the volatile keys of these shards: after some rounds, each of which finds
a quarter of its budget expired, fewer keys are left there than the budget of a round. -/
inductive InReach (due : Key → ℤ) : ℕ → (ℕ → ℤ) → List (Finset Key) → Prop
  | arrive {rounds : ℕ} {clock : ℕ → ℤ} {keys : List (Finset Key)}
      (h : (keys.map Finset.card).sum < activeExpireSampleSize) :
        InReach due (rounds + 1) clock keys
  | again {rounds gone m : ℕ} {clock : ℕ → ℤ} {keys keys' : List (Finset Key)}
      (h : Spent due (clock 0) activeExpireSampleSize keys keys' gone m)
        (hq : activeExpireSampleSize ≤ 4 * gone)
      (hrest : InReach due rounds (shift (m + 2) clock) keys') : InReach due (rounds + 1) clock keys

end Budget

def Shard.volatile (sh : Shard) : Finset Key := sh.expiring.keys.toFinset

@[simp] lemma Shard.mem_volatile {sh : Shard} {key : Key} :
    key ∈ sh.volatile ↔ key ∈ sh.expiring := by
  simp [Shard.volatile, AList.mem_keys]

def volatileIn (s : Store) (ids : List ShardId) : List (Finset Key) :=
  ids.map fun i => (s.shards i).volatile

def shardsBefore (i : ShardId) : List ShardId := allShards.take i

def deadlineIn (s : Store) (key : Key) : ℤ := ((s.view key).bind Item.expiresAt).getD 0

def MapOrder.first (keys : Finset Key) : MapOrder where
  keys l := l.filter (fun key => decide (key ∈ keys)) ++ l.filter fun key => !decide (key ∈ keys)
  perm l := List.filter_append_perm _ l

def Dues (due : Key → ℤ) (s : Store) : Prop :=
  ∀ key it, s.view key = some it → ∀ d ∈ it.expiresAt, due key = d

section Visit

variable {due : Key → ℤ} {s : Store}

lemma dues_deadlineIn (s : Store) : Dues s.deadlineIn s := by
  intro key it hk d hd
  rw [Option.mem_def] at hd
  simp [deadlineIn, hk, hd]

lemma Dues.of_view {s' : Store} (h : Dues due s)
    (hv : ∀ key it, s'.view key = some it → s.view key = some it) :
    Dues due s' := fun key it hk => h key it (hv key it hk)

lemma Dues.volatile (h : Dues due s) (hs : WellFormed s) (time : ℤ) {i : ShardId} {key : Key}
    (hk : key ∈ (s.shards i).volatile) :
    ∃ e, (s.shards i).data.lookup key = some e ∧ e.expired time = decide (due key ≤ time) := by
  obtain ⟨e, he, hd⟩ := ((hs i).indexed key).1 (Shard.mem_volatile.1 hk)
  obtain ⟨d, hd⟩ : ∃ d, e.expiresAt = some d := by
    cases h : e.expiresAt with
    | none =>
      rw [h] at hd
      cases hd
    | some d => exact ⟨d, rfl⟩
  have hv : s.view key = some e.item := by
    rw [view_apply, ((hs.lookup_shard i key e).1 he).2]
    rfl
  refine ⟨e, he, ?_⟩
  rw [h key e.item hv d hd, Entry.expired, hd]
  rfl

lemma WellFormed.mem_volatile (hs : WellFormed s) {key : Key} :
    key ∈ (s.shards (shardIndex key)).volatile ↔ ∃ it d, s.view key = some it ∧
    it.expiresAt = some d := by
  rw [Shard.mem_volatile, (hs _).indexed key]
  constructor
  · rintro ⟨e, he, hd⟩
    have hv : s.view key = some e.item := congrArg (Option.map Entry.item) he
    cases h : e.expiresAt with
    | none =>
      rw [h] at hd
      cases hd
    | some d => exact ⟨e.item, d, hv, h⟩
  · rintro ⟨it, d, hv, hd⟩
    obtain ⟨e, he, rfl⟩ := Option.map_eq_some_iff.1 hv
    refine ⟨e, he, ?_⟩
    rw [show e.expiresAt = some d from hd]
    rfl

lemma Shard.expireKeys_eq (time : ℤ) (n : ℕ) (keys : List Key) :
    keys.Nodup → ∀ (sh : Shard) (scanned expired : ℕ), scanned ≤ n →
    (∀ key ∈ keys, ∃ e, sh.data.lookup key = some e ∧ e.expired time = decide (due key ≤ time)) →
    (Shard.expireKeys time n keys sh scanned expired).1.volatile =
        sh.volatile \ ((keys.take (n - scanned)).filter (due · ≤ time)).toFinset ∧
      (Shard.expireKeys time n keys sh scanned expired).2 =
      (scanned + (keys.take (n - scanned)).length,
        expired + ((keys.take (n - scanned)).filter (due · ≤ time)).length) := by
  induction keys with
  | nil => simp [Shard.expireKeys]
  | cons key keys ih =>
    intro hnd sh scanned expired hle hall
    obtain ⟨hkey, hnd⟩ := List.nodup_cons.1 hnd
    by_cases hn : scanned = n
    · simp [Shard.expireKeys, hn]
    obtain ⟨e, he, hx⟩ := hall key List.mem_cons_self
    obtain ⟨m, hm⟩ : ∃ m, n - scanned = m + 1 := ⟨n - scanned - 1, by omega⟩
    have hm' : n - (scanned + 1) = m := by omega
    simp only [Shard.expireKeys, hn, if_false, he, hm, List.take_succ_cons]
    by_cases hd : due key ≤ time
    · -- an expired key goes, and the entries of the keys still to come stay
      have hrest : ∀ key' ∈ keys, ∃ e, (sh.data.erase key).lookup key' = some e ∧
          e.expired time = decide (due key' ≤ time) := by
        intro key' hk'
        have hne : key' ≠ key := fun h => hkey (h ▸ hk')
        rw [AList.lookup_erase_ne hne]
        exact hall key' (List.mem_cons_of_mem _ hk')
      have h := ih hnd ⟨sh.data.erase key, sh.expiring.erase key, sh.used - entrySize key e.val⟩
        (scanned + 1) (expired + 1) (by omega) hrest
      rw [hm'] at h
      simp only [hx, hd, decide_true, if_true, h, List.filter_cons, List.length_cons]
      refine ⟨?_, by congr 1 <;> omega⟩
      ext key'
      simp only [Finset.mem_sdiff, Shard.mem_volatile, AList.mem_erase, List.toFinset_cons,
        Finset.mem_insert, not_or]
      tauto
    · have h := ih hnd sh (scanned + 1) expired (by omega) fun key' hk' =>
        hall key' (List.mem_cons_of_mem _ hk')
      rw [hm'] at h
      simp only [hx, hd, decide_false, Bool.false_eq_true, if_false, h, List.filter_cons,
        List.length_cons]
      refine ⟨trivial, ?_⟩
      congr 1
      omega

structure Visited (due : Key → ℤ) (time : ℤ) (n scanned : ℕ) (i : ShardId) (s : Store)
    (visited : Finset Key) (r : ℕ × ℕ) (s' : Store) : Prop where
  sub : visited ⊆ (s.shards i).volatile
  card : visited.card = min (n - scanned) (s.shards i).volatile.card
  answer : r = (scanned + visited.card, (visited.filter (due · ≤ time)).card)
  volatile : (s'.shards i).volatile = (s.shards i).volatile \ visited.filter (due · ≤ time)
  others : ∀ j ≠ i, s'.shards j = s.shards j

lemma visited_expireShard (hd : Dues due s) (hs : WellFormed s) (time : ℤ) {n scanned : ℕ}
    (hle : scanned ≤ n) (i : ShardId) (inp : Input) :
    Visited due time n scanned i s
      ((inp.order.keys (s.shards i).expiring.keys).take (n - scanned)).toFinset
      (perform (.expireShard i time n scanned) inp s).1
        (perform (.expireShard i time n scanned) inp s).2 := by
  have hperm := inp.order.perm (s.shards i).expiring.keys
  have hnd : (inp.order.keys (s.shards i).expiring.keys).Nodup :=
    hperm.nodup_iff.2 (s.shards i).expiring.nodupKeys
  have hmem (key : Key) (hk : key ∈ inp.order.keys (s.shards i).expiring.keys) :
      key ∈ (s.shards i).volatile :=
    Shard.mem_volatile.2 (AList.mem_keys.2 (hperm.mem_iff.1 hk))
  have h := Shard.expireKeys_eq time n _ hnd (s.shards i) scanned 0 hle fun key hk =>
    hd.volatile hs time (hmem key hk)
  have hcard (l : List Key) (hl : l.Nodup) : l.toFinset.card = l.length :=
    List.toFinset_card_of_nodup hl
  have hfilter (l : List Key) :
      l.toFinset.filter (due · ≤ time) = (l.filter (due · ≤ time)).toFinset := by
    ext key
    simp
  have htake : ((inp.order.keys (s.shards i).expiring.keys).take (n - scanned)).Nodup :=
    hnd.sublist (List.take_sublist _ _)
  refine ⟨fun key hk => hmem key (List.mem_of_mem_take (List.mem_toFinset.1 hk)), ?_, ?_, ?_,
    fun j hj => ?_⟩
  · rw [hcard _ htake, List.length_take, hperm.length_eq, Shard.volatile,
      hcard (s.shards i).expiring.keys (s.shards i).expiring.nodupKeys]
  · rw [hfilter, hcard _ htake, hcard _ (htake.filter _)]
    simpa [perform, expireShardSection] using h.2
  · rw [hfilter, ← h.1]
    simp [perform, expireShardSection, updateShard]
  · simp [perform, expireShardSection, updateShard, hj]

end Visit

section Walk

variable {due : Key → ℤ} {s : Store} {time : ℤ} {n scanned : ℕ}

def Dwindles {α : Type} (p : Prog α) : Prop := ∀ (inputs : ℕ → Input) (s : Store), WellFormed s →
  ∀ key it, (exec p inputs s).2.2.view key = some it → s.view key = some it

lemma dwindles_of_only {α : Type} {p : Prog α}
    (h :
      Only (S := sig)
      (fun a => ∀ i s, WellFormed s → ∀ key it, (perform a i s).2.view key = some it →
      s.view key = some it) p) :
    Dwindles p := by
  intro inputs s hs key it
  unfold Only at h
  induction h generalizing inputs s with
  | done _ => exact id
  | act ha _ ih =>
    exact fun hk => ha _ s hs key it (ih _ trivial _ _ (perform_wellFormed _ _ _ hs) hk)

lemma dwindles_expireRounds (rounds scanned expired : ℕ) :
    Dwindles (expireRounds rounds scanned expired) := by
  refine dwindles_of_only (within_expireRounds ?_ ?_ ?_ rounds scanned expired)
  · exact fun _ _ hs _ _ hk => perform_view hs (fun _ => rfl) (fun _ _ _ => Act.noConfusion) hk
  · exact fun _ _ hs _ _ hk => perform_view hs (fun _ => rfl) (fun _ _ _ => Act.noConfusion) hk
  · exact fun _ _ _ _ _ _ hs _ _ hk => perform_view hs (fun _ => rfl)
      (fun _ _ _ => Act.noConfusion) hk

lemma dwindles_expireShards (time : ℤ) (n : ℕ) (ids : List ShardId) (scanned expired : ℕ) :
    Dwindles (expireShards time n ids scanned expired) :=
  dwindles_of_only (within_expireShards
    (fun _ _ _ _ _ hs _ _ hk => perform_view hs (fun _ => rfl) (fun _ _ _ => Act.noConfusion) hk) n
      ids scanned expired)

lemma expireShards_spent (ids : List ShardId) (expired : ℕ) :
    expireShards time n ids n expired = .done (n, expired) := by
  cases ids <;> simp [expireShards]

lemma exec_expireShards_cons (hne : scanned ≠ n) (i : ShardId) (ids : List ShardId) (expired : ℕ)
    (inputs : ℕ → Input) (s : Store) {r : ℕ × ℕ} {s₁ : Store}
    (h : perform (.expireShard i time n scanned) (inputs 0) s = (r, s₁)) :
    exec (expireShards time n (i :: ids) scanned expired) inputs s =
      ((exec (expireShards time n ids r.1 (expired + r.2)) (shift 1 inputs) s₁).1,
        (exec (expireShards time n ids r.1 (expired + r.2)) (shift 1 inputs) s₁).2.1 + 1,
        (exec (expireShards time n ids r.1 (expired + r.2)) (shift 1 inputs) s₁).2.2) := by
  rw [expireShards, if_neg hne, exec_act, h]

lemma volatileIn_congr {s' : Store} {ids : List ShardId} (h : ∀ i ∈ ids, s'.shards i = s.shards i) :
    volatileIn s' ids = volatileIn s ids := List.map_congr_left fun i hi => by rw [h i hi]

structure Outcome (ids : List ShardId) (s : Store) (keys' : List (Finset Key)) (b : ℕ × ℕ) (m : ℕ)
    (out : (ℕ × ℕ) × ℕ × Store) : Prop where
  answer : out.1 = b
  taken : out.2.1 = m
  volatile : volatileIn out.2.2 ids = keys'
  others : ∀ j, j ∉ ids → out.2.2.shards j = s.shards j

lemma Outcome.spent {ids : List ShardId} {keys' : List (Finset Key)} {b : ℕ × ℕ} (s : Store)
    (h : volatileIn s ids = keys') :
    Outcome ids s keys' b 0 (b, 0, s) := ⟨rfl, rfl, h, fun _ _ => rfl⟩

lemma Outcome.cons {i : ShardId} {ids : List ShardId} {visited : Finset Key}
    {r b : ℕ × ℕ} {s₁ : Store} {keys' : List (Finset Key)} {m : ℕ} {out : (ℕ × ℕ) × ℕ × Store}
    (hv : Visited due time n scanned i s visited r s₁) (hi : i ∉ ids)
    (h : Outcome ids s₁ keys' b m out) :
    Outcome (i :: ids) s ((s.shards i).volatile \ visited.filter (due · ≤ time) :: keys') b (m + 1)
      (out.1, out.2.1 + 1, out.2.2) := by
  refine ⟨h.answer, congrArg (· + 1) h.taken, ?_, fun j hj => ?_⟩
  · rw [volatileIn, List.map_cons, h.others i hi, hv.volatile]
    exact congrArg _ h.volatile
  · obtain ⟨hji, hj⟩ := not_or.1 (mt List.mem_cons.2 hj)
    rw [h.others j hj, hv.others j hji]

lemma exec_visit (time : ℤ) (hd : Dues due s) (hs : WellFormed s) (hlt : scanned < n) (i : ShardId)
    (ids : List ShardId) (expired : ℕ) (inputs : ℕ → Input) :
    ∃ s₁ visited, visited =
    (((inputs 0).order.keys (s.shards i).expiring.keys).take (n - scanned)).toFinset ∧
      Visited due time n scanned i s visited
        (scanned + visited.card, (visited.filter (due · ≤ time)).card) s₁ ∧
      (∀ key it, s₁.view key = some it → s.view key = some it) ∧ WellFormed s₁ ∧
      exec (expireShards time n (i :: ids) scanned expired) inputs s =
        let rest :=
          exec (expireShards time n ids (scanned + visited.card)
              (expired + (visited.filter (due · ≤ time)).card))
          (shift 1 inputs) s₁
        (rest.1, rest.2.1 + 1, rest.2.2) := by
  have hv := visited_expireShard hd hs time hlt.le i (inputs 0)
  have hw := perform_wellFormed (.expireShard i time n scanned) (inputs 0) s hs
  have hsub (key : Key) (it : Item)
      (hk : (perform (.expireShard i time n scanned) (inputs 0) s).2.view key = some it) :
      s.view key = some it := perform_view hs (fun _ => rfl) (fun _ _ _ => Act.noConfusion) hk
  refine ⟨_, _, rfl, hv.answer ▸ hv, hsub, hw, ?_⟩
  rw [exec_expireShards_cons hlt.ne i ids expired inputs s (Prod.ext hv.answer rfl)]

lemma walk_spends (time : ℤ) (ids rest : List ShardId) (hnd : ids.Nodup) :
    ∀ (s : Store) (scanned expired : ℕ) (inputs : ℕ → Input), Dues due s → WellFormed s →
    scanned < n → n ≤ scanned + ((volatileIn s ids).map Finset.card).sum →
    ∃ keys' gone m, Spent due time (n - scanned) (volatileIn s ids) keys' gone m ∧
      Outcome ids s keys' (n, expired + gone) m
        (exec (expireShards time n (ids ++ rest) scanned expired) inputs s) := by
  induction ids with
  | nil =>
    intro s scanned expired inputs _ _ hlt hle
    simp only [volatileIn, List.map_nil, List.sum_nil] at hle
    omega
  | cons i ids ih =>
    intro s scanned expired inputs hd hs hlt hle
    obtain ⟨hi, hnd⟩ := List.nodup_cons.1 hnd
    obtain ⟨s₁, visited, -, hv, hsub, hs₁, hexec⟩ :=
      exec_visit time hd hs hlt i (ids ++ rest) expired inputs
    rw [List.cons_append, hexec]
    have hsame : volatileIn s₁ ids = volatileIn s ids := volatileIn_congr fun j hj => hv.others j
      fun h => hi (h ▸ hj)
    by_cases hfit : (s.shards i).volatile.card < n - scanned
    · obtain rfl : visited = (s.shards i).volatile :=
        Finset.eq_of_subset_of_card_le hv.sub (by rw [hv.card]; omega)
      have hle' :
          n ≤ scanned + (s.shards i).volatile.card + ((volatileIn s₁ ids).map Finset.card).sum := by
        rw [hsame, add_assoc]
        exact hle
      obtain ⟨keys', gone, m, hspent, hout⟩ := ih hnd s₁ (scanned + (s.shards i).volatile.card)
        (expired + ((s.shards i).volatile.filter (due · ≤ time)).card) (shift 1 inputs)
          (hd.of_view hsub) hs₁ (by omega) hle'
      rw [hsame, ← Nat.sub_sub] at hspent
      refine ⟨_, _, _, .whole hfit hspent, ?_⟩
      rw [← add_assoc]
      exact hout.cons hv hi
    · have hcard : visited.card = n - scanned := by
        rw [hv.card]
        omega
      refine ⟨_, _, _, .part (volatileIn s ids) hv.sub hcard, ?_⟩
      have hfull : scanned + visited.card = n := by omega
      rw [hfull, expireShards_spent]
      exact Outcome.cons hv hi (.spent s₁ hsame)

lemma MapOrder.first_take (visited : Finset Key) {l : List Key} (hl : l.Nodup)
    (hsub : ∀ key ∈ visited, key ∈ l) :
    (((MapOrder.first visited).keys l).take visited.card).toFinset = visited := by
  have hset : (l.filter fun key => decide (key ∈ visited)).toFinset = visited := by
    ext key
    simpa using hsub key
  have hlen : (l.filter fun key => decide (key ∈ visited)).length = visited.card := by
    rw [← List.toFinset_card_of_nodup (hl.filter _), hset]
  rw [MapOrder.first, List.take_left' hlen, hset]

lemma walk_steers {left : ℕ} {keys keys' : List (Finset Key)} {gone m : ℕ}
    (h : Spent due time left keys keys' gone m) (rest : List ShardId) :
    ∃ visited : Finset Key, ∀ (ids : List ShardId) (s : Store) (scanned expired : ℕ)
    (inputs : ℕ → Input), ids.Nodup → Dues due s → WellFormed s → scanned < n → left = n - scanned →
    keys = volatileIn s ids → (∀ i < m, (inputs i).order = .first visited) →
      Outcome ids s keys' (n, expired + gone) m
        (exec (expireShards time n (ids ++ rest) scanned expired) inputs s) := by
  induction h with
  | @whole left gone m keys others others' hfit _ ih =>
    obtain ⟨chosen, ih⟩ := ih
    refine ⟨chosen, fun ids s scanned expired inputs hnd hd hs hlt hleft hkeys horder => ?_⟩
    obtain ⟨i, ids, rfl, rfl, rfl⟩ := List.map_eq_cons_iff.1 hkeys.symm
    obtain ⟨hi, hnd⟩ := List.nodup_cons.1 hnd
    obtain ⟨s₁, visited, -, hv, hsub, hs₁, hexec⟩ :=
      exec_visit time hd hs hlt i (ids ++ rest) expired inputs
    obtain rfl : visited = (s.shards i).volatile :=
      Finset.eq_of_subset_of_card_le hv.sub (by rw [hv.card]; omega)
    rw [List.cons_append, hexec, ← add_assoc]
    refine Outcome.cons hv hi (ih ids s₁ _ _ _ hnd (hd.of_view hsub) hs₁ (by omega) (by omega) ?_
      fun j hj => horder (j + 1) (by omega))
    exact (volatileIn_congr fun j hj => hv.others j fun h => hi (h ▸ hj)).symm
  | @part left keys chosen others hsub hcard =>
    refine ⟨chosen, fun ids s scanned expired inputs hnd hd hs hlt hleft hkeys horder => ?_⟩
    obtain ⟨i, ids, rfl, rfl, rfl⟩ := List.map_eq_cons_iff.1 hkeys.symm
    obtain ⟨hi, hnd⟩ := List.nodup_cons.1 hnd
    obtain ⟨s₁, visited, hvis, hv, -, -, hexec⟩ :=
      exec_visit time hd hs hlt i (ids ++ rest) expired inputs
    obtain rfl : visited = chosen := by
      rw [hvis, horder 0 Nat.one_pos, ← hleft, ← hcard]
      exact MapOrder.first_take _ (s.shards i).expiring.nodupKeys fun key hk =>
        AList.mem_keys.1 (Shard.mem_volatile.1 (hsub hk))
    have hfull : scanned + visited.card = n := by omega
    rw [List.cons_append, hexec, hfull, expireShards_spent]
    refine Outcome.cons hv hi (.spent s₁ ?_)
    exact volatileIn_congr fun j hj => hv.others j fun h => hi (h ▸ hj)

lemma walk_arrives {key : Key} (rest ids : List ShardId) (hnd : ids.Nodup)
    (hkey : shardIndex key ∉ ids) :
    ∀ (s : Store) (scanned expired : ℕ) (inputs : ℕ → Input), Dues due s → WellFormed s →
    scanned + ((volatileIn s ids).map Finset.card).sum < n →
    key ∈ (s.shards (shardIndex key)).volatile → due key ≤ time →
    (∀ i, (inputs i).order = .first {key}) →
    (exec (expireShards time n (ids ++ shardIndex key :: rest) scanned expired) inputs s).2.2.view
      key = none := by
  induction ids with
  | nil =>
    intro s scanned expired inputs hd hs hlt hk hdue horder
    simp only [volatileIn, List.map_nil, List.sum_nil, add_zero] at hlt
    obtain ⟨s₁, visited, hvis, hv, hsub, hs₁, hexec⟩ :=
      exec_visit time hd hs hlt (shardIndex key) rest expired inputs
    rw [List.nil_append, hexec]
    have hmem : key ∈ visited := by
      have hfirst := MapOrder.first_take {key} (s.shards (shardIndex key)).expiring.nodupKeys
        fun key' hk' => AList.mem_keys.1 (Shard.mem_volatile.1 (Finset.mem_singleton.1 hk' ▸ hk))
      have hhead := Finset.mem_singleton_self key
      rw [← hfirst, ← horder 0, Finset.card_singleton, List.mem_toFinset] at hhead
      rw [hvis, List.mem_toFinset]
      exact (List.take_sublist_take_left (by omega)).subset hhead
    have hgone : s₁.view key = none := by
      rw [Option.eq_none_iff_forall_ne_some]
      intro it hit
      obtain ⟨it', d, hit', hd'⟩ := hs.mem_volatile.1 hk
      obtain rfl : it' = it := Option.some.inj (hit'.symm.trans (hsub key it hit))
      have hstill := hs₁.mem_volatile.2 ⟨it', d, hit, hd'⟩
      rw [hv.volatile, Finset.mem_sdiff, Finset.mem_filter] at hstill
      exact hstill.2 ⟨hmem, hdue⟩
    rw [Option.eq_none_iff_forall_ne_some]
    intro it hit
    have := dwindles_expireShards _ _ _ _ _ _ _ hs₁ key it hit
    rw [hgone] at this
    cases this
  | cons i ids ih =>
    intro s scanned expired inputs hd hs hlt hk hdue horder
    obtain ⟨hi, hnd⟩ := List.nodup_cons.1 hnd
    obtain ⟨hne, hkey⟩ := not_or.1 (mt List.mem_cons.2 hkey)
    have hsum : ((volatileIn s (i :: ids)).map Finset.card).sum =
      (s.shards i).volatile.card + ((volatileIn s ids).map Finset.card).sum := rfl
    have hroom : scanned < n := by omega
    obtain ⟨s₁, visited, -, hv, hsub, hs₁, hexec⟩ :=
      exec_visit time hd hs hroom i (ids ++ shardIndex key :: rest) expired inputs
    obtain rfl : visited = (s.shards i).volatile :=
      Finset.eq_of_subset_of_card_le hv.sub (by rw [hv.card]; omega)
    have hsame : volatileIn s₁ ids = volatileIn s ids := volatileIn_congr fun j hj => hv.others j
      fun h => hi (h ▸ hj)
    rw [List.cons_append, hexec]
    refine ih hnd hkey s₁ _ _ _ (hd.of_view hsub) hs₁ (by rw [hsame]; omega) ?_ hdue
      fun j => horder (j + 1)
    rwa [hv.others _ hne]

end Walk

section Rounds

variable {due : Key → ℤ} {key : Key}

lemma allShards_eq (i : ShardId) : allShards = shardsBefore i ++ i :: allShards.drop (i + 1) := by
  have hlen : (i : ℕ) < allShards.length := by simp [allShards]
  have hget : allShards[(i : ℕ)] = i := by simp [allShards]
  conv_lhs => rw [← List.take_append_drop i allShards, List.drop_eq_getElem_cons hlen, hget]
  rfl

lemma nodup_shardsBefore (i : ShardId) : (shardsBefore i).Nodup :=
  (List.nodup_finRange _).sublist (List.take_sublist _ _)

lemma notMem_shardsBefore (i : ShardId) : i ∉ shardsBefore i := by
  have h : allShards.Nodup := List.nodup_finRange shardCount
  rw [allShards_eq i] at h
  intro hi
  exact List.disjoint_of_nodup_append h hi List.mem_cons_self

lemma exec_expireSample (n : ℕ) (inputs : ℕ → Input) (s : Store) : exec (expireSample n) inputs s =
    let out := exec (expireShards (inputs 0).time n allShards 0 0) (shift 2 inputs)
      { s with clock := s.clock + 1 }
    (out.1, out.2.1 + 2, out.2.2) := rfl

lemma exec_expireRounds_succ {rounds scanned expired : ℕ} {inputs : ℕ → Input} {s s₁ : Store}
    {b : ℕ × ℕ} {m : ℕ} (h : exec (expireSample activeExpireSampleSize) inputs s = (b, m, s₁)) :
    (exec (expireRounds (rounds + 1) scanned expired) inputs s).2.2 =
      if b.1 = 0 ∨ 4 * b.2 < b.1 then s₁ else
      (exec (expireRounds rounds (scanned + b.1) (expired + b.2)) (shift m inputs) s₁).2.2 := by
  rw [expireRounds, exec_bind, h]
  dsimp only
  split_ifs <;> rfl

lemma Outcome.sample {ids : List ShardId} {keys' : List (Finset Key)} {n gone m : ℕ}
    (inputs : ℕ → Input) {s : Store}
    (h : Outcome ids { s with clock := s.clock + 1 } keys' (n, 0 + gone) m
      (exec (expireShards (inputs 0).time n allShards 0 0) (shift 2 inputs)
        { s with clock := s.clock + 1 })) :
    ∃ s₁, exec (expireSample n) inputs s = ((n, gone), m + 2, s₁) ∧ volatileIn s₁ ids = keys' ∧
      ∀ j, j ∉ ids → s₁.shards j = s.shards j := by
  refine ⟨_, ?_, h.volatile, h.others⟩
  rw [exec_expireSample]
  dsimp only
  rw [h.answer, h.taken, zero_add]

lemma dwindles_expireSample (n : ℕ) : Dwindles (expireSample n) := fun inputs s hs =>
  dwindles_expireShards (inputs 0).time n allShards 0 0 (shift 2 inputs)
    { s with clock := s.clock + 1 } hs

lemma view_of_shards {s s' : Store} (h : s'.shards (shardIndex key) = s.shards (shardIndex key)) :
    s'.view key = s.view key := by
  rw [view_apply, view_apply, lookup, lookup, readShard, readShard, h]

lemma inReach_of_gone (rounds : ℕ) :
    ∀ (s : Store) (scanned expired : ℕ) (inputs : ℕ → Input), Dues due s → WellFormed s →
    (s.view key).isSome →
    (exec (expireRounds rounds scanned expired) inputs s).2.2.view key = none →
    InReach due rounds (fun n => (inputs n).time)
      (volatileIn s (shardsBefore (shardIndex key))) := by
  induction rounds with
  | zero =>
    intro s scanned expired inputs _ _ hk hgone
    rw [show (exec (expireRounds 0 scanned expired) inputs s).2.2 = s from rfl] at hgone
    rw [hgone] at hk
    cases hk
  | succ rounds ih =>
    intro s scanned expired inputs hd hs hk hgone
    by_cases hfew : ((volatileIn s (shardsBefore (shardIndex key))).map Finset.card).sum <
      activeExpireSampleSize
    · exact .arrive hfew
    -- the round spends its budget before it comes to the shard of the key
    obtain ⟨keys', gone, m, hspent, hout⟩ :=
      walk_spends (n := activeExpireSampleSize) (inputs 0).time
      (shardsBefore (shardIndex key)) (shardIndex key :: allShards.drop (shardIndex key + 1))
        (nodup_shardsBefore _)
      { s with clock := s.clock + 1 } 0 0 (shift 2 inputs) hd hs (by decide)
        (by rw [zero_add]; exact not_lt.1 hfew)
    rw [← allShards_eq] at hout
    obtain ⟨s₁, hexec, hkeys, hothers⟩ := hout.sample inputs
    have hview : s₁.view key = s.view key := view_of_shards (hothers _ (notMem_shardsBefore _))
    rw [exec_expireRounds_succ hexec] at hgone
    split_ifs at hgone with hstop
    · rw [hview] at hgone
      rw [hgone] at hk
      cases hk
    · have hs₁ := exec_wellFormed (expireSample activeExpireSampleSize) inputs s hs
      have hsub := dwindles_expireSample activeExpireSampleSize inputs s hs
      rw [hexec] at hs₁ hsub
      have hrest := ih s₁ _ _ _ (hd.of_view hsub) hs₁ (by rwa [hview]) hgone
      rw [hkeys] at hrest
      exact .again hspent (not_lt.1 (not_or.1 hstop).2) hrest

lemma gone_of_inReach {rounds : ℕ} {clock : ℕ → ℤ} {keys : List (Finset Key)}
    (h : InReach due rounds clock keys) :
    ∀ (s : Store) (scanned expired : ℕ), Dues due s → WellFormed s →
    keys = volatileIn s (shardsBefore (shardIndex key)) →
    key ∈ (s.shards (shardIndex key)).volatile → (∀ n, due key ≤ clock n) →
    ∃ inputs, (∀ n, (inputs n).time = clock n) ∧
    (exec (expireRounds rounds scanned expired) inputs s).2.2.view key = none := by
  induction h with
  | @arrive rounds clock keys hfew =>
    intro s scanned expired hd hs hkeys hk hdue
    refine ⟨fun n => ⟨clock n, .first {key}⟩, fun _ => rfl, ?_⟩
    have hgone :
        (exec (expireSample activeExpireSampleSize) (fun n => ⟨clock n, .first {key}⟩) s).2.2.view
            key = none := by
      rw [exec_expireSample, allShards_eq (shardIndex key)]
      refine walk_arrives _ _ (nodup_shardsBefore _) (notMem_shardsBefore _) _ 0 0 _ hd hs ?_ hk
        (hdue 0) fun _ => rfl
      rw [zero_add]
      exact hkeys ▸ hfew
    have hs₁ :=
      exec_wellFormed (expireSample activeExpireSampleSize) (fun n => ⟨clock n, .first {key}⟩) s hs
    rw [exec_expireRounds_succ rfl]
    split_ifs
    · exact hgone
    · rw [Option.eq_none_iff_forall_ne_some]
      intro it hit
      have hit := dwindles_expireRounds _ _ _ _ _ hs₁ key it hit
      rw [hgone] at hit
      cases hit
  | @again rounds gone m clock keys keys' hspent hq _ ih =>
    intro s scanned expired hd hs hkeys hk hdue
    obtain ⟨visited, hsteer⟩ := walk_steers (n := activeExpireSampleSize) hspent
      (shardIndex key :: allShards.drop (shardIndex key + 1))
    have hout := hsteer (shardsBefore (shardIndex key)) { s with clock := s.clock + 1 } 0 0
      (shift 2 fun n => ⟨clock n, .first visited⟩) (nodup_shardsBefore _) hd hs
        (by decide) rfl hkeys fun _ _ => rfl
    rw [← allShards_eq] at hout
    obtain ⟨s₁, hexec, hkeys₁, hothers⟩ := hout.sample fun n => ⟨clock n, .first visited⟩
    have hs₁ := exec_wellFormed (expireSample activeExpireSampleSize)
      (fun n => ⟨clock n, .first visited⟩) s hs
    have hsub :=
      dwindles_expireSample activeExpireSampleSize (fun n => ⟨clock n, .first visited⟩) s hs
    rw [hexec] at hs₁ hsub
    obtain ⟨rest, htime, hgone⟩ := ih s₁ (scanned + activeExpireSampleSize) (expired + gone)
      (hd.of_view hsub) hs₁ hkeys₁.symm (by rwa [hothers _ (notMem_shardsBefore _)]) fun n => hdue _
    -- the orders of this round, and after them those of the rounds to come
    refine ⟨splice (m + 2) (fun n => ⟨clock n, .first visited⟩) rest, fun n => ?_, ?_⟩
    · by_cases hn : n < m + 2
      · rw [splice_of_lt hn]
      · rw [splice, if_neg hn, htime, shift_apply, Nat.sub_add_cancel (not_lt.1 hn)]
    · have hsame : exec (expireSample activeExpireSampleSize)
        (splice (m + 2) (fun n => ⟨clock n, .first visited⟩) rest) s =
          ((activeExpireSampleSize, gone), m + 2, s₁) := by
        rw [← hexec]
        refine exec_congr _ fun i hi => splice_of_lt ?_ _ _
        rw [hexec] at hi
        exact hi
      have hgo : ¬(activeExpireSampleSize = 0 ∨ 4 * gone < activeExpireSampleSize) := by
        rw [not_or, not_lt]
        exact ⟨by decide, hq⟩
      rw [exec_expireRounds_succ hsame, if_neg hgo, shift_splice]
      exact hgone

/-- Some order of the maps lets a cycle collect the key just when rounds can get past the shards
before its own. -/
theorem cycle_collects_iff_inReach {s : Store} (hs : WellFormed s) {it : Item}
    (hk : s.view key = some it) {d : ℤ} (hd : it.expiresAt = some d) (clock : ℕ → ℤ)
    (hclock : ∀ n, d ≤ clock n) :
    (∃ inputs, (∀ n, (inputs n).time = clock n) ∧
      (exec activeExpireCycle inputs s).2.2.view key = none) ↔
      InReach s.deadlineIn activeExpireMaxRounds clock
        (volatileIn s (shardsBefore (shardIndex key))) := by
  constructor
  · rintro ⟨inputs, htime, hgone⟩
    obtain rfl : (fun n => (inputs n).time) = clock := funext htime
    exact inReach_of_gone _ s 0 0 inputs (dues_deadlineIn s) hs
      (Option.isSome_iff_exists.2 ⟨it, hk⟩) hgone
  · intro h
    refine gone_of_inReach h s 0 0 (dues_deadlineIn s) hs rfl
      (hs.mem_volatile.2 ⟨it, d, hk, hd⟩) fun n => ?_
    rw [dues_deadlineIn s key it hk d hd]
    exact hclock n

def filled (keys : List (Key × ℤ)) : Store :=
  keys.foldl (fun s p => (exec (setWithTTL p.1 [] p.2) (fun _ => ⟨0, .stored⟩) s).2.2) new

lemma filled_wellFormed (keys : List (Key × ℤ)) : WellFormed (filled keys) := by
  suffices h : ∀ s, WellFormed s → WellFormed
        (keys.foldl (fun s p => (exec (setWithTTL p.1 [] p.2) (fun _ => ⟨0, .stored⟩) s).2.2) s)
          from h new new_wellFormed
  induction keys with
  | nil => exact fun s hs => hs
  | cons p keys ih => exact fun s hs => ih _ (exec_wellFormed _ _ s hs)

def shieldedBy (n : ℕ) : Store :=
  filled (((List.range n).map fun i => ([97 + i.toUInt8], 1000)) ++ [([64], 1)])

theorem cycle_collects_behind_nineteen :
    ((volatileIn (shieldedBy 19) (shardsBefore (shardIndex [64]))).map Finset.card).sum = 19 ∧
      ∃ inputs, (∀ n, (inputs n).time = 1) ∧
        (exec activeExpireCycle inputs (shieldedBy 19)).2.2.view [64] = none := by
  have hk : (shieldedBy 19).view [64] = some ⟨[], some 1⟩ := by decide +kernel
  have hfew :
      ((volatileIn (shieldedBy 19) (shardsBefore (shardIndex [64]))).map Finset.card).sum = 19 := by
    decide +kernel
  exact ⟨hfew,
    (cycle_collects_iff_inReach (filled_wellFormed _) hk rfl (fun _ => 1) fun _ => le_rfl).2
    (.arrive (hfew ▸ by decide))⟩

lemma Spent.eq_zero {time : ℤ} {left gone m : ℕ} {keys keys' : List (Finset Key)}
    (h : Spent due time left keys keys' gone m)
    (hlive : ∀ shard ∈ keys, ∀ key ∈ shard, time < due key) : gone = 0 := by
  have hnone {shard : Finset Key} (hs : ∀ key ∈ shard, time < due key) :
      (shard.filter (due · ≤ time)).card = 0 :=
    Finset.card_eq_zero.2 (Finset.filter_eq_empty_iff.2 fun key hk => not_le.2 (hs key hk))
  induction h with
  | whole _ _ ih =>
    rw [hnone (hlive _ List.mem_cons_self), ih fun shard hs =>
      hlive shard (List.mem_cons_of_mem _ hs)]
  | part _ hsub _ => exact hnone fun key hk => hlive _ List.mem_cons_self key (hsub hk)

lemma not_inReach_of_live {rounds : ℕ} {clock : ℕ → ℤ} {keys : List (Finset Key)}
    (hmany : activeExpireSampleSize ≤ (keys.map Finset.card).sum)
    (hlive : ∀ shard ∈ keys, ∀ key ∈ shard, clock 0 < due key) :
    ¬InReach due rounds clock keys := by
  intro h
  cases h with
  | arrive hfew => omega
  | again hspent hq _ =>
    rw [hspent.eq_zero hlive] at hq
    exact absurd hq (by decide)

theorem cycle_misses_shielded : (shieldedBy 20).view [64] = some ⟨[], some 1⟩ ∧
    ∀ inputs, (∀ n, 1 ≤ (inputs n).time ∧ (inputs n).time < 1000) →
      (exec activeExpireCycle inputs (shieldedBy 20)).2.2.view [64] ≠ none := by
  have hview : (shieldedBy 20).view [64] = some ⟨[], some 1⟩ := by decide +kernel
  refine ⟨hview, fun inputs htime hgone => ?_⟩
  have hreach := inReach_of_gone _ (shieldedBy 20) 0 0 inputs (dues_deadlineIn (shieldedBy 20))
    (filled_wellFormed _) (by rw [hview]; rfl) hgone
  refine not_inReach_of_live (by decide +kernel) (fun shard hs key hk => ?_) hreach
  have hall : ∀ shard ∈ volatileIn (shieldedBy 20) (shardsBefore (shardIndex [64])), ∀ key ∈ shard,
      (shieldedBy 20).deadlineIn key = 1000 := by
    decide +kernel
  rw [hall shard hs key hk]
  exact (htime 0).2

end Rounds

end RedisClone.Store
