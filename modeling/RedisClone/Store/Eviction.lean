import RedisClone.Store.Concurrency
import RedisClone.Store.Footprint

namespace RedisClone.Store

open Lib Lib.Program

section Settings

def Act.counts : Act → ℕ
  | .evicted => 1
  | _ => 0

lemma perform_settings (a : Act) (i : Input) (s : Store) :
    (perform a i s).2.maxMemory = s.maxMemory ∧ (perform a i s).2.policy = s.policy ∧
      (perform a i s).2.stats.evictedKeys = s.stats.evictedKeys + a.counts := by
  have hstats {s s' : Store} (h : s'.maxMemory = s.maxMemory ∧ s'.policy = s.policy ∧
      s'.stats = s.stats) : s'.maxMemory = s.maxMemory ∧ s'.policy = s.policy ∧
          s'.stats.evictedKeys = s.stats.evictedKeys :=
    ⟨h.1, h.2.1, congrArg Stats.evictedKeys h.2.2⟩
  cases a with
  | mset pairs => exact hstats (msetSection_settings pairs s)
  | del keys now => exact hstats (delSection_settings now keys s)
  | expireAt key deadline now => exact hstats (expireAtSection_settings s key deadline now)
  | getRead key now =>
    simp only [perform, getReadSection]
    cases s.lookup key with
    | none => exact ⟨rfl, rfl, rfl⟩
    | some e =>
      simp only
      split_ifs <;> exact ⟨rfl, rfl, rfl⟩
  | getCollect key => exact hstats (getCollectSection_settings s key i.time)
  | _ => exact ⟨rfl, rfl, rfl⟩

end Settings

section Choice

def Keyspace.evictable (policy : EvictionPolicy) (ks : Keyspace) (key : Key) : Bool :=
  (ks key).any fun it => decide (policy = .volatileLRU → it.expiresAt ≠ none)

lemma sampleKeys_choice {s : Store} {P : Key → Prop} (keys : List Key) (hP : ∀ key ∈ keys, P key)
    (sample : Sample) (hs : ∀ best ∈ sample.best, P best.1) :
    ∀ best ∈ (sampleKeys s keys sample).best, P best.1 := by
  intro best hb
  rcases sampleKeys_best s keys sample best hb with hb | ⟨hkey, -⟩
  · exact hs best hb
  · exact hP best.1 hkey

lemma evictable_of_expiring {s : Store} (hs : WellFormed s) {i : ShardId} {key : Key}
    (policy : EvictionPolicy) (hk : key ∈ (s.shards i).expiring) :
    s.view.evictable policy key = true := by
  obtain ⟨e, he, hz⟩ := ((hs i).indexed key).1 hk
  have hi := (hs i).routed key (AList.lookup_isSome.1 (he ▸ rfl))
  have hl : s.lookup key = some e := by
    rw [lookup, readShard, hi]
    exact he
  have hd : e.expiresAt ≠ none := fun h => by simp [h, Time.isZero] at hz
  simp [Keyspace.evictable, view_apply, hl, Entry.item, hd]

lemma evictable_of_data {s : Store} (hs : WellFormed s) {i : ShardId} {key : Key}
    {policy : EvictionPolicy} (hp : policy ≠ .volatileLRU) (hk : key ∈ (s.shards i).data) :
    s.view.evictable policy key = true := by
  have hi := (hs i).routed key hk
  obtain ⟨e, he⟩ := Option.isSome_iff_exists.1 (AList.lookup_isSome.2 hk)
  have hl : s.lookup key = some e := by
    rw [lookup, readShard, hi]
    exact he
  simp [Keyspace.evictable, view_apply, hl, hp]

def SampleAnswer.choice : SampleAnswer → Option Key
  | .victim key => some key
  | .more sample => sample.best.map Prod.fst

lemma sampleShardSection_choice {s : Store} (hs : WellFormed s) (i : ShardId) (sample : Sample)
    (order : MapOrder) (hbest : ∀ best ∈ sample.best, s.view.evictable s.policy best.1 = true) :
    ∀ key ∈ (s.sampleShardSection i sample order).choice, s.view.evictable s.policy key = true := by
  have hmore {sample : Sample} (h : ∀ best ∈ sample.best, s.view.evictable s.policy best.1 = true) :
      ∀ key ∈ (SampleAnswer.more sample).choice, s.view.evictable s.policy key = true := by
    intro key hk
    obtain ⟨best, hb, rfl⟩ := Option.mem_map.1 hk
    exact h best hb
  have hdata (hp : s.policy ≠ .volatileLRU) :
      ∀ key ∈ order.keys (s.shards i).data.keys, s.view.evictable s.policy key = true :=
    fun key hk => evictable_of_data hs hp ((order.perm _).mem_iff.1 hk)
  unfold sampleShardSection
  cases hp : s.policy with
  | volatileLRU =>
    rw [hp] at hmore hbest
    refine hmore (sampleKeys_choice (P := fun key => s.view.evictable .volatileLRU key = true) _
      (fun key hk => ?_) sample hbest)
    exact evictable_of_expiring hs _ ((order.perm _).mem_iff.1 hk)
  | allKeysRandom =>
    simp only [hp] at hmore hbest hdata ⊢
    have hdata := hdata (by decide)
    cases hk : order.keys (s.shards i).data.keys with
    | nil => exact hmore hbest
    | cons key keys =>
      intro key' hk'
      rw [← Option.some.inj hk']
      exact hdata key (hk ▸ List.mem_cons_self)
  | noEviction | allKeysLRU =>
    simp only [hp] at hmore hbest hdata ⊢
    exact hmore (sampleKeys_choice _ (hdata (by decide)) sample hbest)

end Choice

section Walk

/-- How far an eviction has come: the key it is about to remove, the keys it has removed, and
how many of these it has counted. -/
structure Progress where
  candidate : Option Key
  removed : ℕ
  counted : ℕ

def Progress.allows (g : Progress) : Act → Prop
  | .sampleShard _ sample => g.candidate = sample.best.map Prod.fst ∧ g.removed = g.counted
  | .delete key => g.candidate = some key ∧ g.removed = g.counted
  | .evicted => g.candidate = none ∧ g.removed = g.counted + 1
  | a => (a.plumbing = true ∨ ∃ i, a = .shardUsed i) ∧ g.candidate = none ∧ g.removed = g.counted

def Progress.next (g : Progress) : (a : Act) → a.Resp → Progress
  | .sampleShard _ _, r => { g with candidate := SampleAnswer.choice r }
  | .delete _, _ => ⟨none, g.removed + 1, g.counted⟩
  | .evicted, _ => { g with counted := g.counted + 1 }
  | _, _ => g

def Progress.ended (g : Progress) (e : Enforced) : Prop := g = ⟨none, e.evicted, e.evicted⟩

variable {α : Type} {D : Progress → α → Prop}

abbrev Paced (D : Progress → α → Prop) (g : Progress) (p : Prog α) : Prop :=
  Follows (S := sig) (fun _ _ => True) Progress.allows Progress.next D g p

lemma paced_act {g : Progress} {a : Act} {f : a.Resp → Prog α} (ha : g.allows a)
    (hf : ∀ r, Paced D (g.next a r) (f r)) :
    Paced D g (invoke a >>= f) := Follows.act ha fun r _ => hf r

lemma paced_used (n : ℕ) : Paced (fun g _ => g = ⟨none, n, n⟩) ⟨none, n, n⟩ used := by
  refine Follows.of_within (S := sig) (P := fun a => ∃ i, a = .shardUsed i) ?_ ?_
    (within_used fun i => ⟨i, rfl⟩)
  · rintro _ ⟨i, rfl⟩
    exact ⟨.inr ⟨i, rfl⟩, rfl, rfl⟩
  · rintro _ _ ⟨i, rfl⟩
    rfl

lemma paced_sampleShards (n : ℕ) (ids : List ShardId) : ∀ sample : Sample,
    Paced (fun g key => g = ⟨key, n, n⟩) ⟨sample.best.map Prod.fst, n, n⟩
      (sampleShards ids sample) := by
  induction ids with
  | nil => exact fun sample => .done rfl
  | cons i ids ih =>
    intro sample
    refine paced_act (a := .sampleShard i sample) ⟨rfl, rfl⟩ fun r => ?_
    cases r with
    | victim key => exact .done rfl
    | more sample' =>
      simp only
      split_ifs
      · exact .done rfl
      · exact ih sample'

lemma paced_evictLoop (maxMemory : ℤ) (fuel : ℕ) :
    ∀ n, Paced Progress.ended ⟨none, n, n⟩ (evictLoop maxMemory fuel n) := by
  induction fuel with
  | zero => exact fun n => .done rfl
  | succ fuel ih =>
    intro n
    refine (paced_used n).bind fun g used hg => ?_
    subst hg
    split_ifs
    · refine (paced_sampleShards n allShards ⟨none, 0⟩).bind fun g victim hg => ?_
      subst hg
      cases victim with
      | none =>
        exact paced_act (a := .unlockDurableMutation) ⟨.inl rfl, rfl, rfl⟩ fun _ => .done rfl
      | some key =>
        exact paced_act (a := .delete key) ⟨rfl, rfl⟩ fun _ => paced_act (a := .evicted)
            ⟨rfl, rfl⟩ fun _ =>
          paced_act (a := .propagate _) ⟨.inl rfl, rfl, rfl⟩ fun _ => ih (n + 1)
    · exact paced_act (a := .unlockDurableMutation) ⟨.inl rfl, rfl, rfl⟩ fun _ => .done rfl

lemma paced_enforceMemoryLimit (fuel : ℕ) :
    Paced Progress.ended ⟨none, 0, 0⟩ (enforceMemoryLimit fuel) := by
  have hunlock (ok : Bool) : Paced Progress.ended ⟨none, 0, 0⟩
      (invoke .unlockDurableMutation >>= fun _ => (pure (.finished 0 ok) : Prog Enforced)) :=
    paced_act (a := .unlockDurableMutation) ⟨.inl rfl, rfl, rfl⟩ fun _ => .done rfl
  refine paced_act (a := .config) ⟨.inl rfl, rfl, rfl⟩ fun r => ?_
  obtain ⟨maxMemory, policy⟩ := r
  simp only
  split
  · exact .done rfl
  · refine paced_act (a := .lockDurableMutation) ⟨.inl rfl, rfl, rfl⟩ fun _ =>
      (paced_used 0).bind fun g used hg => ?_
    subst hg
    split_ifs
    · exact hunlock true
    · exact hunlock false
    · exact paced_evictLoop maxMemory fuel 0

end Walk

section Run

variable {ι : Type} [DecidableEq ι]

def evicting (calls : ι → Call) (inputs : ι → ℕ → Input) (c : Threads ι Reply) (t : ι) :
    Option Key :=
  match calls t, c.next World.act inputs t with
  | .enforceMemoryLimit _, some (.delete key) => some key
  | _, _ => none

def candidate (calls : ι → Call) (c : Threads ι Reply) (t : ι) : Option Key :=
  match calls t, c.prog t with
  | .enforceMemoryLimit _, .act (.sampleShard _ sample) _ => sample.best.map Prod.fst
  | .enforceMemoryLimit _, .act (.delete key) _ => some key
  | _, _ => none

/-- No candidate of another thread becomes one that may not be evicted by this step. -/
def SparesCandidates (calls : ι → Call) (inputs : ι → ℕ → Input) (policy : EvictionPolicy)
    (c : Threads ι Reply) (t : ι) : Prop :=
  ∀ u ≠ t, ∀ key ∈ candidate calls c u, c.world.store.view.evictable policy key = true →
    (c.step World.act inputs t).world.store.view.evictable policy key = true

def evicts (calls : ι → Call) (inputs : ι → ℕ → Input) (t : ι) (c : Threads ι Reply) (u : ι) :
    Bool :=
  decide (u = t) && (evicting calls inputs c u).any fun key => (c.world.store.view key).isSome

def owes (c : Threads ι Reply) (t : ι) : Bool :=
  match c.prog t with
  | .act .evicted _ => true
  | _ => false

lemma Progress.next_counted (g : Progress) (a : Act) (r : a.Resp) :
    (g.next a r).counted = g.counted + a.counts := by
  cases a <;> rfl

def EvictsNothing (p : Prog Reply) : Prop :=
  Obeys (S := sig) (fun a => a.counts = 0) (fun _ _ => True) (fun r => ∀ e, r ≠ .enforced e) p

def Keeping : Call → Progress → Prog Reply → Prop
  | .enforceMemoryLimit _, g, p => Paced (fun g r => ∃ e, r = .enforced e ∧ g.ended e) g p
  | _, g, p => g = ⟨none, 0, 0⟩ ∧ EvictsNothing p

lemma keeping_program (call : Call) : Keeping call ⟨none, 0, 0⟩ call.program := by
  have hP : Plumbed fun a => a.counts = 0 := ⟨fun a ha => by cases a <;> first | rfl | cases ha⟩
  cases call with
  | enforceMemoryLimit fuel =>
    refine (paced_enforceMemoryLimit fuel).bind fun g e hg => .done ⟨e, rfl, hg⟩
  | activeExpireCycle =>
    have hcycle : Only (S := sig) (fun a => a.counts = 0) Store.activeExpireCycle :=
      within_activeExpireCycle rfl rfl fun _ _ _ _ => rfl
    exact ⟨rfl,
      Obeys.map _ (hcycle.mono (fun _ h => h) (fun _ _ h => h) fun _ _ e he => by cases he)⟩
  | op o =>
    refine ⟨rfl, Obeys.map _
      (o.touches_program.mono (fun a ha => ?_) (fun _ _ h => h) fun _ _ e he => by cases he)⟩
    cases ha with
    | plumbing h => exact hP.plumbing a h
    | _ => rfl

omit [DecidableEq ι] in
lemma Keeping.candidate {calls : ι → Call} {c : Threads ι Reply} {t : ι} {g : Progress}
    (h : Keeping (calls t) g (c.prog t)) : candidate calls c t = g.candidate := by
  unfold Store.candidate
  cases hc : calls t with
  | op | activeExpireCycle =>
    rw [hc] at h
    rw [h.1]
  | enforceMemoryLimit fuel =>
    rw [hc] at h
    cases hp : c.prog t with
    | done b =>
      rw [hp] at h
      obtain ⟨e, -, he⟩ := Follows.result h
      rw [he]
    | act a k =>
      rw [hp] at h
      have ha := (Follows.next h).1
      cases a with
      | sampleShard | delete => exact ha.1.symm
      | evicted => exact ha.1.symm
      | _ => exact ha.2.1.symm

omit [DecidableEq ι] in
lemma Keeping.owes {c : Threads ι Reply} {call : Call} {t : ι} {g : Progress}
    (h : Keeping call g (c.prog t)) : g.removed = g.counted + if owes c t then 1 else 0 := by
  unfold Store.owes
  cases call with
  | op | activeExpireCycle =>
    obtain ⟨rfl, h⟩ := h
    cases hp : c.prog t with
    | done b => rfl
    | act a k =>
      rw [hp] at h
      have ha := (Obeys.next h).1
      cases a <;> first | rfl | cases ha
  | enforceMemoryLimit fuel =>
    cases hp : c.prog t with
    | done b =>
      rw [hp] at h
      obtain ⟨e, -, rfl⟩ := Follows.result h
      rfl
    | act a k =>
      rw [hp] at h
      have ha := (Follows.next h).1
      cases a with
      | sampleShard | delete | evicted => exact ha.2
      | _ => exact ha.2.2

variable [Fintype ι]

structure Tracked (calls : ι → Call) (policy : EvictionPolicy) (g : ι → Progress)
    (c : Threads ι Reply) : Prop where
  wellFormed : WellFormed c.world.store
  samePolicy : c.world.store.policy = policy
  keeping : ∀ t, Keeping (calls t) (g t) (c.prog t)
  candidates : ∀ t, ∀ key ∈ (g t).candidate, c.world.store.view.evictable policy key = true
  counted : c.world.store.stats.evictedKeys = ∑ t, (g t).counted

variable {calls : ι → Call} {policy : EvictionPolicy} {inputs : ι → ℕ → Input} {g : ι → Progress}
  {c c' : Threads ι Reply} {t : ι} {a : Act} {r : a.Resp}

lemma Tracked.spared (h : Tracked calls policy g c) (hu : SparesCandidates calls inputs policy c t)
    {u : ι} (hut : u ≠ t) (hm : c.Moves World.act inputs t a r c') :
    ∀ key ∈ (g u).candidate, c'.world.store.view.evictable policy key = true := by
  intro key hk
  rw [← hm.step_eq]
  exact hu u hut key ((h.keeping u).candidate ▸ hk) (h.candidates u key hk)

lemma Tracked.other (h : Tracked calls policy g c) (hu : SparesCandidates calls inputs policy c t)
    (hm : c.Moves World.act inputs t a r c') (ht : ∀ fuel, calls t ≠ .enforceMemoryLimit fuel) :
    Tracked calls policy g c' := by
  obtain ⟨k, hk, hprog⟩ := hm.prog
  have hperf := World.act_perform hm.acts
  have hset := perform_settings a (inputs t (c.taken t)) c.world.store
  have hkeep := h.keeping t
  rw [hk] at hkeep
  have hgt : g t = ⟨none, 0, 0⟩ ∧ EvictsNothing (.act a k) := by
    cases hc : calls t with
    | enforceMemoryLimit fuel => exact absurd hc (ht fuel)
    | op | activeExpireCycle =>
      rw [hc] at hkeep
      exact hkeep
  rw [hperf, (Obeys.next hgt.2).1] at hset
  refine ⟨(World.act_spec h.wellFormed hm.acts).wellFormed, hset.2.1.trans h.samePolicy,
    fun u => ?_, fun u => ?_, hset.2.2.trans h.counted⟩
  · by_cases hut : u = t
    · subst hut
      rw [hprog, Function.update_self]
      cases hc : calls u with
      | enforceMemoryLimit fuel => exact absurd hc (ht fuel)
      | op | activeExpireCycle => exact ⟨hgt.1, (Obeys.next hgt.2).2 r trivial⟩
    · rw [hm.prog_of_ne hut]
      exact h.keeping u
  · by_cases hut : u = t
    · subst hut
      rw [hgt.1]
      exact fun _ hk => absurd hk (Option.not_mem_none _)
    · exact h.spared hu hut hm

lemma Tracked.enforcing (h : Tracked calls policy g c)
    (hu : SparesCandidates calls inputs policy c t) (hm : c.Moves World.act inputs t a r c')
    {fuel : ℕ} (ht : calls t = .enforceMemoryLimit fuel) :
    Tracked calls policy (Function.update g t ((g t).next a r)) c' := by
  obtain ⟨k, hk, hprog⟩ := hm.prog
  have hperf := World.act_perform hm.acts
  have hset := perform_settings a (inputs t (c.taken t)) c.world.store
  have hkeep := h.keeping t
  rw [hk, ht] at hkeep
  obtain ⟨hallows, hrest⟩ := Follows.next hkeep
  rw [hperf] at hset
  refine ⟨(World.act_spec h.wellFormed hm.acts).wellFormed, hset.2.1.trans h.samePolicy,
    fun u => ?_, fun u => ?_, ?_⟩
  · by_cases hut : u = t
    · subst hut
      rw [hprog, Function.update_self, Function.update_self, ht]
      exact hrest r trivial
    · rw [hm.prog_of_ne hut, Function.update_of_ne hut]
      exact h.keeping u
  · by_cases hut : u = t
    · subst hut
      rw [Function.update_self]
      cases a with
      | sampleShard i sample =>
        have hr : (r, c'.world.store) =
          (c.world.store.sampleShardSection i sample _, c.world.store) := hperf.symm
        obtain ⟨rfl, hw⟩ := Prod.mk.inj hr
        rw [hw, ← h.samePolicy]
        refine sampleShardSection_choice h.wellFormed i sample _ fun best hb => ?_
        rw [h.samePolicy]
        exact h.candidates u best.1 (hallows.1 ▸ Option.mem_map_of_mem _ hb)
      | delete => exact fun key hk => absurd hk (Option.not_mem_none _)
      | evicted => exact fun key hk => absurd (hallows.1 ▸ hk) (Option.not_mem_none _)
      | _ => exact fun key hk => absurd (hallows.2.1 ▸ hk) (Option.not_mem_none _)
    · rw [Function.update_of_ne hut]
      exact h.spared hu hut hm
  · have hg (u : ι) : (Function.update g t ((g t).next a r) u).counted = (g u).counted + if u =
        t then a.counts else 0 := by
      by_cases hut : u = t
      · subst hut
        simp [Progress.next_counted]
      · simp [hut]
    simp only [hg, Finset.sum_add_distrib, Finset.sum_ite_eq', Finset.mem_univ, if_true]
    rw [hset.2.2, h.counted]

lemma Tracked.step (h : Tracked calls policy g c) (hu : SparesCandidates calls inputs policy c t) :
    ∃ g' : ι → Progress, Tracked calls policy g' (c.step World.act inputs t) ∧
      (∀ u, (g' u).removed = (g u).removed + if evicts calls inputs u c t then 1 else 0) ∧
      ∀ key ∈ evicting calls inputs c t, c.world.store.view.evictable policy key = true := by
  have hnone (he : evicting calls inputs c t = none) :
      (∀ u, (g u).removed = (g u).removed + if evicts calls inputs u c t then 1 else 0) ∧
        ∀ key ∈ evicting calls inputs c t, c.world.store.view.evictable policy key = true :=
    ⟨fun u => by simp [evicts, he], fun key hk => by simp [he] at hk⟩
  rcases c.step_cases World.act inputs t with ⟨hs, hn⟩ | ⟨a, r, hm⟩
  · refine ⟨g, hs.symm ▸ h, hnone ?_⟩
    cases hc : calls t <;> simp only [evicting, hc, hn]
  by_cases ht : ∃ fuel, calls t = .enforceMemoryLimit fuel
  · obtain ⟨fuel, ht⟩ := ht
    refine ⟨_, h.enforcing hu hm ht, ?_⟩
    obtain ⟨k, hk, -⟩ := hm.prog
    have hkeep := h.keeping t
    rw [hk, ht] at hkeep
    have hallows := (Follows.next hkeep).1
    cases a with
    | delete key =>
      have he : evicting calls inputs c t = some key := by simp only [evicting, ht, hm.next]
      have hcan := h.candidates t key (by rw [hallows.1]; rfl)
      have hthere : (c.world.store.view key).isSome = true := by
        unfold Keyspace.evictable at hcan
        cases hv : c.world.store.view key with
        | none => simp [hv] at hcan
        | some it => rfl
      refine ⟨fun u => ?_, fun key' hk' => ?_⟩
      · by_cases hut : u = t
        · subst hut
          simp [evicts, he, hthere, Progress.next]
        · simp [evicts, hut, Ne.symm hut]
      · rw [he] at hk'
        rwa [← Option.some.inj hk']
    | _ =>
      have he : evicting calls inputs c t = none := by simp only [evicting, ht, hm.next]
      refine ⟨fun u => ?_, (hnone he).2⟩
      rw [← (hnone he).1 u]
      by_cases hut : u = t
      · subst hut
        rw [Function.update_self]
        rfl
      · rw [Function.update_of_ne hut]
  · refine ⟨g, h.other hu hm fun fuel hf => ht ⟨fuel, hf⟩, hnone ?_⟩
    unfold evicting
    cases hc : calls t with
    | enforceMemoryLimit fuel => exact absurd ⟨fuel, hc⟩ ht
    | op | activeExpireCycle => rfl

lemma Tracked.after (schedule : List ι) :
    ∀ {g : ι → Progress} {c : Threads ι Reply}, Tracked calls policy g c →
    c.Along World.act inputs (SparesCandidates calls inputs policy) schedule →
    ∃ g' : ι → Progress, Tracked calls policy g' (c.after World.act inputs schedule) ∧
      (∀ u, (g' u).removed = (g u).removed + c.tally World.act inputs
        (evicts calls inputs u) schedule) ∧
      c.Along World.act inputs (fun c t => ∀ key ∈ evicting calls inputs c t,
        c.world.store.view.evictable policy key = true) schedule := by
  induction schedule with
  | nil => exact fun {g c} h _ => ⟨g, h, fun u => rfl, trivial⟩
  | cons t ts ih =>
    rintro g c h ⟨hu, hrest⟩
    obtain ⟨g₁, h₁, hr₁, he₁⟩ := h.step hu
    obtain ⟨g₂, h₂, hr₂, he₂⟩ := ih h₁ hrest
    refine ⟨g₂, h₂, fun u => ?_, he₁, he₂⟩
    rw [hr₂, hr₁, Config.tally, Nat.add_assoc]

/-- In a run in which no step takes a candidate for eviction away from another thread, every
eviction removes a key that the policy lets go, and the counts are those of the keys removed. -/
theorem evictions_respect_policy (calls : ι → Call) (journalled : Bool) (maxMemory : ℤ)
    (policy : EvictionPolicy) (inputs : ι → ℕ → Input) (schedule : List ι)
    (hu : (booted journalled maxMemory policy fun t => (calls t).program).Along World.act inputs
      (SparesCandidates calls inputs policy) schedule) :
    let c := booted journalled maxMemory policy fun t => (calls t).program
    let c' := c.after World.act inputs schedule
    c.Along World.act inputs (fun c t => ∀ key ∈ evicting calls inputs c t,
        ∃ it, c.world.store.view key = some it ∧ (policy = .volatileLRU → it.expiresAt ≠ none))
          schedule ∧
      (c'.world.store.stats.evictedKeys + (Finset.univ.filter fun t => owes c' t).card =
        ∑ t, c.tally World.act inputs (evicts calls inputs t) schedule) ∧
      ∀ t evicted ok, c'.result t = some (.enforced (.finished evicted ok)) →
        evicted = c.tally World.act inputs (evicts calls inputs t) schedule := by
  intro c c'
  have hstart : Tracked calls policy (fun _ => ⟨none, 0, 0⟩) c := by
    refine ⟨configured_wellFormed _ _ _, ?_, fun t => keeping_program (calls t),
      fun t key hk => ?_, ?_⟩
    · cases journalled <;> rfl
    · exact absurd hk (Option.not_mem_none _)
    · simp only [Finset.sum_const_zero]
      cases journalled <;> rfl
  obtain ⟨g, h, hremoved, hevicts⟩ := hstart.after schedule hu
  simp only [Nat.zero_add] at hremoved
  refine ⟨hevicts.mono fun c t he key hk => ?_, ?_, fun t evicted ok hr => ?_⟩
  · obtain ⟨it, hit, hd⟩ := (Option.any_eq_true _ _).1 (he key hk)
    exact ⟨it, hit, of_decide_eq_true hd⟩
  · rw [h.counted, Finset.card_filter, ← Finset.sum_add_distrib]
    refine Finset.sum_congr rfl fun t _ => ?_
    rw [← hremoved t, (h.keeping t).owes]
  · have hkeep := h.keeping t
    rw [Config.result_eq_some.1 hr] at hkeep
    rw [← hremoved t]
    cases hc : calls t with
    | enforceMemoryLimit fuel =>
      rw [hc] at hkeep
      obtain ⟨e, he, hg⟩ := Follows.result hkeep
      rw [hg, ← Reply.enforced.inj he]
      rfl
    | op | activeExpireCycle =>
      rw [hc] at hkeep
      exact absurd rfl (hkeep.2.result _)

instance (calls : ι → Call) (inputs : ι → ℕ → Input) (policy : EvictionPolicy)
    (c : Threads ι Reply) (t : ι) : Decidable (SparesCandidates calls inputs policy c t) :=
  inferInstanceAs (Decidable (∀ u, u ≠ t → ∀ key ∈ candidate calls c u, _ → _))

def crowded (other : Op) : Fin 3 → Call :=
  ![.op (.setWithTTL [107] [118] 10), .enforceMemoryLimit 2, .op other]

def crowdedClock : Fin 3 → ℕ → Input := fun t _ => ⟨if t = 0 then 0 else 100, .stored⟩

def crowdedStart (journalled : Bool) (other : Op) : Threads (Fin 3) Reply :=
  booted journalled 1 .volatileLRU fun t => (crowded other t).program

def chosen : List (Fin 3) := List.replicate 5 0 ++ List.replicate 98 1

/-- The chosen key is given another value and a later deadline by the other client, and evicted all
the same. -/
theorem evictions_respect_policy_setMeanwhile :
    let other := .setWithTTL [107] [119] 50
    let c := crowdedStart false other
    let schedule := chosen ++ List.replicate 5 2 ++ List.replicate 36 1
    let c' := c.after World.act crowdedClock schedule
    c.Along World.act crowdedClock
      (SparesCandidates (crowded other) crowdedClock .volatileLRU) schedule ∧
      c'.result 2 = some (.answer .unit) ∧ c'.result 1 = some (.enforced (.finished 1 true)) ∧
      1 = c.tally World.act crowdedClock (evicts (crowded other) crowdedClock 1) schedule := by
  intro other c schedule c'
  have hu : c.Along World.act crowdedClock
      (SparesCandidates (crowded other) crowdedClock .volatileLRU) schedule := by
    decide +kernel
  have hset : c'.result 2 = some (.answer .unit) := by decide +kernel
  have hr : c'.result 1 = some (.enforced (.finished 1 true)) := by decide +kernel
  have hrespects :=
    evictions_respect_policy (crowded other) false 1 .volatileLRU crowdedClock schedule hu
  exact ⟨hu, hset, hr, hrespects.2.2 1 1 true hr⟩

/-- With a journal: a `Get` collects the chosen key, and an eviction is counted that removed
nothing. Without one: a `Set` makes the chosen key persistent, and it is evicted all the same. -/
theorem eviction_of_changed_key :
    (let c := crowdedStart true (.get [107])
      let schedule := chosen ++ List.replicate 3 2 ++ List.replicate 36 1
      let c' := c.after World.act crowdedClock schedule
      c'.result 1 = some (.enforced (.finished 1 true)) ∧ c'.world.store.stats.evictedKeys = 1 ∧
        ∀ t, c.tally World.act crowdedClock (evicts (crowded (.get [107])) crowdedClock t)
          schedule = 0) ∧
    (let c := crowdedStart false (.set [107] [119])
      let c' := c.after World.act crowdedClock (chosen ++ List.replicate 4 2)
      evicting (crowded (.set [107] [119])) crowdedClock c' 1 = some [107] ∧
        c'.world.store.view [107] = some ⟨[119], none⟩) := by
  decide +kernel

end Run

end RedisClone.Store
