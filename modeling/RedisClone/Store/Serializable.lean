import RedisClone.Store.CommitOrder

/-! Calls that run at once on a store with a journal, compared with the same calls run one after
another. -/

namespace RedisClone.Store

open Lib Lib.Program

def Call.watches : Call → Bool
  | .op (.get _) | .op (.ttl _) | .op (.exists_ _) | .op .dbSize | .activeExpireCycle => true
  | _ => false

def Reply.mayEnd (ph : Phase) : Reply → Prop
  | .answer _ => ph = .after
  | .expired _ _ => False
  | .enforced e => e.mayEnd ph

lemma gated_op (o : Op) (h : (Call.op o).watches = false) :
    Gated commitGate atEnd .before o.program := by
  cases o with
  | set key val => exact Gated.map _ (gated_setTo key val none)
  | setWithTTL key val d => exact Gated.map _ (gated_setWithTTL key val d)
  | setWithDeadline key val deadline => exact Gated.map _ (gated_setWithDeadline key val deadline)
  | mset pairs => exact Gated.map _ (gated_mset pairs)
  | increment key delta => exact Gated.map _ (gated_increment key delta)
  | append key suffix => exact Gated.map _ (gated_append key suffix)
  | expire key d => exact Gated.map _ (gated_expire key d)
  | expireAt key deadline => exact Gated.map _ (gated_expireAt key deadline)
  | del keys => exact Gated.map _ (gated_del keys)
  | get | ttl | exists_ | dbSize => exact Bool.noConfusion h

lemma gated_call (call : Call) (h : call.watches = false) :
    Gated commitGate Reply.mayEnd .before call.program := by
  cases call with
  | op o => exact Gated.map Reply.answer (gated_op o h)
  | activeExpireCycle => exact Bool.noConfusion h
  | enforceMemoryLimit fuel => exact Gated.map Reply.enforced (gated_enforceMemoryLimit fuel)

section Watching

def Act.watching (T : ℤ) : Act → Prop
  | .expireShard _ time _ _ => time ≤ T
  | .tick => True
  | a => Quiet a

def clockBefore (T : ℤ) : (a : Act) → a.Resp → Prop
  | .now, r => r ≤ T
  | _, _ => True

variable {T : ℤ} {α : Type}

lemma watching_of_quiet {a : Act} (h : Quiet a) : a.watching T := by
  cases a with
  | expireShard | tick => exact absurd h id
  | _ => exact h

lemma watching_inner {a : Act} (h : a.watching T) : a.inner := by
  cases a with
  | lockDurableMutation | unlockDurableMutation => exact absurd h id
  | _ => trivial

lemma watching_unchanged {a : Act} {i : Input} {r : a.Resp} {w w' : Image} (hi : i.time ≤ T)
    (hl : w.keyspace.Lively T) (ha : a.watching T) (h : ActSpec a i r w w') : w' = w := by
  cases a with
  | getCollect key =>
    obtain rfl := actSpec_getCollect.1 h
    rw [hl.collect hi key]
  | expireShard j now n scanned =>
    obtain ⟨hc, hj⟩ := actSpec_expireShard.1 h
    have hk := hl.collected ha hc
    cases w
    cases w'
    simp only at hk hj
    rw [hk, hj]
  | now | config | stats | getRead | lookup | shardUsed | shardLive | tick =>
    exact ActSpec.unchanged rfl h
  | _ => exact absurd ha id

lemma clockBefore_of_spec {a : Act} {i : Input} {r : a.Resp} {w w' : Image} (hi : i.time ≤ T)
    (h : ActSpec a i r w w') : clockBefore T a r := by
  cases a with
  | now => exact (actSpec_now.1 h).1 ▸ hi
  | _ => trivial

abbrev Watches (T : ℤ) (p : Prog α) : Prop :=
  Obeys (Act.watching T) (clockBefore T) (fun _ => True) p

lemma watches_quiet {p : Prog α} (h : Only Quiet p) : Watches T p :=
  Obeys.mono (fun _ => watching_of_quiet) (fun _ _ _ => trivial) (fun _ h => h) h

lemma watches_expireShards {now : ℤ} (hn : now ≤ T) (m : ℕ) (ids : List ShardId) :
    ∀ scanned expired, Watches T (expireShards now m ids scanned expired) := by
  induction ids with
  | nil => exact fun _ _ => .done trivial
  | cons i ids ih =>
    intro scanned expired
    simp only [expireShards]
    split_ifs
    · exact .done trivial
    · exact Obeys.act (S := sig) hn fun r _ => ih r.1 _

lemma watches_expireSample (m : ℕ) : Watches T (expireSample m) :=
  Obeys.act (S := sig) trivial fun _ hn => Obeys.act trivial fun _ _ =>
    watches_expireShards hn m allShards 0 0

lemma watches_expireRounds (rounds : ℕ) :
    ∀ scanned expired, Watches T (expireRounds rounds scanned expired) := by
  induction rounds with
  | zero => exact fun _ _ => .done trivial
  | succ rounds ih =>
    refine fun scanned expired => (watches_expireSample _).bind fun r _ => ?_
    simp only
    split_ifs
    · exact .done trivial
    · exact ih _ _

lemma watches_call (call : Call) (h : call.watches = true) : Watches T call.program := by
  cases call with
  | op o =>
    refine Obeys.map Reply.answer ?_
    cases o with
    | get key => exact Obeys.map _ (watches_quiet (quiet_get key))
    | ttl key => exact Obeys.map _ (watches_quiet (quiet_ttl key))
    | exists_ keys => exact Obeys.map _ (watches_quiet (quiet_exists keys))
    | dbSize => exact Obeys.map _ (watches_quiet quiet_dbSize)
    | _ => exact Bool.noConfusion h
  | activeExpireCycle => exact Obeys.map _ (watches_expireRounds _ 0 0)
  | enforceMemoryLimit fuel => exact Bool.noConfusion h

end Watching

def undue (s : Store) (T : ℤ) : Bool :=
  allShards.all fun i => (s.shards i).data.entries.all fun e => !e.2.expired T

lemma undue_lively {s : Store} {T : ℤ} (h : s.undue T = true) : s.view.Lively T := by
  intro key it hi
  rw [view_apply] at hi
  obtain ⟨e, he, rfl⟩ := Option.map_eq_some_iff.1 hi
  have hall :=
    List.all_eq_true.1 (List.all_eq_true.1 h (shardIndex key) (List.mem_finRange _)) ⟨key, e⟩
    (AList.mem_lookup_iff.1 he)
  simpa using hall

section Order

variable {ι : Type} (T : ℤ) (calls : ι → Call) (inputs : ι → ℕ → Input) (w₀ : Image)

/-- What every configuration of a run has: what the calls did so far is what they do alone, one
after another as they took `commitMu`. -/
structure InCommitOrder (c : Threads ι Reply) : Prop where
  wellFormed : WellFormed c.world.store
  journalled : c.world.store.journal.isSome = true
  watching : ∀ t, (calls t).watches = true → Watches T (c.prog t)
  serial :
    ∃ settled base, SerialAt ActSpec inputs (fun t => (calls t).program) commitGate Reply.mayEnd
    (fun t => (calls t).watches = true) (fun w => w.keyspace.Lively T)
      (fun w : World ι => w.store.image)
    (fun w => w.locks.gate) (fun w => w.locks.commits) w₀ c settled base

variable {T calls inputs w₀}

lemma inCommitOrder_start (maxMemory : ℤ) (policy : EvictionPolicy) :
    InCommitOrder T calls inputs (configured true maxMemory policy).image
      (booted true maxMemory policy fun t => (calls t).program) where
  wellFormed := configured_wellFormed true maxMemory policy
  journalled := rfl
  watching t ht := watches_call (calls t) ht
  serial :=
    ⟨[], _, .start rfl rfl rfl fun t ht => gated_call (calls t) (Bool.eq_false_of_not_eq_true ht)⟩

variable [DecidableEq ι] {c c' : Threads ι Reply} {t : ι} {a : Act} {r : a.Resp}

lemma InCommitOrder.step (hclock : ∀ t n, (inputs t n).time ≤ T)
    (hc : InCommitOrder T calls inputs w₀ c) (hl : c.world.store.view.Lively T)
    (hm : c.Moves World.act inputs t a r c') : InCommitOrder T calls inputs w₀ c' := by
  have ha := World.act_spec hc.wellFormed hm.acts
  obtain ⟨k, hk, hprog⟩ := hm.prog
  have hsees (u : ι) (hu : (calls u).watches = true) (he : u = t) : a.watching T ∧
      Watches T (c'.prog t) := by
    subst he
    have hw := hc.watching u hu
    rw [hk] at hw
    obtain ⟨h₁, h₂⟩ := hw.next
    rw [hprog, Function.update_self]
    exact ⟨h₁, h₂ r (clockBefore_of_spec (hclock u _) ha.image)⟩
  refine ⟨ha.wellFormed, ha.image.journal_isSome.trans hc.journalled, fun u hu => ?_, ?_⟩
  · by_cases he : u = t
    · exact he ▸ (hsees u hu he).2
    · rw [hm.prog_of_ne he]
      exact hc.watching u hu
  · obtain ⟨settled, base, hs⟩ := hc.serial
    refine hs.step hm idle_stable ha.image (ha.turn hc.journalled) hl fun ht => ?_
    have hw := (hsees t ht rfl).1
    have hin := watching_inner hw
    exact ⟨watching_unchanged (hclock t _) hl hw ha.image, (commitGate.work_ne a hin).1,
      (commitGate.work_ne a hin).2⟩

lemma inCommitOrder_after (hclock : ∀ t n, (inputs t n).time ≤ T) (maxMemory : ℤ)
    (policy : EvictionPolicy) (schedule : List ι)
    (hlive : (booted true maxMemory policy fun t => (calls t).program).Along World.act inputs
      (fun c _ => c.world.store.undue T = true) schedule) :
    InCommitOrder T calls inputs (configured true maxMemory policy).image
      ((booted true maxMemory policy fun t => (calls t).program).after World.act inputs schedule) :=
  Config.after_induction (fun _ _ _ _ _ hc hl hm => hc.step hclock (undue_lively hl) hm) schedule _
    (inCommitOrder_start maxMemory policy) hlive

end Order

section Serial

def delEach : List Key → Prog ℕ
  | [] => return 0
  | key :: keys => do
    let n ← del [key]
    let m ← delEach keys
    return n + m

/-- The call as it stands in the serial run: an eviction counts as the deletion of its victims. -/
def Call.alone (victims : List Key) : Call → Prog Answer
  | .op o => o.program
  | .activeExpireCycle => return .unit
  | .enforceMemoryLimit _ => .count <$> delEach victims

def serially {ι : Type} (p : ι → Prog Answer) (inputs : ι → ℕ → Input) :
    List ι → Store → List (ι × Answer) × Store
  | [], s => ([], s)
  | t :: ts, s =>
    let here := exec (p t) (inputs t) s
    let rest := serially p inputs ts here.2.2
    ((t, here.1) :: rest.1, rest.2)

def Call.agrees : Call → Reply → Answer → Prop
  | .op _, .answer a, b => a = b
  | .enforceMemoryLimit _, .enforced e, b => .count e.evicted = b
  | _, _, _ => False

def Reply.returned : Reply → Bool
  | .enforced (.running _) => false
  | _ => true

variable {ι : Type} {inputs : ι → ℕ → Input} {T : ℤ}

lemma serially_snoc (p : ι → Prog Answer) (inputs : ι → ℕ → Input) (ts : List ι) (t : ι) : ∀ s,
    serially p inputs (ts ++ [t]) s =
      let first := serially p inputs ts s
      let last := exec (p t) (inputs t) first.2
      (first.1 ++ [(t, last.1)], last.2.2) := by
  induction ts with
  | nil => exact fun _ => rfl
  | cons u ts ih =>
    intro s
    simp only [List.cons_append, serially, ih]

lemma serially_congr {p q : ι → Prog Answer} {ts : List ι} (h : ∀ t ∈ ts, p t = q t) :
    ∀ s, serially p inputs ts s = serially q inputs ts s := by
  induction ts with
  | nil => exact fun _ => rfl
  | cons t ts ih =>
    intro s
    simp only [serially, h t List.mem_cons_self, ih fun u hu => h u (List.mem_cons_of_mem t hu)]

lemma serially_threads (p : ι → Prog Answer) (inputs : ι → ℕ → Input) (ts : List ι) :
    ∀ s, (serially p inputs ts s).1.map Prod.fst = ts := by
  induction ts with
  | nil => exact fun _ => rfl
  | cons t ts ih => exact fun s => congrArg (t :: ·) (ih _)

lemma Evicts.uncons {w w' : Image} {key : Key} {victims : List Key}
    (h : Evicts w w' (key :: victims)) :
    Evicts (w.apply (w.keyspace.remove key) [[cmdDEL, key]]) w' victims := by
  obtain ⟨hk, hn⟩ := List.nodup_cons.1 h.nodup
  refine ⟨hn, fun key' hk' => ?_, ?_⟩
  · have hne : key' ≠ key := fun he => hk (he ▸ hk')
    rw [Image.apply_keyspace, Keyspace.remove, Function.update_of_ne hne]
    exact h.present key' (List.mem_cons_of_mem key hk')
  · simpa [Keyspace.removeAll, evictions, Mutation.record] using h.image

lemma Keyspace.Lively.remove {ks : Keyspace} (h : ks.Lively T) (key : Key) :
    (ks.remove key).Lively T := by
  intro key' it hi
  rw [Keyspace.remove, Function.update_apply] at hi
  split_ifs at hi
  exact h key' it hi

lemma delEffect_present {ks : Keyspace} (h : ks.Lively T) {key : Key} (hk : (ks key).isSome)
    {now : ℤ} (hT : now ≤ T) : ks.delEffect [key] now = ⟨1, ks.remove key, [.remove [key]]⟩ := by
  obtain ⟨it, hi⟩ := Option.isSome_iff_exists.1 hk
  have hx := h.expired hT hi
  simp [Keyspace.delEffect, Keyspace.deleted, Keyspace.removeAll, hi, hx]

lemma runs_delEach {victims : List Key} {inputs : ℕ → Input} (hT : ∀ i, (inputs i).time ≤ T)
    {w w' w₁ : Image} {n b : ℕ} (hl : w.keyspace.Lively T) (he : Evicts w w' victims)
    (h : Runs ActSpec (delEach victims) inputs w n b w₁) : b = victims.length ∧ w₁ = w' := by
  induction victims generalizing inputs w n b with
  | nil =>
    simp only [delEach, pure_eq, runs_done] at h
    obtain ⟨-, rfl, rfl⟩ := h
    exact ⟨rfl, by rw [he.image]; exact (Image.apply_self _).symm⟩
  | cons key victims ih =>
    obtain ⟨m, w₂, _, _, hd, h, -⟩ := runs_bind.1 h
    obtain ⟨m', w₃, _, _, hr, h, -⟩ := runs_bind.1 h
    simp only [pure_eq, runs_done] at h
    obtain ⟨-, rfl, rfl⟩ := h
    have hdel : (w.keyspace.delEffect [key] (inputs 0).time).Holds w m w₂ := del_effect [key] hd
    rw [delEffect_present hl (he.present key List.mem_cons_self) (hT 0)] at hdel
    obtain ⟨rfl, rfl⟩ := hdel
    obtain ⟨rfl, rfl⟩ := ih (fun i => hT _) (hl.remove key) he.uncons hr
    exact ⟨Nat.add_comm 1 _, rfl⟩

def Folds (w : Image) : Prop :=
  ∃ ms : List Mutation, w.journal = some (ms.map Mutation.record) ∧
    appliedAll ms (fun _ => none) = w.keyspace.rounded

lemma Folds.apply {w : Image} (h : Folds w) {ks : Keyspace} {ms : List Mutation}
    (hms : appliedAll ms w.keyspace.rounded = ks.rounded) :
    Folds (w.apply ks (ms.map Mutation.record)) := by
  obtain ⟨ms₀, hj, hf⟩ := h
  refine ⟨ms₀ ++ ms, ?_, ?_⟩
  · simp only [Image.apply, hj, Option.map_some, List.map_append]
  · rw [appliedAll, List.foldl_append]
    exact (congrArg _ hf).trans hms

lemma Folds.foldRecords {w : Image} (h : Folds w) {journal : List Record}
    (hj : w.journal = some journal) : foldRecords journal (fun _ => none) = w.keyspace.rounded := by
  obtain ⟨ms, hm, hf⟩ := h
  obtain rfl := Option.some.inj (hj.symm.trans hm)
  exact (foldRecords_records ms _).trans hf

lemma call_folds (call : Call) (hcall : call.watches = false) {inputs : ℕ → Input}
    (hT : ∀ i, (inputs i).time ≤ T) {w w' : Image} {n : ℕ} {reply : Reply}
    (hl : w.keyspace.Lively T) (h : Runs ActSpec call.program inputs w n reply w')
    (hf : Folds w) : Folds w' := by
  cases call with
  | op o =>
    obtain ⟨a, ha, rfl⟩ := runs_map.1 h
    obtain ⟨rfl, rfl⟩ := o.program_effect ha
    exact hf.apply (o.effect_applied hl hT)
  | activeExpireCycle => exact Bool.noConfusion hcall
  | enforceMemoryLimit fuel =>
    obtain ⟨e, he, rfl⟩ := runs_map.1 h
    obtain ⟨victims, hv, -⟩ := runs_enforceMemoryLimit he
    rw [hv.image]
    exact hf.apply (evictions_applied victims w.keyspace)

lemma call_alone (call : Call) (hcall : call.watches = false) {inputs : ℕ → Input}
    (hT : ∀ i, (inputs i).time ≤ T) {w w' : Image} {n : ℕ} {reply : Reply}
    (hl : w.keyspace.Lively T) (h : Runs ActSpec call.program inputs w n reply w') :
    ∃ victims, ∀ m b w₁, Runs ActSpec (call.alone victims) inputs w m b w₁ →
    call.agrees reply b ∧ w₁ = w' := by
  cases call with
  | op o =>
    obtain ⟨a, ha, rfl⟩ := runs_map.1 h
    obtain ⟨rfl, rfl⟩ := o.program_effect ha
    refine ⟨[], fun m b w₁ hb => ?_⟩
    obtain ⟨rfl, rfl⟩ := o.program_effect hb
    exact ⟨rfl, rfl⟩
  | activeExpireCycle => exact Bool.noConfusion hcall
  | enforceMemoryLimit fuel =>
    obtain ⟨e, he, rfl⟩ := runs_map.1 h
    obtain ⟨victims, hv, hlen⟩ := runs_enforceMemoryLimit he
    refine ⟨victims, fun m b w₁ hb => ?_⟩
    obtain ⟨d, hd, rfl⟩ := runs_map.1 hb
    obtain ⟨rfl, rfl⟩ := runs_delEach hT hl hv hd
    exact ⟨congrArg Answer.count hlen, rfl⟩

variable {calls : ι → Call} {c : Threads ι Reply} {s₀ : Store}

section Serially

variable (hclock : ∀ t n, (inputs t n).time ≤ T) {ts : List ι}
  (hts : ∀ t ∈ ts, (calls t).watches = false ∧ ∃ reply, c.prog t = .done reply) {w : Image}
  (h :
    Serially
    (fun t w w' => w.keyspace.Lively T ∧ Alone ActSpec inputs (fun t => (calls t).program) c t w w')
    s₀.image ts w)

include hclock hts h

lemma serially_folds (hf : Folds s₀.image) : Folds w := by
  induction h with
  | nil => exact hf
  | @snoc ts t w w' _ ht ih =>
    obtain ⟨hcall, reply, hreply⟩ := hts t (List.mem_append_right _ List.mem_cons_self)
    have hrun := ht.2
    rw [Alone, hreply] at hrun
    exact call_folds (calls t) hcall (hclock t) ht.1 hrun
      (ih fun u hu => hts u (List.mem_append_left _ hu))

lemma serially_agrees [DecidableEq ι] (hs₀ : WellFormed s₀) (hn : ts.Nodup) :
    ∃ victims : ι → List Key,
      let serial := serially (fun t => (calls t).alone (victims t)) inputs ts s₀
      WellFormed serial.2 ∧ serial.2.image = w ∧ ∀ q ∈ serial.1, ∃ reply ∈ c.result q.1,
      (calls q.1).agrees reply q.2 := by
  induction h with
  | nil => exact ⟨fun _ => [], hs₀, rfl, fun q hq => absurd hq List.not_mem_nil⟩
  | @snoc ts t w w' _ ht ih =>
    obtain ⟨hn, -, hnt⟩ := List.nodup_append.1 hn
    have hnt : t ∉ ts := fun hm => hnt t hm t List.mem_cons_self rfl
    obtain ⟨victims, hwf, himage, hagree⟩ := ih (fun u hu => hts u (List.mem_append_left _ hu)) hn
    obtain ⟨hcall, reply, hreply⟩ := hts t (List.mem_append_right _ List.mem_cons_self)
    have hrun := ht.2
    rw [Alone, hreply] at hrun
    obtain ⟨vs, hvs⟩ := call_alone (calls t) hcall (hclock t) ht.1 hrun
    refine ⟨Function.update victims t vs, ?_⟩
    have hcongr :
      serially (fun u => (calls u).alone (Function.update victims t vs u)) inputs ts s₀ =
        serially (fun u => (calls u).alone (victims u)) inputs ts s₀ :=
      serially_congr (fun u hu => by rw [Function.update_of_ne (ne_of_mem_of_not_mem hu hnt)]) s₀
    simp only [serially_snoc, hcongr, Function.update_self]
    have hlast := exec_image ((calls t).alone vs) (inputs t) _ hwf
    rw [himage] at hlast
    obtain ⟨hb, hw⟩ := hvs _ _ _ hlast
    refine ⟨exec_wellFormed _ _ _ hwf, hw, fun q hq => ?_⟩
    rcases List.mem_append.1 hq with hq | hq
    · exact hagree q hq
    · rw [List.mem_singleton.1 hq]
      exact ⟨reply, Config.result_eq_some.2 hreply, hb⟩

end Serially

end Serial

section Runs

variable {ι : Type} [DecidableEq ι]

lemma not_gated_inside {reply : Reply} (h : reply.returned = true) :
    ¬ Gated commitGate Reply.mayEnd .inside (.done reply) := by
  intro hg
  cases hg with
  | done he =>
    cases reply with
    | answer a => exact Phase.noConfusion he
    | expired n m => exact he
    | enforced e =>
      obtain ⟨n, rfl⟩ := he
      exact Bool.noConfusion h

lemma gated_before_done {reply : Reply} (hg : Gated commitGate Reply.mayEnd .before (.done reply)) :
    reply = .enforced (.finished 0 true) := by
  cases hg with
  | done he =>
    cases reply with
    | answer a => exact Phase.noConfusion he
    | expired n m => exact absurd he id
    | enforced e => exact congrArg Reply.enforced he

omit [DecidableEq ι] in
lemma InCommitOrder.complete {T : ℤ} {calls : ι → Call} {inputs : ι → ℕ → Input} {w₀ : Image}
    {c : Threads ι Reply} (hc : InCommitOrder T calls inputs w₀ c)
    (hdone : ∀ t, (c.result t).any Reply.returned = true) :
    c.world.locks.commits.Nodup ∧ (∀ t ∈ c.world.locks.commits, (calls t).watches = false) ∧
      (∀ t ∉ c.world.locks.commits, (calls t).watches = true ∨
        c.result t = some (.enforced (.finished 0 true))) ∧
      Serially (fun t w w' => w.keyspace.Lively T ∧
        Alone ActSpec inputs (fun t => (calls t).program) c t w w') w₀ c.world.locks.commits
          c.world.store.image := by
  have hreply (t : ι) : ∃ reply, c.prog t = .done reply ∧ reply.returned = true := by
    obtain ⟨reply, hr, hret⟩ := (Option.any_eq_true _ _).1 (hdone t)
    exact ⟨reply, Config.result_eq_some.1 hr, hret⟩
  obtain ⟨settled, base, hs⟩ := hc.serial
  have hgate : c.world.locks.gate = none := by
    by_contra hg
    obtain ⟨t, ht⟩ := Option.ne_none_iff_exists'.1 hg
    obtain ⟨reply, hp, hret⟩ := hreply t
    exact not_gated_inside hret (hp ▸ (hs.holding t ht).2.2)
  have horder : c.world.locks.commits = settled := by
    have ho := hs.order
    rw [hgate, Option.toList_none, List.append_nil] at ho
    exact ho
  have hbase : c.world.store.image = base := hs.free hgate
  refine ⟨hs.nodup, fun t ht => Bool.eq_false_of_not_eq_true (hs.working t ht), fun t ht => ?_, ?_⟩
  · by_cases hw : (calls t).watches = true
    · exact .inl hw
    · obtain ⟨reply, hp, -⟩ := hreply t
      have hg := (hs.waiting t hw ht).1
      exact .inr (Config.result_eq_some.2 (hp.trans (congrArg _ (gated_before_done (hp ▸ hg)))))
  · rw [horder, hbase]
    exact hs.ran

omit [DecidableEq ι] in
lemma done_of_returned {c : Threads ι Reply}
    (hdone : ∀ t, (c.result t).any Reply.returned = true) (t : ι) :
    ∃ reply, c.prog t = .done reply := by
  obtain ⟨reply, hr, -⟩ := (Option.any_eq_true _ _).1 (hdone t)
  exact ⟨reply, Config.result_eq_some.1 hr⟩

/-- Calls that are made at once, each a thread of its own, on a store with a journal. When all have
returned, their replies, the keyspace and the journal are those of the serial run in the order
in which they took `commitMu`, and the journal folds to the keyspace. -/
theorem calls_commit_in_order (maxMemory : ℤ) (policy : EvictionPolicy) (calls : ι → Call)
    (inputs : ι → ℕ → Input) (schedule : List ι) (T : ℤ) (hclock : ∀ t n, (inputs t n).time ≤ T)
    (hlive : (booted true maxMemory policy fun t => (calls t).program).Along World.act inputs
      (fun c _ => c.world.store.undue T = true) schedule)
    (hdone :
      ∀ t,
      (((booted true maxMemory policy fun t => (calls t).program).after World.act inputs
      schedule).result t).any Reply.returned = true) :
    let c :=
      (booted true maxMemory policy fun t => (calls t).program).after World.act inputs schedule
    let order := c.world.locks.commits
    order.Nodup ∧ (∀ t ∈ order, (calls t).watches = false) ∧
      (∀ t ∉ order, (calls t).watches = true ∨ c.result t = some (.enforced (.finished 0 true))) ∧
      ∃ victims : ι → List Key,
        let serial := serially (fun t => (calls t).alone (victims t)) inputs order
          (configured true maxMemory policy)
        serial.1.map Prod.fst = order ∧
          (∀ q ∈ serial.1, ∃ reply ∈ c.result q.1, (calls q.1).agrees reply q.2) ∧
          serial.2.view = c.world.store.view ∧ serial.2.journal = c.world.store.journal ∧
            ∃ journal, c.world.store.journal = some journal ∧
              foldRecords journal (fun _ => none) = c.world.store.view.rounded := by
  intro c order
  have hc := inCommitOrder_after hclock maxMemory policy schedule hlive
  obtain ⟨hn, hmutates, hrest, hran⟩ := hc.complete hdone
  have hts (t : ι) (ht : t ∈ order) : (calls t).watches = false ∧ ∃ reply, c.prog t = .done reply :=
    ⟨hmutates t ht, done_of_returned hdone t⟩
  have hf := serially_folds hclock hts hran ⟨[], rfl, rfl⟩
  obtain ⟨victims, -, himage, hagree⟩ :=
    serially_agrees hclock hts hran (configured_wellFormed true maxMemory policy) hn
  obtain ⟨journal, hj⟩ := Option.isSome_iff_exists.1 hc.journalled
  exact ⟨hn, hmutates, hrest, victims, serially_threads _ _ _ _, hagree,
    congrArg Image.keyspace himage, congrArg Image.journal himage, journal, hj, hf.foldRecords hj⟩

end Runs

def racing : Fin 3 → Call
  | 0 => .op (.setWithTTL (ascii "k") (ascii "5") 1000000000)
  | 1 => .op (.increment (ascii "k") 1)
  | 2 => .op (.get (ascii "k"))

def racingTurns : List (Fin 3) := turns 3 [1, 0, 0, 1, 0, 2, 1, 0, 2, 0, 1, 1, 1, 1, 1]

theorem calls_commit_in_order_racing :
    let c := (booted true 0 .noEviction fun t => (racing t).program).after World.act
      (fun _ _ => ⟨7, .stored⟩) racingTurns
    c.world.locks.commits = [0, 1] ∧ c.result 1 = some (.answer (.number (some 6))) ∧
      ∃ victims : Fin 3 → List Key,
        (serially (fun t => (racing t).alone (victims t)) (fun _ _ => ⟨7, .stored⟩)
          c.world.locks.commits (configured true 0 .noEviction)).2.view = c.world.store.view := by
  refine ⟨by decide +kernel, by decide +kernel, ?_⟩
  obtain ⟨-, -, -, victims, -, -, hview, -⟩ := calls_commit_in_order 0 .noEviction racing
    (fun _ _ => ⟨7, .stored⟩) racingTurns 7 (fun _ _ => le_refl 7) (by decide +kernel)
      (by decide +kernel)
  exact ⟨victims, hview⟩

end RedisClone.Store
