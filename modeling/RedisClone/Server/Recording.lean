import RedisClone.Server.Ledger
import RedisClone.Server.RewriteRule

namespace RedisClone.Server

open Store Aof Lib Lib.Program

abbrev Book := Logbook Key Item Mutation ShardId

section Recording

variable {ι : Type} {T : ℤ}

/-- Where a rewrite is: begun, its goroutine not yet running; reading the shards; or with all of
them in the temporary file. -/
inductive Stage (hs : ι → Stand) (spawned : ℕ) (l : Ledger) (r : Rewrite Mutation ShardId) : Prop
  | begun (hspawned : spawned = 1) (hidle : ∀ t, (hs t).copying = .idle) (hread : r.read = ∅)
      (hdump : r.dump = [])
  | reading (t : ι) (todo : List ShardId) (hspawned : spawned = 0)
      (hidle : ∀ u, u ≠ t → (hs u).copying = .idle)
        (hown : (hs t).copying = .reading todo (r.dump.map Mutation.record)) (htodo : todo.Nodup)
          (hread : r.read = {i | i ∉ todo})
  | ready (t : ι) (hspawned : spawned = 0) (hidle : ∀ u, u ≠ t → (hs u).copying = .idle)
      (hown : (hs t).copying = .ready (r.dump.map Mutation.record)) (hread : ∀ i, i ∈ r.read)
      (hsnapshot : l.traced.snapshot = r.dump.map Mutation.record) (htmp : l.log.tmp.isSome = true)

structure Recording (T : ℤ) (hs : ι → Stand) (b : Book) (spawned : ℕ) (l : Ledger) : Prop where
  sound : l.Sound
  calm : l.log.err = none
  records : l.traced.records = b.file.map Mutation.record
  logged : ∀ m ∈ b.file, (lasting T).Logged m.record
  count : l.history.length = b.count
  settled_le : b.settled ≤ b.file.length
  settled : encodeAll ((b.file.take b.settled).map Mutation.record) <+: l.log.atPath
  rewriting : l.log.rewriting = b.rewrite.isSome
  tail : ∀ r ∈ b.rewrite, l.traced.since = r.tail.map Mutation.record
  copied : ∀ r ∈ b.rewrite, ∀ m ∈ r.dump ++ r.tail, (lasting T).Logged m.record
  stage : ∀ r ∈ b.rewrite, Stage hs spawned l r
  idle : b.rewrite = none → spawned = 0 ∧ ∀ t, (hs t).copying = .idle

variable {hs hs' : ι → Stand} {b : Book} {spawned : ℕ} {l l' : Ledger}

lemma Stage.congr {r : Rewrite Mutation ShardId} (h : Stage hs spawned l r)
    (hc : ∀ t, (hs' t).copying = (hs t).copying)
    (hsnapshot : l'.traced.snapshot = l.traced.snapshot) (htmp : l'.log.tmp = l.log.tmp)
    {tail : List Mutation} : Stage hs' spawned l' { r with tail := tail } := by
  cases h with
  | begun hspawned hidle hread hdump =>
    exact .begun hspawned (fun t => (hc t).trans (hidle t)) hread hdump
  | reading t todo hspawned hidle hown htodo hread =>
    exact .reading t todo hspawned (fun u hu => (hc u).trans (hidle u hu))
      ((hc t).trans hown) htodo hread
  | ready t hspawned hidle hown hread hsnap htmp' =>
    exact .ready t hspawned (fun u hu => (hc u).trans (hidle u hu)) ((hc t).trans hown) hread
      (hsnapshot.trans hsnap) (htmp.symm ▸ htmp')

lemma Recording.congr (hR : Recording T hs b spawned l) (hc : ∀ t, (hs' t).copying = (hs t).copying)
    {now : Keyspace} {due : Option Mutation} :
    Recording T hs' { b with now := now, due := due } spawned l :=
  { hR with
    stage := fun r hr => (hR.stage r hr).congr hc rfl rfl
    idle := fun hno => ⟨(hR.idle hno).1, fun t => (hc t).trans ((hR.idle hno).2 t)⟩ }

variable {faults : Faults}

lemma Recording.quiet (hR : Recording T hs b spawned l) {call : LogCall}
    (hcall : call = .flush ∨ call = .sync true) (hn : ∀ n, faults n = none) :
    Recording T hs b spawned (l.call faults call) := by
  have hlog : (l.call faults call).log = { l.log with bw := l.log.bw.flush faults } := by
    rw [Ledger.call_log]
    have hw := hR.sound.clean.working hR.calm
    rcases hcall with rfl | rfl
    · exact congrArg Prod.snd (syncLocked_calm hn hR.calm hw false)
    · exact congrArg Prod.snd (syncLocked_calm hn hR.calm hw _)
  have hrest : (l.call faults call).traced.records = l.traced.records ∧
    (l.call faults call).traced.since = l.traced.since ∧
      (l.call faults call).traced.snapshot = l.traced.snapshot ∧
          (l.call faults call).history = l.history := by
    rw [Ledger.call_traced]
    rcases hcall with rfl | rfl
    · exact ⟨rfl, rfl, rfl, rfl⟩
    · refine ⟨rfl, rfl, rfl, ?_⟩
      simp only [Ledger.call]
      split_ifs <;> rfl
  obtain ⟨hrecords, hsince, hsnapshot, hhistory⟩ := hrest
  have hpath : l.log.atPath <+: (l.call faults call).log.atPath := by
    rw [Ledger.call_log]
    refine LogCall.run_extends faults hR.sound.clean ?_
    rcases hcall with rfl | rfl <;> rfl
  exact
    { hR with
      sound := hR.sound.call faults call
      calm := by rw [hlog]; exact hR.calm
      records := hrecords.trans hR.records
      count := by rw [hhistory]; exact hR.count
      settled := hR.settled.trans hpath
      rewriting := by rw [hlog]; exact hR.rewriting
      tail := fun r hr => hsince.trans (hR.tail r hr)
      stage := fun r hr => (hR.stage r hr).congr (fun _ => rfl) hsnapshot (by rw [hlog]) }

lemma Recording.append (hR : Recording T hs b spawned l) (hn : ∀ n, faults n = none) {m : Mutation}
    (hm : (lasting T).Logged m.record) : Recording T hs { b with
        file := b.file ++ [m]
        due := none
        count := b.count + 1
        rewrite := b.rewrite.map fun r => { r with tail := r.tail ++ [m] } }
      spawned (l.call faults (.append m.record)) := by
  obtain ⟨hcalm, hrewriting, htmp⟩ :=
    append_calm hn hR.calm (hR.sound.clean.working hR.calm) m.record
  have herr : ¬ l.log.err.isSome = true := by simp [hR.calm]
  have hcall : l.call faults (.append m.record) =
      { l with
        traced := (LogCall.append m.record).trace faults l.traced
        history := l.history ++ [m.record] } := if_neg herr
  have htrace : (LogCall.append m.record).trace faults l.traced =
    ⟨(l.log.append faults m.record).2, l.traced.records ++ [m.record],
      l.traced.since ++ [m.record], l.traced.snapshot⟩ := if_neg herr
  have hpath : l.log.atPath <+: (l.call faults (.append m.record)).log.atPath := by
    rw [Ledger.call_log]
    exact LogCall.run_extends faults hR.sound.clean rfl
  have hsound := hR.sound.call faults (.append m.record)
  rw [hcall, htrace] at hpath hsound ⊢
  refine ⟨hsound, hcalm, ?_, ?_, ?_, ?_, ?_, ?_, ?_, ?_, ?_, ?_⟩
  · simp only [hR.records, List.map_append, List.map_cons, List.map_nil]
  · intro m' hm'
    rcases List.mem_append.1 hm' with hm' | hm'
    · exact hR.logged m' hm'
    · exact List.mem_singleton.1 hm' ▸ hm
  · simp only [List.length_append, List.length_singleton, hR.count]
  · exact hR.settled_le.trans (by simp)
  · rw [List.take_append_of_le_length hR.settled_le]
    exact hR.settled.trans hpath
  · rw [Option.isSome_map]
    exact hrewriting.trans hR.rewriting
  · intro r hr
    obtain ⟨r₀, hr₀, rfl⟩ := Option.mem_map.1 hr
    simp only [hR.tail r₀ hr₀, List.map_append, List.map_cons, List.map_nil]
  · intro r hr m' hm'
    obtain ⟨r₀, hr₀, rfl⟩ := Option.mem_map.1 hr
    rw [← List.append_assoc] at hm'
    rcases List.mem_append.1 hm' with hm' | hm'
    · exact hR.copied r₀ hr₀ m' hm'
    · exact List.mem_singleton.1 hm' ▸ hm
  · intro r hr
    obtain ⟨r₀, hr₀, rfl⟩ := Option.mem_map.1 hr
    refine (hR.stage r₀ hr₀).congr (fun _ => rfl) ?_ ?_
    · rfl
    · exact htmp
  · exact fun hno => hR.idle (Option.map_eq_none_iff.1 hno)

variable (faults) in
lemma Recording.begin_busy (hR : Recording T hs b spawned l) {r : Rewrite Mutation ShardId}
    (hr : b.rewrite = some r) :
    l.log.beginRewrite.1.isSome = true ∧ l.call faults .beginRewrite = l := by
  have hbegin : l.log.beginRewrite = (some .alreadyInProgress, l.log) := by
    simp only [Log.beginRewrite, hR.calm, hR.rewriting, hr, Option.isSome_some, if_true]
  have hsome : l.log.beginRewrite.1.isSome = true := by rw [hbegin]; rfl
  refine ⟨hsome, ?_⟩
  simp only [Ledger.call, LogCall.trace, LogCall.run, hsome, if_true]
  rw [hbegin]

variable (faults) in
lemma Recording.begin_free (hR : Recording T hs b spawned l) (hno : b.rewrite = none) :
    l.log.beginRewrite.1.isSome = false ∧
      Recording T hs { b with rewrite := some ⟨[], ∅, []⟩ } (spawned + 1)
        (l.call faults .beginRewrite) := by
  have hbegin :
      l.log.beginRewrite = (none, { l.log with rewriting := true, rewriteTail := [] }) := by
    simp only [Log.beginRewrite, hR.calm, hR.rewriting, hno, Option.isSome_none,
      Bool.false_eq_true, if_false]
  have hnone : l.log.beginRewrite.1.isSome = false := by rw [hbegin]; rfl
  have hcall : l.call faults .beginRewrite = { l with
      traced := ⟨{ l.log with rewriting := true, rewriteTail := [] }, l.traced.records, [],
        l.traced.snapshot⟩
      began := l.history.length } := by
    simp only [Ledger.call, LogCall.trace, LogCall.run, hnone, Bool.false_eq_true, if_false]
    rw [hbegin]
  have hsound := hR.sound.call faults .beginRewrite
  obtain ⟨hspawned, hidle⟩ := hR.idle hno
  rw [hcall] at hsound ⊢
  refine ⟨hnone, hsound, hR.calm, hR.records, hR.logged, hR.count, hR.settled_le, hR.settled,
    rfl, ?_, ?_, ?_, fun hno => absurd hno (Option.some_ne_none _)⟩
  · intro r hr
    obtain rfl := Option.some.inj hr
    rfl
  · intro r hr m hm
    obtain rfl := Option.some.inj hr
    exact absurd hm List.not_mem_nil
  · intro r hr
    obtain rfl := Option.some.inj hr
    exact .begun (by rw [hspawned]) hidle rfl rfl

section Rewriter

variable [DecidableEq ι] {t : ι}

lemma mem_allShards (i : ShardId) : i ∈ allShards := List.mem_finRange i

lemma idle_update {hs : ι → Stand} (h : ∀ u, u ≠ t → (hs u).copying = .idle) (g : Stand)
    (u : ι) (hu : u ≠ t) : (Function.update hs t g u).copying = .idle := by
  rw [Function.update_of_ne hu]
  exact h u hu

lemma Recording.start (hR : Recording T hs b spawned l) (hspawned : spawned ≠ 0) :
    Recording T (Function.update hs t { hs t with copying := .reading allShards [] }) b
      (spawned - 1) l := by
  refine { hR with stage := fun r hr => ?_, idle := fun hno => absurd (hR.idle hno).1 hspawned }
  cases hR.stage r hr with
  | begun hone hidle hread hdump =>
    refine .reading t allShards (by rw [hone]) (idle_update (fun u _ => hidle u) _) ?_
      (List.nodup_finRange _) ?_
    · rw [Function.update_self, hdump]
      rfl
    · ext i
      simp [hread, mem_allShards]
  | reading u todo hzero | ready u hzero => exact absurd hzero hspawned

omit [DecidableEq ι] in
lemma Recording.reading_inv (hR : Recording T hs b spawned l) {todo : List ShardId}
    {records : List Record} (hown : (hs t).copying = .reading todo records) :
    ∃ r, b.rewrite = some r ∧ spawned = 0 ∧ (∀ u, u ≠ t → (hs u).copying = .idle) ∧
      records = r.dump.map Mutation.record ∧ todo.Nodup ∧ r.read = {i | i ∉ todo} := by
  cases hrw : b.rewrite with
  | none => exact absurd (hown.symm.trans ((hR.idle hrw).2 t)) nofun
  | some r =>
    refine ⟨r, rfl, ?_⟩
    cases hR.stage r hrw with
    | begun _ hidle => exact absurd (hown.symm.trans (hidle t)) nofun
    | reading u todo' hspawned hidle hown' htodo hread =>
      obtain rfl : t = u := by_contra fun hne => absurd (hown.symm.trans (hidle t hne)) nofun
      obtain ⟨rfl, rfl⟩ := Copying.reading.inj (hown.symm.trans hown')
      exact ⟨hspawned, hidle, rfl, htodo, hread⟩
    | ready u _ hidle hown' =>
      by_cases hu : t = u
      · subst hu
        exact absurd (hown.symm.trans hown') nofun
      · exact absurd (hown.symm.trans (hidle t hu)) nofun

omit [DecidableEq ι] in
lemma Recording.ready_inv (hR : Recording T hs b spawned l) {records : List Record}
    (hown : (hs t).copying = .ready records) :
    ∃ r, b.rewrite = some r ∧ spawned = 0 ∧ (∀ u, u ≠ t → (hs u).copying = .idle) ∧
      (∀ i, i ∈ r.read) ∧ l.traced.snapshot = r.dump.map Mutation.record ∧
      l.log.tmp.isSome = true := by
  cases hrw : b.rewrite with
  | none => exact absurd (hown.symm.trans ((hR.idle hrw).2 t)) nofun
  | some r =>
    refine ⟨r, rfl, ?_⟩
    cases hR.stage r hrw with
    | begun _ hidle => exact absurd (hown.symm.trans (hidle t)) nofun
    | reading u todo' _ hidle hown' =>
      by_cases hu : t = u
      · subst hu
        exact absurd (hown.symm.trans hown') nofun
      · exact absurd (hown.symm.trans (hidle t hu)) nofun
    | ready u hspawned hidle hown' hread hsnapshot htmp =>
      obtain rfl : t = u := by_contra fun hne => absurd (hown.symm.trans (hidle t hne)) nofun
      exact ⟨hspawned, hidle, hread, hsnapshot, htmp⟩

lemma Recording.read (hR : Recording T hs b spawned l) {i : ShardId} {todo : List ShardId}
    {records : List Record} (hown : (hs t).copying = .reading (i :: todo) records)
    {dump : List Mutation} (hdump : ∀ m ∈ dump, (lasting T).Logged m.record)
    {g : Stand} (hg : g.copying = .reading todo (records ++ dump.map Mutation.record)) :
    ∃ r, b.rewrite = some r ∧ i ∉ r.read ∧ Recording T (Function.update hs t g)
      { b with rewrite := some { r with read := insert i r.read, dump := r.dump ++ dump } }
        spawned l := by
  obtain ⟨r, hr, hspawned, hidle, rfl, htodo, hread⟩ := hR.reading_inv hown
  obtain ⟨hi, htodo⟩ := List.nodup_cons.1 htodo
  refine ⟨r, hr, by rw [hread]; exact fun h => h List.mem_cons_self, ?_⟩
  refine { hR with rewriting := ?_, tail := ?_, copied := ?_, stage := ?_, idle := nofun }
  · rw [hR.rewriting, hr]
    rfl
  · intro r' hr'
    obtain rfl := Option.some.inj hr'
    exact hR.tail r hr
  · intro r' hr' m hm
    obtain rfl := Option.some.inj hr'
    simp only [List.mem_append] at hm
    rcases hm with (hm | hm) | hm
    · exact hR.copied r hr m (List.mem_append_left _ hm)
    · exact hdump m hm
    · exact hR.copied r hr m (List.mem_append_right _ hm)
  · intro r' hr'
    obtain rfl := Option.some.inj hr'
    refine .reading t todo hspawned (idle_update hidle _) ?_ htodo ?_
    · rw [Function.update_self, hg, List.map_append]
    · ext j
      simp only [hread, Set.mem_insert_iff, Set.mem_ofPred_eq, List.mem_cons, not_or]
      constructor
      · rintro (rfl | ⟨-, hj⟩)
        · exact hi
        · exact hj
      · intro hj
        by_cases he : j = i
        · exact .inl he
        · exact .inr ⟨he, hj⟩

lemma Recording.prepare (hR : Recording T hs b spawned l) {snapshot : List Record}
    (hown : (hs t).copying = .reading [] snapshot) {tmpFaults : Faults}
    (hn : ∀ n, tmpFaults n = none) :
    Recording T (Function.update hs t { hs t with copying := .ready snapshot }) b spawned
      (l.call faults (.prepareRewrite true tmpFaults snapshot)) := by
  obtain ⟨r, hr, hspawned, hidle, rfl, -, hread⟩ := hR.reading_inv hown
  have hprepare := prepareRewrite_calm (l := l.log) hn (r.dump.map Mutation.record)
  have hcall :
    l.call faults (.prepareRewrite true tmpFaults (r.dump.map Mutation.record)) = { l with
      traced := ⟨{ l.log with tmp := some (encodeAll (r.dump.map Mutation.record)) },
        l.traced.records, l.traced.since, r.dump.map Mutation.record⟩ } := by
    simp only [Ledger.call, LogCall.trace, LogCall.run, hprepare, Option.isSome_none,
      Bool.false_eq_true, if_false]
  have hsound := hR.sound.call faults (.prepareRewrite true tmpFaults (r.dump.map Mutation.record))
  rw [hcall] at hsound ⊢
  refine { hR with sound := hsound, stage := fun r' hr' => ?_, idle :=
    fun hno => absurd (hr.symm.trans hno) (Option.some_ne_none r) }
  obtain rfl := Option.some.inj (hr.symm.trans hr')
  refine .ready t hspawned (idle_update hidle _) (by rw [Function.update_self]) ?_ rfl rfl
  intro i
  rw [hread]
  exact List.not_mem_nil

variable (faults) in
lemma Recording.install (hR : Recording T hs b spawned l) {records : List Record}
    (hown : (hs t).copying = .ready records) :
    ∃ r, b.rewrite = some r ∧ (∀ i, i ∈ r.read) ∧
    Recording T (Function.update hs t { hs t with copying := .idle })
      { b with file := r.dump ++ r.tail, rewrite := none, settled := (r.dump ++ r.tail).length }
        spawned
      (l.call faults (.installRewrite ⟨true, true, true, true, true⟩)) := by
  obtain ⟨r, hr, hspawned, hidle, hread, hsnapshot, htmp⟩ := hR.ready_inv hown
  obtain ⟨tmp, htmp⟩ := Option.isSome_iff_exists.1 htmp
  have hrewriting : l.log.rewriting = true := by rw [hR.rewriting, hr]; rfl
  have hinstall := installRewrite_calm htmp hrewriting hR.calm
  have hrenames :
      LogCall.renames l.log (.installRewrite ⟨true, true, true, true, true⟩) = true := by
    simp [LogCall.renames, htmp, hrewriting, hR.calm]
  have hrecords : l.traced.snapshot ++ l.traced.since = (r.dump ++ r.tail).map Mutation.record := by
    rw [hsnapshot, hR.tail r hr, List.map_append]
  have hcall : l.call faults (.installRewrite ⟨true, true, true, true, true⟩) = { l with
      traced :=
        ⟨{ l.log.abortRewrite with
            tmp := none, bw := .fresh (tmp ++ l.log.rewriteTail) l.log.bw.ops },
          l.traced.snapshot ++ l.traced.since, l.traced.since, l.traced.snapshot⟩
      fsynced := l.log.tmp.getD [] ++ l.log.rewriteTail
      front := l.traced.snapshot
      subsumed := l.began } := by
    simp only [Ledger.call, LogCall.trace, LogCall.run, hrenames, if_true]
    rw [hinstall]
  have hsound := hR.sound.call faults (.installRewrite ⟨true, true, true, true, true⟩)
  have hfile : tmp ++ l.log.rewriteTail = encodeAll ((r.dump ++ r.tail).map Mutation.record) := by
    rw [← hrecords, encodeAll_append, hR.sound.clean.tmp tmp htmp,
      hR.sound.clean.tail hR.calm hrewriting]
  refine ⟨r, hr, hread, ?_⟩
  rw [hcall] at hsound ⊢
  refine ⟨hsound, hR.calm, hrecords, hR.copied r hr, hR.count, le_rfl, ?_, rfl,
    fun _ hr => absurd hr (Option.not_mem_none _), fun _ hr => absurd hr (Option.not_mem_none _),
      fun _ hr => absurd hr (Option.not_mem_none _), fun _ => ⟨hspawned, fun u => ?_⟩⟩
  · rw [List.take_length, ← hfile]
    simp only [Log.atPath, Log.abortRewrite, hR.sound.clean.moved hR.calm, Option.getD_none]
    exact List.prefix_refl _
  · by_cases hu : u = t
    · rw [hu, Function.update_self]
    · exact idle_update hidle _ u hu

end Rewriter

end Recording

structure Stimulus.Smooth (i : Stimulus) : Prop where
  synced : i.synced = true
  created : i.created = true
  tmpFaults : ∀ n, i.tmpFaults n = none
  install : i.install = ⟨true, true, true, true, true⟩

section Tracks

variable {ι : Type} [DecidableEq ι] {T : ℤ} {site : Site ι} {t : ι}

def Ledger.journal (faults : Faults) (l : Ledger) : Act → Ledger
  | .propagate record => l.call faults (.append record)
  | _ => l

lemma Ledger.journal_of_ne {faults : Faults} {l : Ledger} {a : Act}
    (ha : ∀ record, a ≠ .propagate record) : l.journal faults a = l := by
  cases a with
  | propagate record => exact absurd rfl (ha record)
  | _ => rfl

lemma Process.act_store {a : Act} {i : Stimulus} {r : a.Resp} {w w' : Process ι}
    (hj : w.base.store.journal.isSome = true)
    (ha : Process.act site t (.store a) i w = some (r, w')) :
    World.act t a i.input w.base = some (r, w'.base) ∧ w'.spawned = w.spawned ∧
      w'.ledger = w.ledger.journal site.logFaults a := by
  cases Process.act_cases ha with
  | store hbase hno =>
    exact ⟨hbase, rfl, (Ledger.journal_of_ne fun record he => by simp [hno record he] at hj).symm⟩
  | latched hbase | appended hbase => exact ⟨hbase, rfl, rfl⟩

structure Tracks (T : ℤ) (hs : ι → Stand) (b : Book) (w : Process ι) : Prop where
  standing : Standing (lasting T) hs b.now b.due w.base
  recording : Recording T hs b w.spawned w.ledger

variable {ok : Book → ShardId → Prop} {hs : ι → Stand} {b : Book} {i : Stimulus} {w w' : Process ι}

lemma copying_update {h : Stand} (hc : h.copying = (hs t).copying) (u : ι) :
    (Function.update hs t h u).copying = (hs u).copying := by
  by_cases hu : u = t
  · rw [hu, Function.update_self, hc]
  · rw [Function.update_of_ne hu]

def Goes (ok : Book → ShardId → Prop) (b b' : Book) : Prop :=
  b' = b ∨ Logbook.Step mutations shardIndex ok b b'

lemma Tracks.store (hT : Tracks T hs b w) (hsite : ∀ n, site.logFaults n = none)
    (hi : i.input.time ≤ T) {a : Act} {r : a.Resp} (hok : (hs t).allows T a)
    (hask : (lasting T).Asks a) (hin : (lasting T).Admits w.base.store.view a)
    (hread : ∀ j time, a = .shardSnapshot j time → ok b j)
    (ha : Process.act site t (.store a) i w = some (r, w')) :
    (Early T a r ∧ (lasting T).Answers a r) ∧
      ∃ b', Goes ok b b' ∧ Tracks T (Function.update hs t ((hs t).next a r)) b' w' := by
  obtain ⟨hS, hR⟩ := hT
  obtain ⟨hact, hspawned, hledger⟩ := Process.act_store hS.journal ha
  have hL : ∀ d, (lasting T).deadline d → T < floorMilli d := fun _ => lasting_lt
  obtain ⟨hearly, hanswer, hS'⟩ := hS.step hL hok hask hin hi hact
  refine ⟨⟨hearly, hanswer⟩, ?_⟩
  cases hmade : a.made r with
  | some m =>
    -- the section has changed the keyspace
    obtain ⟨hgate, hdue⟩ := Stand.allows_made hok hmade
    have hopen : b.due = none := (hS.due_of_gate hgate).symm.trans hdue
    rw [hmade, Act.leaves_of_made hmade] at hS'
    refine ⟨{ b with now := mutations.replay [m] b.now, due := some m },
      .inr (.commit m hopen), hS', ?_⟩
    rw [hspawned, hledger, Ledger.journal_of_ne fun record => ?_]
    · refine hR.congr (copying_update (Stand.next_copying fun j time => ?_))
      rintro rfl
      exact absurd hmade nofun
    · rintro rfl
      exact absurd hmade nofun
  | none =>
    rw [hmade] at hS'
    by_cases hpropagate : ∃ record, a = .propagate record
    · -- the journal gets what is due
      obtain ⟨record, rfl⟩ := hpropagate
      obtain ⟨hgate, m, hdue, rfl⟩ := hok
      have hopen : b.due = some m := (hS.due_of_gate hgate).symm.trans hdue
      refine ⟨_, .inr (.append m hopen), hS', ?_⟩
      rw [hspawned, hledger]
      refine (hR.append hsite hask).congr (copying_update ?_)
      rfl
    · rw [not_exists] at hpropagate
      rw [Act.leaves_of_not_made hmade hpropagate] at hS'
      rw [Ledger.journal_of_ne hpropagate] at hledger
      by_cases hsnapshot : ∃ j time, a = .shardSnapshot j time
      · obtain ⟨j, time, rfl⟩ := hsnapshot
        obtain ⟨htime, todo, records, hown⟩ := hok
        obtain ⟨dump, hdumps, hlogged, rfl⟩ :=
          hS.dumps hL htime (World.act_spec hS.wellFormed hact).image.1
        have hnext : (hs t).next (.shardSnapshot j time) (dump.map Mutation.record) =
            { hs t with copying := .reading todo (records ++ dump.map Mutation.record) } := by
          simp only [Stand.next, hown]
        obtain ⟨r, hr, hfresh, hR'⟩ := hR.read hown hlogged (congrArg Stand.copying hnext)
        refine ⟨_, .inr (.read hr hfresh (hread j time rfl) hdumps), hS', ?_⟩
        rw [hspawned, hledger]
        exact hR'
      · rw [not_exists] at hsnapshot
        refine ⟨b, .inl rfl, hS', ?_⟩
        rw [hspawned, hledger]
        exact hR.congr (copying_update (Stand.next_copying fun j time ha => hsnapshot j ⟨time, ha⟩))

omit [DecidableEq ι] in
lemma Tracks.congr (hT : Tracks T hs b w) (hbase : w'.base = w.base)
    (hspawned : w'.spawned = w.spawned) (hledger : w'.ledger = w.ledger) : Tracks T hs b w' :=
  ⟨hbase ▸ hT.standing, hspawned ▸ hledger ▸ hT.recording⟩

lemma Tracks.of_outer {a : ConnAct} (ha : a.outer) {r : a.Resp}
    (h : ∃ b', Goes ok b b' ∧ Tracks T hs b' w') :
    Expected T a r ∧ ∃ b', Goes ok b b' ∧
    Tracks T (Function.update hs t (advance (hs t) a r)) b' w' := by
  rw [advance_outer ha, Function.update_eq_self]
  refine ⟨?_, h⟩
  cases a with
  | store => exact absurd ha id
  | _ => exact trivial

variable (ok) in
lemma Tracks.install (hT : Tracks T hs b w) (hsmooth : i.Smooth)
    (hok : permits T (hs t) .installRewrite) {r : ConnAct.Resp .installRewrite}
    (ha : Process.act site t .installRewrite i w = some (r, w')) :
    ∃ b', Logbook.Step mutations shardIndex ok b b' ∧ b'.settled = b'.file.length ∧
    b'.count = b.count ∧
      Tracks T (Function.update hs t (advance (hs t) .installRewrite r)) b' w' := by
  obtain ⟨snapshot, hown⟩ := hok
  cases Process.act_cases ha with
  | installRewrite =>
    obtain ⟨r, hr, hall, hR⟩ := hT.recording.install site.logFaults hown
    refine ⟨_, .install hr fun k => hall (shardIndex k), rfl, rfl, hT.standing.copying _, ?_⟩
    rw [hsmooth.install]
    exact hR

lemma Tracks.step (hT : Tracks T hs b w) (hsite : ∀ n, site.logFaults n = none) (hsmooth : i.Smooth)
    (hi : i.input.time ≤ T) {a : ConnAct} {r : a.Resp} (hok : permits T (hs t) a)
    (hin : ∀ act, a = .store act → (lasting T).Admits w.base.store.view act)
    (hread : ∀ j time, a = .store (.shardSnapshot j time) → ok b j)
    (ha : Process.act site t a i w = some (r, w')) :
    Expected T a r ∧ ∃ b', Goes ok b b' ∧
    Tracks T (Function.update hs t (advance (hs t) a r)) b' w' := by
  cases Process.act_cases ha with
  | store | latched | appended =>
    exact hT.store hsite hi hok.1 hok.2 (hin _ rfl)
      (fun j time he => hread j time (congrArg ConnAct.store he)) ha
  | read | dry | refused | returned | counters | aofErr | write | flush =>
    refine Tracks.of_outer (by exact trivial) ⟨b, .inl rfl, ?_⟩
    exact hT.congr rfl rfl rfl
  | synced =>
    refine Tracks.of_outer (by exact trivial) ⟨b, .inl rfl, ?_⟩
    rw [hsmooth.synced]
    exact ⟨hT.standing, hT.recording.quiet (.inr rfl) hsite⟩
  | unsynced => exact Tracks.of_outer (by exact trivial) ⟨b, .inl rfl, hT⟩
  | flushLog =>
    refine Tracks.of_outer (by exact trivial) ⟨b, .inl rfl, ?_⟩
    exact ⟨hT.standing, hT.recording.quiet (.inl rfl) hsite⟩
  | beginRewrite =>
    refine Tracks.of_outer (by exact trivial) ?_
    cases hrw : b.rewrite with
    | some r =>
      obtain ⟨hsome, hcall⟩ := hT.recording.begin_busy site.logFaults hrw
      refine ⟨b, .inl rfl, hT.congr rfl ?_ hcall⟩
      exact if_pos hsome
    | none =>
      obtain ⟨hnone, hR⟩ := hT.recording.begin_free site.logFaults hrw
      refine ⟨_, .inr (.start hrw), hT.standing, ?_⟩
      simp only [hnone, Bool.false_eq_true, if_false]
      exact hR
  | startRewrite hspawned =>
    exact ⟨trivial, b, .inl rfl, hT.standing.copying _, hT.recording.start hspawned⟩
  | prepareRewrite snapshot =>
    refine ⟨trivial, b, .inl rfl, hT.standing.copying _, ?_⟩
    rw [hsmooth.created]
    exact hT.recording.prepare hok hsmooth.tmpFaults
  | installRewrite =>
    obtain ⟨b', hstep, -, -, hT'⟩ := hT.install ok hsmooth hok ha
    exact ⟨trivial, b', .inr hstep, hT'⟩

end Tracks

end RedisClone.Server
