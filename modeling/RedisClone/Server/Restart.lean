import RedisClone.Lib.CrashPoints
import RedisClone.Server.Connection
import RedisClone.Server.Readback
import RedisClone.Store.Journal

namespace RedisClone.Server

open Store Resp Lib Lib.Program

section Records

def replayRecord (T : ℤ) (ks : Keyspace) (record : Record) : Keyspace :=
  ((readRecord record).map fun m => m.replayed T ks).getD ks

def replayAll (T : ℤ) (records : List Record) (ks : Keyspace) : Keyspace :=
  records.foldl (replayRecord T) ks

variable {T : ℤ}

lemma replayRecord_record (ks : Keyspace) (m : Mutation) :
    replayRecord T ks m.record = m.replayed T ks := by
  rw [replayRecord, readRecord_record]
  cases m with
  | put key val expiresAt =>
    cases expiresAt with
    | none => rfl
    | some d =>
      simp only [Mutation.rounded, Option.map_some, Option.getD_some, Mutation.replayed,
        floorMilli_idem]
  | putAll pairs => rfl
  | remove keys => rfl
  | touch key d =>
    simp only [Mutation.rounded, Option.map_some, Option.getD_some, Mutation.replayed,
      floorMilli_idem]

lemma replayAll_append (rs rs' : List Record) (ks : Keyspace) :
    replayAll T (rs ++ rs') ks = replayAll T rs' (replayAll T rs ks) := List.foldl_append

lemma replayAll_records (ms : List Mutation) :
    ∀ ks, replayAll T (ms.map Mutation.record) ks = replayedAll T ms ks := by
  induction ms with
  | nil => exact fun _ => rfl
  | cons m ms ih =>
    intro ks
    rw [List.map_cons, replayAll, List.foldl_cons, replayRecord_record]
    exact ih (m.replayed T ks)

end Records

section Load

variable {settings : Settings} {T : ℤ}

lemma loaded_view {record : Record} (hr : parserSize.Logged record) {st : Store × ℕ}
    (hs : WellFormed st.1) :
    (loaded settings (clockAt T) st record).1.view = replayRecord T st.1.view record := by
  have haccepted := accepted_of_logged (fun _ h => h) settings hr
  obtain ⟨m, -, rfl⟩ := hr
  have happlied :=
    applies (exec_image (applyLogged settings m.record) (shift st.2 (clockAt T)) st.1 hs)
  rw [haccepted st.1 _ hs] at happlied
  cases happlied with
  | accepted _ hk =>
    rw [replayRecord_record]
    exact hk

lemma loaded_all {records : List Record} (hr : ∀ record ∈ records, parserSize.Logged record) :
    ∀ st : Store × ℕ, WellFormed st.1 →
      WellFormed (records.foldl (loaded settings (clockAt T)) st).1 ∧
        (records.foldl (loaded settings (clockAt T)) st).1.view =
        replayAll T records st.1.view := by
  induction records with
  | nil => exact fun _ hs => ⟨hs, rfl⟩
  | cons record records ih =>
    intro st hs
    obtain ⟨hrecord, hrecords⟩ := List.forall_mem_cons.1 hr
    obtain ⟨hs', hview⟩ :=
      ih hrecords (loaded settings (clockAt T) st record) (exec_wellFormed _ _ _ hs)
    refine ⟨hs', hview.trans ?_⟩
    rw [loaded_view hrecord hs]
    rfl

lemma stampable_floorMilli {d : ℤ} (h : stampable d = true) : stampable (floorMilli d) = true := by
  rw [stampable_iff] at h ⊢
  simp only [floorMilli, unixMilli, nanosPerMilli] at h ⊢
  omega

lemma kept_replayed {w : Image} (hw : parserSize.Kept w) {m : Mutation} (hm : parserSize.Sound m) :
    parserSize.Kept { w with keyspace := m.replayed T w.keyspace } := by
  cases m with
  | put key val expiresAt =>
    obtain ⟨hkey, hval, htime⟩ := hm
    cases expiresAt with
    | none => exact Limits.kept_set hw ⟨hkey, hval, trivial⟩
    | some d =>
      simp only [Mutation.replayed]
      split_ifs
      · exact Limits.kept_set hw ⟨hkey, hval, stampable_floorMilli htime⟩
      · exact hw.of_entries fun key' it h => hw.entries key' it (Keyspace.of_remove h)
  | putAll pairs => exact Limits.kept_mset hw hm.2.2
  | remove keys => exact hw.of_entries fun key' it h => hw.entries key' it (Keyspace.of_removeAll h)
  | touch key d =>
    refine Limits.kept_expireAt hw fun d' hd => ?_
    obtain rfl := Option.some.inj (Keyspace.deadline_of_kept hd)
    exact stampable_floorMilli hm.2

lemma kept_replayAll {records : List Record} (hr : ∀ record ∈ records, parserSize.Logged record) :
    ∀ {w : Image}, parserSize.Kept w →
      parserSize.Kept { w with keyspace := replayAll T records w.keyspace } := by
  induction records with
  | nil => exact fun hw => hw
  | cons record records ih =>
    intro w hw
    obtain ⟨⟨m, hm, rfl⟩, hrecords⟩ := List.forall_mem_cons.1 hr
    have hnext := ih hrecords (kept_replayed (T := T) hw hm)
    rw [← replayRecord_record] at hnext
    exact hnext

end Load

section Moments

variable (settings : Settings)

def Moment.Evicting (s : Store) (m : Moment) (ks : Keyspace) : Prop :=
  ∃ r victims vs, m.what = .command r ∧ settings.writes r.args = true ∧
    Evicts s.image (exec (enforceMemoryLimit r.fuel) m.inputs s).2.2.image victims ∧
      vs <+: victims ∧
    ks = s.view.removeAll vs

/-- The server as a machine that takes one moment after the other. The only keyspaces there are
between two moments are those of an eviction that has not come to its end. -/
def machine : Machine Store Moment Keyspace where
  step s m := (exec (m.program settings) m.inputs s).2.2
  shows s := s.view
  amid := Moment.Evicting settings

def newRecords (s s' : Store) : List Record := (s'.journal.getD []).drop (s.journal.getD []).length

def logging (later : List ℤ) :
    Logging Store Moment Record Keyspace ({T // T ∈ later} → Keyspace) where
  toMachine := machine settings
  records s m := newRecords s ((machine settings).step s m)
  look ks T := ks.shown T.1
  apply v record T := replayRecord T.1 (v T) record

variable {settings} {later : List ℤ}

lemma newRecords_eq {s s' : Store} {js rs : List Record} (hj : s.journal = some js)
    (hj' : s'.journal = some (js ++ rs)) : newRecords s s' = rs := by
  rw [newRecords, hj, hj']
  exact List.drop_left

lemma rebuild_apply (rs : List Record) (T : {T // T ∈ later}) :
    ∀ v, (logging settings later).rebuild rs v T = replayAll T.1 rs (v T) := by
  induction rs with
  | nil => exact fun _ => rfl
  | cons r rs ih => exact fun v => ih _

lemma length_mutations_le_one (o : Op) (times : ℕ → ℤ) (ks : Keyspace) :
    (o.effect times ks).mutations.length ≤ 1 := by
  have hdel (keys : List Key) (now : ℤ) : (ks.delEffect keys now).mutations.length ≤ 1 := by
    simp only [Keyspace.delEffect]
    split_ifs <;> simp
  have hexpire (key : Key) (deadline : Time) (now : ℤ) :
      (ks.expireEffect key deadline now).mutations.length ≤ 1 := by
    simp only [Keyspace.expireEffect]
    cases (ks.expireKey key deadline now).1 <;> simp [Keyspace.expireMutations]
  cases o with
  | get key =>
    simp only [Op.effect, Keyspace.getEffect]
    split <;> exact Nat.zero_le _
  | set key val => exact le_rfl
  | setWithTTL key val d =>
    simp only [Op.effect, Keyspace.setWithTTLEffect]
    split_ifs
    · exact hdel [key] _
    · exact le_rfl
  | setWithDeadline key val deadline =>
    simp only [Op.effect, Keyspace.setWithDeadlineEffect]
    split_ifs
    · exact le_rfl
    · exact hdel [key] _
  | mset pairs => exact le_rfl
  | increment key delta =>
    simp only [Op.effect, Keyspace.incrementEffect]
    split
    · exact Nat.zero_le _
    · split_ifs
      · exact Nat.zero_le _
      · exact le_rfl
  | append key suffix => exact le_rfl
  | expire key d => exact hexpire key _ _
  | expireAt key deadline => exact hexpire key _ _
  | del keys => exact hdel keys _
  | ttl key => exact Nat.zero_le _
  | exists_ keys => exact Nat.zero_le _
  | dbSize => exact Nat.zero_le _

structure Journals (settings : Settings) (s : Store) (m : Moment) (js : List Record)
    (victims : List Key) (own : List Record) : Prop where
  journal : ((machine settings).step s m).journal =
    some (js ++ ((evictions victims).map Mutation.record ++ own))
  own : own.length ≤ 1
  evicting : victims = [] ∨ ∀ vs, vs <+: victims → m.Evicting settings s (s.view.removeAll vs)

lemma Performs.journal {inputs : ℕ → Input} {w w' : Image} {o : Option Op}
    (h : Performs inputs w w' o) {js : List Record} (hj : w.journal = some js) :
    ∃ own : List Record, own.length ≤ 1 ∧ w'.journal = some (js ++ own) := by
  cases o with
  | none =>
    obtain rfl : w' = w := h
    exact ⟨[], Nat.zero_le _, by rw [hj, List.append_nil]⟩
  | some o =>
    obtain ⟨b, hb⟩ := h
    refine ⟨(o.effect (fun i => (inputs i).time) w.keyspace).mutations.map Mutation.record, ?_, ?_⟩
    · rw [List.length_map]
      exact length_mutations_le_one o _ _
    · rw [hb.image]
      exact congrArg (Option.map _) hj

lemma journals_quietly {s : Store} {m : Moment} {js : List Record} (hj : s.journal = some js)
    (h : ((machine settings).step s m).journal = s.journal) : Journals settings s m js [] [] :=
  ⟨by rw [h, hj]; simp [evictions], Nat.zero_le _, .inl rfl⟩

lemma dispatch_journals (settings : Settings) {s : Store} {r : Request} {inputs : ℕ → Input}
    {js : List Record} (hs : WellFormed s) {T : ℤ} (hT : ∀ i, (inputs i).time ≤ T)
    (hj : s.journal = some js) :
    ∃ victims own, Journals settings s ⟨.command r, inputs⟩ js victims own := by
  have hstep : (machine settings).step s ⟨.command r, inputs⟩ =
    (exec (dispatch settings r.around r.fuel r.args) inputs s).2.2 := rfl
  obtain ⟨args, around, fuel⟩ := r
  rw [← arrive_rest] at hstep
  generalize ha : arrive settings around fuel args = phase at hstep
  cases arrive_cases ha with
  | empty | unknown | arity | misconf => exact ⟨[], [], journals_quietly hj (by rw [hstep]; rfl)⟩
  | @preflight first args cmd hc har hw =>
    simp only [DispatchState.rest] at hstep
    rw [exec_bind] at hstep
    have hs₁ := exec_wellFormed (enforceMemoryLimit fuel) inputs s hs
    obtain ⟨victims, hv, -⟩ :=
      runs_enforceMemoryLimit (exec_image (enforceMemoryLimit fuel) inputs s hs)
    have hwrites : settings.writes (first :: args) = true := by
      simp [Settings.writes, Settings.lookup, hc, har, hw]
    have hev : ∀ vs, vs <+: victims →
        Moment.Evicting settings s ⟨.command ⟨first :: args, around, fuel⟩, inputs⟩
            (s.view.removeAll vs) :=
      fun vs hvs => ⟨_, victims, vs, rfl, hwrites, hv, hvs, rfl⟩
    have hj₁ : (exec (enforceMemoryLimit fuel) inputs s).2.2.image.journal =
        some (js ++ (evictions victims).map Mutation.record) := by
      rw [hv.image]
      exact congrArg (Option.map _) hj
    have hstop : (machine settings).step s ⟨.command ⟨first :: args, around, fuel⟩, inputs⟩ =
        (exec (enforceMemoryLimit fuel) inputs s).2.2 → ∃ victims own,
          Journals settings s ⟨.command ⟨first :: args, around, fuel⟩, inputs⟩ js victims own :=
      fun h => ⟨victims, [], by rw [h, List.append_nil]; exact hj₁, Nat.zero_le _, .inr hev⟩
    simp only at hstep
    cases henf : (exec (enforceMemoryLimit fuel) inputs s).1 with
    | running evicted =>
      rw [henf] at hstep
      exact hstop hstep
    | finished evicted fits =>
      rw [henf] at hstep
      cases fits with
      | false => exact hstop hstep
      | true =>
        have hrun := exec_image (some <$> cmd.fn settings around args)
          (shift (exec (enforceMemoryLimit fuel) inputs s).2.1 inputs) _ hs₁
        obtain ⟨reply, hr, -⟩ := runs_map.1 hrun
        obtain ⟨own, hown, hj₂⟩ := (write_performs hc hw hr).journal hj₁
        refine ⟨victims, own, ?_, hown, .inr hev⟩
        rw [hstep, ← List.append_assoc]
        exact hj₂
  | @handler first args cmd hc _ hw =>
    have hrun := exec_image (some <$> cmd.fn settings around args) inputs s hs
    obtain ⟨reply, hr, -⟩ := runs_map.1 hrun
    refine ⟨[], [], journals_quietly hj ?_⟩
    rw [hstep]
    exact (quietly_of_only (read_quiet hc hw) hT hr).1

lemma moment_journals (settings : Settings) {s : Store} {m : Moment} {js : List Record}
    (hs : WellFormed s) {T : ℤ} (hT : ∀ i, (m.inputs i).time ≤ T) (hj : s.journal = some js) :
    ∃ victims own, Journals settings s m js victims own := by
  obtain ⟨what, inputs⟩ := m
  cases what with
  | command r => exact dispatch_journals settings hs hT hj
  | expiryCycle =>
    have hrun := exec_image ((fun _ => some ([] : Response)) <$> activeExpireCycle) inputs s hs
    obtain ⟨_, hr, -⟩ := runs_map.1 hrun
    exact ⟨[], [], journals_quietly hj (runs_expireRounds hT hr).2⟩

lemma replayAll_evictions (T : ℤ) (vs : List Key) (ks : Keyspace) :
    replayAll T ((evictions vs).map Mutation.record) (ks.shown T) = (ks.removeAll vs).shown T := by
  rw [replayAll_records, Keyspace.shown_removeAll, replayedAll, evictions, List.foldl_map]
  rfl

/-- The request is one that the parser lets through, and answered by `stop`. Every value and every
deadline that is stored on the way is one the log can carry, and no lifetime is extended that
matters to whoever starts later. -/
structure Moment.Regular (settings : Settings) (stop : ℤ) (later : List ℤ)
    (s : Store) (m : Moment) : Prop where
  request : ∀ r, m.what = .command r → WithinLimits r.args
  returns : (exec (m.program settings) m.inputs s).1.isSome = true
  clock : ∀ i, (m.inputs i).time ≤ stop
  stores : passes (S := sig) Store.perform storable (m.program settings) m.inputs s = true
  extends_ : ∀ T ∈ later, m.extendsPast settings T s = false

lemma Moment.Regular.kept {stop : ℤ} {s : Store} {m : Moment} (h : m.Regular settings stop later s)
    (hs : WellFormed s) (hk : parserSize.Kept s.image) :
    parserSize.Kept (exec (m.program settings) m.inputs s).2.2.image := by
  have hadmits (s : Store) (a : Act) (ha : storable s a = true) : parserSize.Admits s.view a := by
    obtain ⟨htime, hsize⟩ := Bool.and_eq_true_iff.1 ha
    exact admits_parserSize htime hsize
  have hproper : parserSize.Proper (fun _ => True) (m.program settings) := by
    obtain ⟨what, inputs⟩ := m
    cases what with
    | command r =>
      exact proper_dispatch (show 1 < maxArrayLength by decide)
        (WithinLimits.fits (h.request r rfl) (fun _ h => h) fun _ h => h)
    | expiryCycle => exact Obeys.map _ (Limits.proper_expireRounds _ _ _)
  exact Limits.exec_kept hadmits hproper hs hk h.stores

lemma Moment.Regular.faithful {stop : ℤ} {s : Store} {m : Moment} {js : List Record}
    (h : m.Regular settings stop later s) (hlater : ∀ T ∈ later, stop ≤ T) (hs : WellFormed s)
    (hj : s.journal = some js) : (logging settings later).Faithful s m := by
  obtain ⟨victims, own, hJ⟩ := moment_journals settings hs h.clock hj
  have hnew : (logging settings later).records s m = (evictions victims).map Mutation.record ++
    own := newRecords_eq hj hJ.journal
  constructor
  · intro n hn
    have hn' : n ≤ victims.length := by
      have hlen := hJ.own
      rw [hnew, List.length_append, List.length_map, evictions, List.length_map] at hn
      omega
    refine ⟨s.view.removeAll (victims.take n), ?_, ?_⟩
    · rcases hJ.evicting with rfl | hev
      · rw [List.take_nil]
        exact .inl rfl
      · exact .inr (hev _ (List.take_prefix n victims))
    · have htake : ((logging settings later).records s m).take n =
          (evictions (victims.take n)).map Mutation.record := by
        rw [hnew, List.take_append_of_le_length, evictions, evictions, ← List.map_take,
          ← List.map_take]
        rwa [List.length_map, evictions, List.length_map]
      funext T
      rw [htake, rebuild_apply]
      exact replayAll_evictions T.1 _ _
  · funext T
    obtain ⟨ms, hms, hview⟩ := moment_durably hs (fun i => (h.clock i).trans (hlater T.1 T.2))
      (h.extends_ T.1 T.2)
    have hms' : ((machine settings).step s m).journal = some (js ++ ms.map Mutation.record) :=
      hms.trans (congrArg (Option.map _) hj)
    have hrecords : (logging settings later).records s m = ms.map Mutation.record :=
      newRecords_eq hj hms'
    rw [hrecords, rebuild_apply, replayAll_records]
    exact hview

structure Went (settings : Settings) (later : List ℤ) (moments : List Moment) (s : Store)
    (js : List Record) : Prop where
  faithful : (logging settings later).Along (logging settings later).Faithful moments s
  run : serve settings moments s = (machine settings).run moments s
  journal :
    (serve settings moments s).journal = some (js ++ (logging settings later).logged moments s)

lemma went {stop : ℤ} {moments : List Moment} (hlater : ∀ T ∈ later, stop ≤ T) :
    ∀ {s : Store} {js : List Record}, WellFormed s → s.journal = some js →
      Along settings (fun s m => m.Regular settings stop later s) moments s →
      Went settings later moments s js := by
  induction moments with
  | nil => exact fun _ hj _ => ⟨trivial, rfl, hj.trans (by rw [Logging.logged, List.append_nil])⟩
  | cons m moments ih =>
    intro s js hs hj halong
    obtain ⟨hm, hrest⟩ := halong
    obtain ⟨victims, own, hJ⟩ := moment_journals settings hs hm.clock hj
    have hfaith := hm.faithful hlater hs hj
    have hs' := exec_wellFormed (m.program settings) m.inputs s hs
    have hnew := newRecords_eq hj hJ.journal
    have hret := hm.returns
    rcases hx : exec (m.program settings) m.inputs s with ⟨reply, k, s'⟩
    have hstep : (machine settings).step s m = s' := congrArg (·.2.2) hx
    rw [hx] at hs' hrest hret
    cases reply with
    | none => cases hret
    | some reply =>
      have hserve : serve settings (m :: moments) s = serve settings moments s' := by rw [serve, hx]
      obtain ⟨hf, hrun, hj'⟩ := ih hs' (hstep ▸ hJ.journal) hrest
      refine ⟨⟨hfaith, ?_⟩, ?_, ?_⟩
      · exact (congrArg (fun s => (logging settings later).Along _ moments s) hstep).mpr hf
      · rw [hserve, hrun, Machine.run, Machine.run, List.foldl_cons, hstep]
      · have hrecords : (logging settings later).records s m =
          (evictions victims).map Mutation.record ++ own := hnew
        have hnext : (logging settings later).step s m = s' := hstep
        rw [hserve, hj', Logging.logged, hrecords, hnext, List.append_assoc js]

lemma Along.mono {P Q : Store → Moment → Prop} (hPQ : ∀ s m, P s m → Q s m)
    {moments : List Moment} :
    ∀ {s : Store}, Along settings P moments s → Along settings Q moments s := by
  induction moments with
  | nil => exact fun _ => trivial
  | cons m moments ih =>
    intro s ⟨hp, hrest⟩
    refine ⟨hPQ s m hp, ?_⟩
    revert hrest
    rcases exec (m.program settings) m.inputs s with ⟨_ | reply, k, s'⟩
    · exact id
    · exact ih

lemma Along.left {Q : Store → Moment → Prop} {before after : List Moment} :
    ∀ {s : Store}, Along settings Q (before ++ after) s → Along settings Q before s := by
  induction before with
  | nil => exact fun _ => trivial
  | cons m before ih =>
    intro s ⟨hq, hrest⟩
    refine ⟨hq, ?_⟩
    revert hrest
    rcases exec (m.program settings) m.inputs s with ⟨_ | reply, k, s'⟩
    · exact id
    · exact ih

end Moments

section Lives

variable (settings : Settings) (maxMemory : ℤ) (policy : EvictionPolicy)

/-- The server from its start on: `main` replays the log that there is, opens it for appending and
attaches it to the store. A log that cannot be replayed ends the process. -/
def comeUp (T : ℤ) (file : Option Bytes) : Option (Store × Bytes) :=
  match Aof.replay (load settings (clockAt T)) (configured false maxMemory policy, 0) file with
  | some ⟨_, none, st, file⟩ => some (st.1.setJournal, file.getD [])
  | _ => none

/-- A life of the server: it comes up at `start`, serves these moments, and is gone at `stop`. Of
the log it has written, `kept` bytes are there for the next. -/
structure Life where
  start : ℤ
  moments : List Moment
  stop : ℤ
  kept : ℕ

def Life.leaves (l : Life) (file : Option Bytes) : Option Bytes :=
  match comeUp settings maxMemory policy l.start file with
  | none => file
  | some (s, log) =>
    some ((log ++ Aof.encodeAll ((serve settings l.moments s).journal.getD [])).take l.kept)

def leftBy (lives : List Life) (file : Option Bytes) : Option Bytes :=
  lives.foldl (fun file l => l.leaves settings maxMemory policy file) file

def Held : List Life → Option Bytes → Keyspace → Prop
  | [], _, _ => False
  | l :: lives, file, ks =>
    (∃ s log, comeUp settings maxMemory policy l.start file = some (s, log) ∧
      (machine settings).Passes l.moments s ks) ∨
        Held lives (l.leaves settings maxMemory policy file) ks

/-- A life without a background rewrite, in which one request is answered after the other. -/
def Life.Regular (l : Life) (later : List ℤ) (s : Store) : Prop :=
  Along settings (fun s m => m.Regular settings l.stop later s) l.moments s

def Succession (T : ℤ) : ℤ → Option Bytes → List Life → Prop
  | now, _, [] => now ≤ T
  | now, file, l :: lives => now ≤ l.start ∧ l.start ≤ l.stop ∧
    (∀ s log, comeUp settings maxMemory policy l.start file = some (s, log) →
      l.Regular settings (lives.map Life.start ++ [T]) s) ∧
    Succession T l.stop (l.leaves settings maxMemory policy file) lives

variable {settings maxMemory policy}

lemma comeUp_getD (T : ℤ) (file : Option Bytes) :
    comeUp settings maxMemory policy T file = comeUp settings maxMemory policy T
      (some (file.getD [])) := by
  cases file <;> rfl

lemma shown_shown (ks : Keyspace) {now later : ℤ} (h : now ≤ later) :
    (ks.shown now).shown later = ks.shown later := by
  have hrounded : (ks.shown now).rounded = ks.shown now := by
    funext key
    simp only [Keyspace.shown, Keyspace.rounded, Keyspace.alive_apply]
    cases ks key with
    | none => rfl
    | some it =>
      simp only [Option.map_some, Option.filter]
      split_ifs
      · simp only [Option.map_some, Keyspace.roundItem, map_floorMilli_idem]
      · rfl
  rw [Keyspace.shown, hrounded]
  exact Keyspace.alive_alive _ h

variable (maxMemory policy) in
/-- What the server finds that starts at `T` on a log of these records, cut after `p` bytes. -/
lemma comeUp_cut {records : List Record} (hr : ∀ record ∈ records, parserSize.Logged record)
    {file : Option Bytes} {p : ℕ} (hfile : file.getD [] = (Aof.encodeAll records).take p) (T : ℤ) :
    ∃ s n, comeUp settings maxMemory policy T file = some (s, Aof.encodeAll (records.take n)) ∧
    n ≤ records.length ∧
      (∀ k ≤ records.length, (Aof.encodeAll (records.take k)).length ≤ p → k ≤ n) ∧
      WellFormed s ∧ s.journal = some [] ∧ s.view = replayAll T (records.take n) fun _ => none := by
  have hcut :
      file.getD [] = (Aof.encodeAll records).take (min p (Aof.encodeAll records).length) := by
    rw [hfile, List.take_eq_take_min]
  have hacc := load_accepts settings (clockAt T) fun record h =>
    accepted_of_logged (fun _ h => h) settings (hr record h)
  have hwf : WellFormed ((configured false maxMemory policy, 0) : Store × ℕ).1 :=
    configured_wellFormed false maxMemory policy
  have hreplay := Aof.replayFile_cut hacc (fun record h => withinLimits_of_parserSize (hr record h))
    (min_le_right p _) hwf
  set n := Aof.fitting records (min p (Aof.encodeAll records).length)
  obtain ⟨hs, hview⟩ :=
    loaded_all (T := T) (fun record h => hr record (List.mem_of_mem_take h)) _ hwf
  refine ⟨((records.take n).foldl (loaded settings (clockAt T))
    (configured false maxMemory policy, 0)).1.setJournal, n, ?_,
    Aof.fitting_le_length _ _, fun k hk hp => ?_, hs, rfl, hview⟩
  · rw [comeUp_getD, hcut, comeUp, Aof.replay, hreplay]
    rfl
  · apply Aof.le_fitting hk
    apply le_min hp
    rw [← Aof.encodeAll_take_prefix, List.length_take]
    exact min_le_right _ _

structure Retraces (later : List ℤ) (held : ℕ → Keyspace → Prop) (records : List Record) :
    Prop where
  logged : ∀ record ∈ records, parserSize.Logged record
  rebuilt : ∀ n ≤ records.length, ∃ ks, held n ks ∧ ∀ T ∈ later,
    replayAll T (records.take n) (fun _ => none) = ks.shown T

/-- What the log of a life that began on `n` records makes when `k` records of it are left:
something held before or in this life, and nothing older than what these records were written
after. -/
def Life.Holds (settings : Settings) (l : Life) (s : Store) (n : ℕ) (held : Keyspace → Prop) (k : ℕ)
    (ks : Keyspace) : Prop :=
  (held ks ∨ (machine settings).Passes l.moments s ks) ∧
    ∀ before after, l.moments = before ++ after →
      n + ((serve settings before s).journal.getD []).length ≤ k →
      (machine settings).Passes after (serve settings before s) ks

def Life.Writes (settings : Settings) (l : Life) (s : Store) : Prop :=
  ∀ before after, l.moments = before ++ after →
    (serve settings before s).journal.getD [] <+: (serve settings l.moments s).journal.getD []

lemma Life.Regular.left {l : Life} {later : List ℤ} {s : Store} (hl : l.Regular settings later s)
    {before after : List Moment} (hsplit : l.moments = before ++ after) :
    Along settings (fun s m => m.Regular settings l.stop later s) before s := by
  rw [Life.Regular, hsplit] at hl
  exact Along.left hl

lemma Life.Regular.writes {l : Life} {later : List ℤ} {s : Store} (hl : l.Regular settings later s)
    (hlater : ∀ T ∈ later, l.stop ≤ T) (hs : WellFormed s) (hj : s.journal = some []) :
    l.Writes settings s := by
  intro before after hsplit
  have hall := went hlater hs hj hl
  have hbefore := went hlater hs hj (hl.left hsplit)
  rw [hall.journal, hbefore.journal, hsplit, Logging.logged_append]
  exact List.prefix_append _ _

lemma Life.Regular.logged {l : Life} {later : List ℤ} {s : Store} (hl : l.Regular settings later s)
    (hs : WellFormed s) (hk : parserSize.Kept s.image) :
    ∀ record ∈ (serve settings l.moments s).journal.getD [], parserSize.Logged record := by
  have hkept : parserSize.Kept (serve settings l.moments s).image :=
    serve_induction (R := fun s s' => parserSize.Kept s.image → parserSize.Kept s'.image)
      (fun _ h => h) (fun h h' hk => h' (h hk)) (fun s m hs hm => hm.kept hs) l.moments s hs hl hk
  intro record hrecord
  cases hj : (serve settings l.moments s).journal with
  | none =>
    rw [hj] at hrecord
    exact absurd hrecord List.not_mem_nil
  | some records =>
    rw [hj] at hrecord
    exact hkept.journal records hj record hrecord

lemma Retraces.life {held : ℕ → Keyspace → Prop} {records : List Record} {n : ℕ} {l : Life}
    {later : List ℤ} {s : Store} (h : Retraces (l.start :: later) held records)
    (hn : n ≤ records.length) (hs : WellFormed s) (hj : s.journal = some [])
    (hview : s.view = replayAll l.start (records.take n) fun _ => none)
    (hstop : l.start ≤ l.stop) (hlater : ∀ T ∈ later, l.stop ≤ T)
    (hl : l.Regular settings later s) :
    Retraces later (l.Holds settings s n fun ks => ∃ k, held k ks)
      (records.take n ++ (serve settings l.moments s).journal.getD []) := by
  obtain ⟨hfaithful, hrun, hjournal⟩ := went hlater hs hj hl
  have hlogged : (serve settings l.moments s).journal.getD [] =
      (logging settings later).logged l.moments s := by
    rw [hjournal]
    rfl
  have hkept : parserSize.Kept s.image := by
    have hempty : parserSize.Kept ⟨fun _ => none, some []⟩ :=
      kept_configured true 0 .noEviction
    have htaken : ∀ record ∈ records.take n, parserSize.Logged record := fun record hr =>
      h.logged record (List.mem_of_mem_take hr)
    have hbuilt := kept_replayAll (T := l.start) htaken hempty
    rw [← hview, ← hj] at hbuilt
    exact hbuilt
  refine ⟨fun record hrecord => ?_, fun k hk => ?_⟩
  · rcases List.mem_append.1 hrecord with hrecord | hrecord
    · exact h.logged record (List.mem_of_mem_take hrecord)
    · exact hl.logged hs hkept record hrecord
  have hlen : (records.take n).length = n := List.length_take_of_le hn
  by_cases hkn : k < n
  · obtain ⟨ks, hks, hrebuilt⟩ := h.rebuilt k (hkn.le.trans hn)
    refine ⟨ks, ⟨.inl ⟨k, hks⟩, fun before after _ hle => absurd hle (by omega)⟩, fun T hT => ?_⟩
    rw [List.take_append_of_le_length (by omega), List.take_take, min_eq_left hkn.le]
    exact hrebuilt T (List.mem_cons_of_mem _ hT)
  · obtain ⟨ks₀, -, hstart⟩ := h.rebuilt n hn
    rw [hlogged, List.length_append, hlen] at hk
    obtain ⟨ks, hpasses, hrebuilt, hlate⟩ := Logging.rebuild_cut hfaithful (k - n) (by omega)
    refine ⟨ks, ⟨.inr hpasses, fun before after hsplit hle => ?_⟩, fun T hT => ?_⟩
    · have hbefore := went hlater hs hj (hl.left hsplit)
      rw [hbefore.journal] at hle
      rw [hbefore.run]
      refine hlate before after hsplit ?_
      simp only [Option.getD_some, List.nil_append] at hle
      omega
    · have hshown : replayAll T (records.take n) (fun _ => none) = s.view.shown T := by
        rw [hview, hstart l.start List.mem_cons_self, hstart T (List.mem_cons_of_mem _ hT)]
        exact (shown_shown ks₀ (hstop.trans (hlater T hT))).symm
      rw [hlogged, List.take_append, hlen, List.take_of_length_le (by omega)]
      rw [replayAll_append, hshown]
      exact (rebuild_apply _ ⟨T, hT⟩ _).symm.trans (congrFun hrebuilt ⟨T, hT⟩)

lemma Succession.le {T : ℤ} {lives : List Life} : ∀ {now : ℤ} {file : Option Bytes},
    Succession settings maxMemory policy T now file lives →
    ∀ T' ∈ lives.map Life.start ++ [T], now ≤ T' := by
  induction lives with
  | nil =>
    intro now file h T' hT'
    obtain rfl := List.mem_singleton.1 hT'
    exact h
  | cons l lives ih =>
    intro now file ⟨hstart, hstop, _, hrest⟩ T' hT'
    rcases List.mem_cons.1 hT' with rfl | hT'
    · exact hstart
    · exact (hstart.trans hstop).trans (ih hrest T' hT')

lemma Retraces.next {held : ℕ → Keyspace → Prop} {records : List Record} {p : ℕ} {l : Life}
    {lives : List Life} {file : Option Bytes} {T now : ℤ}
    (h : Retraces ((l :: lives).map Life.start ++ [T]) held records)
    (hfile : file.getD [] = (Aof.encodeAll records).take p)
    (hlives : Succession settings maxMemory policy T now file (l :: lives)) :
    ∃ s rs, comeUp settings maxMemory policy l.start file = some (s, Aof.encodeAll rs) ∧
      Retraces (lives.map Life.start ++ [T]) (l.Holds settings s rs.length fun ks => ∃ k, held k ks)
        (rs ++ (serve settings l.moments s).journal.getD []) ∧ l.Writes settings s ∧
      l.leaves settings maxMemory policy file = some
          ((Aof.encodeAll (rs ++ (serve settings l.moments s).journal.getD [])).take l.kept) := by
  obtain ⟨-, hstop, hl, hrest⟩ := hlives
  obtain ⟨s, n, hup, hn, -, hs, hj, hview⟩ := comeUp_cut maxMemory policy h.logged hfile l.start
  have hregular := hl s _ hup
  refine ⟨s, records.take n, hup, ?_, hregular.writes hrest.le hs hj, ?_⟩
  · rw [List.length_take_of_le hn]
    exact h.life hn hs hj hview hstop hrest.le hregular
  · simp only [Life.leaves, hup, Aof.encodeAll_append]

lemma Retraces.mono {later : List ℤ} {held held' : ℕ → Keyspace → Prop} {records : List Record}
    (h : Retraces later held records) (hh : ∀ n ks, held n ks → held' n ks) :
    Retraces later held' records :=
  ⟨h.logged, fun n hn => (h.rebuilt n hn).imp fun ks hks => ⟨hh n ks hks.1, hks.2⟩⟩

lemma Retraces.lives {l : Life} {T : ℤ} (lives : List Life) :
    ∀ {held : ℕ → Keyspace → Prop} {records : List Record} {p : ℕ}
    {file : Option Bytes} {now : ℤ}, Retraces ((lives ++ [l]).map Life.start ++ [T]) held records →
    file.getD [] = (Aof.encodeAll records).take p →
    Succession settings maxMemory policy T now file (lives ++ [l]) →
    ∃ s rs, comeUp settings maxMemory policy l.start (leftBy settings maxMemory policy lives file) =
    some (s, Aof.encodeAll rs) ∧ Retraces [T] (l.Holds settings s rs.length fun ks =>
        (∃ k, held k ks) ∨ Held settings maxMemory policy lives file ks)
        (rs ++ (serve settings l.moments s).journal.getD []) ∧ l.Writes settings s ∧
      leftBy settings maxMemory policy (lives ++ [l]) file = some
            ((Aof.encodeAll (rs ++ (serve settings l.moments s).journal.getD [])).take l.kept) := by
  induction lives with
  | nil =>
    intro held records p file now h hfile hlives
    obtain ⟨s, rs, hup, hnext, hwrites, hleaves⟩ := h.next hfile hlives
    exact ⟨s, rs, hup, hnext.mono fun n ks hks => ⟨hks.1.imp_left .inl, hks.2⟩, hwrites, hleaves⟩
  | cons l₀ lives ih =>
    intro held records p file now h hfile hlives
    obtain ⟨s₀, rs₀, hup₀, hnext, -, hleaves⟩ := h.next hfile hlives
    obtain ⟨s, rs, hup, hlast, hwrites, hleft⟩ := ih hnext (by rw [hleaves]; rfl) hlives.2.2.2
    refine ⟨s, rs, hup, hlast.mono fun n ks hks => ⟨hks.1.imp_left ?_, hks.2⟩, hwrites, hleft⟩
    rintro (⟨k, hheld | hpasses, -⟩ | hheld)
    · exact .inl hheld
    · exact .inr (.inl ⟨s₀, _, hup₀, hpasses⟩)
    · exact .inr (.inr hheld)

end Lives

end RedisClone.Server
