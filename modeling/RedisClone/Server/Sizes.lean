import RedisClone.Server.Footprint
import RedisClone.Store.LockRule

namespace RedisClone.Server

open Store Resp Lib Lib.Program Lib.Decimal

/-- Instants are unbounded here, while `UnixMilli` is an `int64`. -/
def inMillis (d : ℤ) : Bool := inInt64 (unixMilli d)

def bulkSize : Limits where
  bulk b := b.length ≤ maxBulkLength
  count n := n < maxArrayLength
  deadline d := inMillis d = true
  count_le h hn := h.trans_lt hn

def Stamped : Act → Prop
  | .set _ _ expiresAt => expiresAt.all inMillis = true
  | .expireAt _ deadline _ => deadline.all inMillis = true
  | _ => True

/-- Clock readings are 64-bit counts of nanoseconds, and the deadlines in the store are such that
their milliseconds are. -/
def InClock : (a : Act) → a.Resp → Prop
  | .now, now => inInt64 now = true
  | .lookup _, e => (deadlineOf e).all inMillis = true
  | _, _ => True

def Sized (a : Act) : Prop := inSize a = true

lemma inMillis_of_inInt64 {d : ℤ} (h : inInt64 d = true) : inMillis d = true := by
  rw [inMillis, inInt64_iff, unixMilli, nanosPerMilli] at *
  simp only [minInt64, maxInt64] at *
  omega

lemma inMillis_add {now d : ℤ} (hn : inInt64 now = true) (hd : inInt64 d = true) :
    inMillis (now + d) = true := by
  rw [inInt64_iff] at hn hd
  rw [inMillis, inInt64_iff, unixMilli, nanosPerMilli]
  simp only [minInt64, maxInt64] at *
  omega

lemma stores_stamped (args : List Bytes) (appends : Prop) :
    Stores Stamped InClock args appends where
  other a ha := by cases a <;> first | exact trivial | cases ha
  set _ _ _ := rfl
  setAt _ _ _ _ hd := inMillis_of_inInt64 hd
  setIn _ _ _ _ hd _ hn := inMillis_add hn hd
  mset _ _ := trivial
  count _ _ _ _ he := he.elim (fun h => h ▸ rfl) id
  append _ _ _ _ _ _ he := he.elim (fun h => h ▸ rfl) id
  expireAt _ _ hd _ := inMillis_of_inInt64 hd
  expireIn _ _ hd _ hn _ := inMillis_add hn hd

/-- Of the commands that write, all but `APPEND` store what they were sent, or a number. -/
lemma stores_sized {args : List Bytes} {appends : Prop} (h : ∀ a ∈ args, a.length ≤ maxBulkLength)
    (happ : ¬ appends) : Stores Sized (fun _ _ => True) args appends where
  other a ha := by cases a <;> first | rfl | cases ha
  set _ val hv := decide_eq_true (h val hv)
  setAt _ val hv _ _ := decide_eq_true (h val hv)
  setIn _ val hv _ _ _ _ := decide_eq_true (h val hv)
  mset _ _ := rfl
  count _ _ hn _ _ := decide_eq_true ((formatInt_length_le hn).trans (by decide))
  append ha := absurd ha happ
  expireAt _ _ _ _ := rfl
  expireIn _ _ _ _ _ _ := rfl

def Client.operation (settings : Settings) : Client → Option Op
  | .command r => Server.operation settings r.args
  | _ => none

lemma within_client {P : Act → Prop} {Q : (a : Act) → a.Resp → Prop} {settings : Settings}
    {client : Client} (hother : ∀ a : Act, a.stores = false → P a)
    (h : ∀ r, client = .command r → Stores P Q r.args.tail
        (∃ key suffix, client.operation settings = some (.append key suffix))) :
    Within P Q (client.program settings) := by
  cases client with
  | expiryCycle =>
    exact within_map
      (within_activeExpireCycle (hother _ rfl) (hother _ rfl) fun _ _ _ _ => hother _ rfl) _
  | rewrite =>
    exact within_map
      (within_aofSnapshot (hother _ rfl) (fun _ => hother _ rfl) fun _ _ => hother _ rfl) _
  | command r => exact within_map (within_dispatch (h r rfl)) _

section Appending

def unexpiredValue (now : ℤ) (it : Option Item) : Bytes :=
  ((it.filter fun it => !it.expired now).map Item.val).getD []

/-- An `APPEND` that is about to look up its key finds a value there that its suffix makes too
long. -/
def Client.overlong (settings : Settings) (client : Client) (ks : Keyspace) (now : ℤ) : Act → Bool
  | .lookup key =>
    match client.operation settings with
    | some (.append _ suffix) =>
      decide (maxBulkLength < (unexpiredValue now (ks key)).length + suffix.length)
    | _ => false
  | _ => false

/-- How far an `APPEND` has got: the time on the clock, how many steps ago it was read, and the
value that has been found. -/
structure Appending where
  clock : Option (ℤ × ℕ)
  found : Option Bytes

namespace Appending

def later (g : Appending) : Option (ℤ × ℕ) := g.clock.map fun reading => (reading.1, reading.2 + 1)

def next (g : Appending) : (a : Act) → a.Resp → Appending
  | .now, now => ⟨some (now, 0), g.found⟩
  | .lookup _, e =>
    ⟨g.later, g.clock.map fun reading => unexpiredValue reading.1 (e.map Entry.item)⟩
  | _, _ => ⟨g.later, g.found⟩

def allows (suffix : Bytes) (g : Appending) : Act → Prop
  | .lookup _ => ∃ T, g.clock = some (T, 1)
  | .set _ val _ => ∃ found, g.found = some found ∧ val = found ++ suffix
  | _ => True

end Appending

abbrev Appends {α : Type} (suffix : Bytes) (g : Appending) (p : Prog α) : Prop :=
  Follows (S := sig) (fun _ _ => True) (Appending.allows suffix) Appending.next
    (fun _ _ => True) g p

variable {α : Type} {suffix : Bytes}

lemma appends_of_only {p : Prog α} (hp : Only (fun a : Act => ∀ g, Appending.allows suffix g a) p) :
    ∀ g, Appends suffix g p := by
  unfold Only at hp
  induction hp with
  | done _ => exact fun _ => .done trivial
  | act ha _ ih => exact fun g => .act (ha g) fun r _ => ih r trivial _

lemma appends_append (key : Key) (g : Appending) : Appends suffix g (Store.append key suffix) := by
  have hstore (g : Appending) (e : Option Entry)
      (hfound : g.found = some ((e.map Entry.val).getD [])) : Appends suffix g (do
        setLocked key ((e.map Entry.val).getD [] ++ suffix) (deadlineOf e)
        invoke .unlockDurableMutation
        return ((e.map Entry.val).getD [] ++ suffix).length) :=
    .act ⟨_, hfound, rfl⟩ fun _ _ => .act trivial fun _ _ => .act trivial fun _ _ => .done trivial
  have hfind (now : ℤ) (g : Appending) (e : Option Entry)
      (hfound : g.found = some (unexpiredValue now (e.map Entry.item))) :
      Follows (S := sig) (fun _ _ => True) (Appending.allows suffix) Appending.next
        (fun g e => g.found = some ((e.map Entry.val).getD [])) g (deleteIfExpired key now e) := by
    cases e with
    | none => exact .done hfound
    | some e =>
      cases hx : e.expired now with
      | true =>
        rw [deleteIfExpired, if_pos hx]
        refine .act trivial fun _ _ => .done (hfound.trans ?_)
        rw [unexpiredValue, Option.map_some, Option.filter_some_neg (by simp [hx])]
        rfl
      | false =>
        rw [deleteIfExpired, if_neg (by simp [hx])]
        refine .done (hfound.trans ?_)
        rw [unexpiredValue, Option.map_some, Option.filter_some_pos (by simp [hx])]
        rfl
  refine .act trivial fun now _ => .act trivial fun _ _ => .act ⟨now, rfl⟩ fun e _ => ?_
  exact (hfind now _ e rfl).bind hstore

lemma appends_client {settings : Settings} {client : Client} {key : Key}
    (h : client.operation settings = some (.append key suffix)) (g : Appending) :
    Appends suffix g (client.program settings) := by
  cases client with
  | expiryCycle | rewrite => cases h
  | command r =>
    obtain ⟨request, around, fuel⟩ := r
    refine Follows.map _ ?_
    rw [← arrive_rest]
    generalize ha : arrive settings around fuel request = phase
    have hplumbed : Plumbed fun a : Act => ∀ g, Appending.allows suffix g a :=
      ⟨fun a ha _ => by cases a <;> first | exact trivial | cases ha⟩
    cases arrive_cases ha with
    | empty | unknown | arity | misconf => exact .done trivial
    | preflight hc _ hw =>
      refine (appends_of_only
        (hplumbed.enforceMemoryLimit (fun _ _ => trivial) (fun _ _ _ => trivial)
        (fun _ _ => trivial) (fun _ => trivial) fuel) g).bind fun g e _ => ?_
      cases e with
      | running evicted => exact .done trivial
      | finished evicted fits =>
        cases fits with
        | false => exact .done trivial
        | true =>
          rcases write_program hc hw settings around _ with ⟨-, b, hb, -⟩ | ⟨o, ho, hfn⟩
          · rw [hb]
            exact .done trivial
          · obtain rfl := Option.some.inj (ho.symm.trans h)
            rw [hfn]
            exact Follows.map _ (Follows.map _ (Follows.map _ (appends_append key g)))
    | handler hc _ hw =>
      exact absurd (h.symm.trans (read_writeOperation hc hw _ _)) (Option.some_ne_none _)

end Appending

lemma admits_bulkSize {ks : Keyspace} {a : Act} (ht : Stamped a) (hs : inSize a = true) :
    bulkSize.Admits ks a := by
  cases a with
  | set key val expiresAt =>
    have hb : val.length ≤ maxBulkLength := of_decide_eq_true hs
    refine ⟨hb, ?_⟩
    cases expiresAt with
    | none => trivial
    | some d => exact ht
  | expireAt key deadline now =>
    intro d hd
    obtain rfl := Keyspace.deadline_of_kept hd
    exact ht
  | _ => exact trivial

lemma inClock_of_kept {a : Act} {i : Input} {r : a.Resp} {w w' : Image} (hw : bulkSize.Kept w)
    (hi : inInt64 i.time = true) (h : ActSpec a i r w w') : InClock a r := by
  cases a with
  | now =>
    obtain ⟨rfl, -⟩ := actSpec_now.1 h
    exact hi
  | lookup key =>
    obtain ⟨hr, -⟩ := actSpec_lookup.1 h
    cases r with
    | none => rfl
    | some e =>
      have ht := (hw.entries key e.item hr.symm).2.2
      change e.expiresAt.all inMillis = true
      cases he : e.expiresAt with
      | none => rfl
      | some d =>
        change bulkSize.time e.expiresAt at ht
        rw [he] at ht
        exact ht
  | _ => exact trivial

section Run

variable {ι : Type}

structure Appending.Tracks (inputs : ℕ → Input) (taken : ℕ) (suffix : Bytes) (g : Appending) :
    Prop where
  clock : ∀ T n, g.clock = some (T, n) → ∃ m, taken = m + n + 1 ∧ T = (inputs m).time
  found : ∀ found, g.found = some found → found.length + suffix.length ≤ maxBulkLength

lemma Appending.Tracks.later {inputs : ℕ → Input} {taken : ℕ} {suffix : Bytes} {g : Appending}
    (h : g.Tracks inputs taken suffix) (T : ℤ) (n : ℕ) (hT : g.later = some (T, n)) :
    ∃ m, taken + 1 = m + n + 1 ∧ T = (inputs m).time := by
  obtain ⟨⟨T', n'⟩, hclock, he⟩ := Option.map_eq_some_iff.1 hT
  obtain ⟨rfl, rfl⟩ := Prod.mk.inj he
  obtain ⟨m, hm, htime⟩ := h.clock _ _ hclock
  exact ⟨m, by omega, htime⟩

lemma Appending.Tracks.step {settings : Settings} {client : Client} {key : Key} {suffix : Bytes}
    (hop : client.operation settings = some (.append key suffix)) {t : ι}
    {inputs : ℕ → Input} {n : ℕ} {g : Appending} (h : g.Tracks inputs n suffix) {a : Act}
    {r : a.Resp} {w w' : World ι} (ha : g.allows suffix a)
    (hfits : client.overlong settings w.store.view (inputs (n - 2)).time a = false)
    (hact : World.act t a (inputs n) w = some (r, w')) :
    (g.next a r).Tracks inputs (n + 1) suffix := by
  have hperform := World.act_perform hact
  cases a with
  | now =>
    obtain ⟨rfl, -⟩ := Prod.mk.inj hperform
    refine ⟨fun T m hT => ?_, h.found⟩
    obtain ⟨rfl, rfl⟩ := Prod.mk.inj (Option.some.inj hT)
    exact ⟨n, rfl, rfl⟩
  | lookup k =>
    obtain ⟨rfl, -⟩ := Prod.mk.inj hperform
    obtain ⟨T, hT⟩ := ha
    obtain ⟨m, hm, rfl⟩ := h.clock T 1 hT
    obtain rfl : m = n - 2 := by omega
    refine ⟨h.later, fun found hfound => ?_⟩
    simp only [Appending.next, hT, Option.map_some, Option.some.injEq] at hfound
    simp only [Client.overlong, hop, decide_eq_false_iff_not, not_lt] at hfits
    exact hfound ▸ hfits
  | _ => exact ⟨h.later, h.found⟩

def OnCourse (settings : Settings) (clients : ι → Client) (inputs : ι → ℕ → Input)
    (c : Threads ι Outcome) : Prop :=
  ∀ t key suffix, (clients t).operation settings = some (.append key suffix) →
    ∃ g, Appends suffix g (c.prog t) ∧ g.Tracks (inputs t) (c.taken t) suffix

lemma OnCourse.sized {settings : Settings} {clients : ι → Client} {inputs : ι → ℕ → Input}
    {c : Threads ι Outcome} {t : ι} {a : Act} {key : Key} {suffix : Bytes}
    (h : OnCourse settings clients inputs c)
    (hop : (clients t).operation settings = some (.append key suffix))
    (ha : c.next World.act inputs t = some a) : inSize a = true := by
  obtain ⟨g, hp, hg⟩ := h t key suffix hop
  obtain ⟨k, hk⟩ := Config.next_prog ha
  rw [hk] at hp
  have hallows := hp.next.1
  cases a with
  | set key val expiresAt =>
    obtain ⟨found, hfound, rfl⟩ := hallows
    refine decide_eq_true ?_
    rw [List.length_append]
    exact hg.found found hfound
  | _ => rfl

variable [DecidableEq ι]

lemma OnCourse.moves {settings : Settings} {clients : ι → Client} {inputs : ι → ℕ → Input}
    {c c' : Threads ι Outcome} {t : ι} {a : Act} {r : a.Resp}
    (h : OnCourse settings clients inputs c)
    (hfits :
      (clients t).overlong settings c.world.store.view (inputs t (c.taken t - 2)).time a = false)
    (hm : c.Moves World.act inputs t a r c') : OnCourse settings clients inputs c' := by
  intro u key suffix hop
  obtain ⟨g, hp, hg⟩ := h u key suffix hop
  by_cases hu : u = t
  · subst hu
    obtain ⟨k, hk, hprog⟩ := hm.prog
    rw [hk] at hp
    obtain ⟨hallows, hrest⟩ := hp.next
    refine ⟨g.next a r, ?_, ?_⟩
    · rw [hprog, Function.update_self]
      exact hrest r trivial
    · rw [hm.taken, Function.update_self]
      exact hg.step hop hallows hfits hm.acts
  · refine ⟨g, ?_, ?_⟩
    · rw [hm.prog_of_ne hu]
      exact hp
    · rw [hm.taken_of_ne hu]
      exact hg

lemma sized_client {settings : Settings} {client : Client}
    (hreq : ∀ r, client = .command r → WithinLimits r.args)
    (hop : ¬∃ key suffix, client.operation settings = some (.append key suffix)) :
    Only Sized (client.program settings) := by
  refine within_client (fun a ha => ?_) fun r hr => stores_sized (fun a ha => ?_) hop
  · cases a <;> first | rfl | cases ha
  · exact (hreq r hr).bulk a (List.mem_of_mem_tail ha)

lemma along_sized {settings : Settings} {journalled : Bool} {maxMemory : ℤ}
    {policy : EvictionPolicy} {clients : ι → Client} {inputs : ι → ℕ → Input} {schedule : List ι}
    (hreq : ∀ t r, clients t = .command r → WithinLimits r.args)
    (happend : (booted journalled maxMemory policy fun t => (clients t).program settings).Along
      World.act inputs (fun c t => ∀ a ∈ c.next World.act inputs t, (clients t).overlong settings
        c.world.store.view (inputs t (c.taken t - 2)).time a = false) schedule) :
    (booted journalled maxMemory policy fun t => (clients t).program settings).Along
      World.act inputs (fun c t => ∀ a ∈ c.next World.act inputs t, inSize a = true) schedule := by
  have hstart : OnCourse settings clients inputs
      (booted journalled maxMemory policy fun t => (clients t).program settings) := by
    intro t key suffix hop
    refine ⟨⟨none, none⟩, appends_client hop _, fun T n hT => ?_, fun found hfound => ?_⟩
    · cases hT
    · cases hfound
  have hcourse := happend.with_invariant
    (fun c t a r c' h hfits hm => h.moves (hfits a hm.next) hm) hstart
  have hsized (t : ι) : Only (fun a => (¬∃ key suffix,
      (clients t).operation settings = some (.append key suffix)) → Sized a)
          ((clients t).program settings) := by
    by_cases hop : ∃ key suffix, (clients t).operation settings = some (.append key suffix)
    · exact Obeys.mono (fun _ _ h => absurd hop h) (fun _ _ h => h) (fun _ h => h) (Obeys.any _)
    · exact Obeys.mono (fun _ h _ => h) (fun _ _ h => h) (fun _ h => h) (sized_client (hreq t) hop)
  refine (hcourse.and (Config.along_only schedule hsized)).mono fun c t h a ha => ?_
  by_cases hop : ∃ key suffix, (clients t).operation settings = some (.append key suffix)
  · obtain ⟨key, suffix, hop⟩ := hop
    exact h.1.1.sized hop ha
  · exact h.2 a ha hop

/-- As long as no `APPEND` finds a value that its suffix would make longer than `MaxBulkLength`,
every value and every bulk string that is written is one the parser takes. -/
theorem values_within_limit_unless_appended (settings : Settings) (journalled : Bool)
    (maxMemory : ℤ) (policy : EvictionPolicy) (clients : ι → Client) (inputs : ι → ℕ → Input)
    (schedule : List ι) (hreq : ∀ t r, clients t = .command r → WithinLimits r.args)
    (hclock : ∀ t n, inInt64 (inputs t n).time = true)
    (happend : (booted journalled maxMemory policy fun t => (clients t).program settings).Along
      World.act inputs (fun c t => ∀ a ∈ c.next World.act inputs t, (clients t).overlong settings
        c.world.store.view (inputs t (c.taken t - 2)).time a = false) schedule) :
    let c :=
      (booted journalled maxMemory policy fun t => (clients t).program settings).after World.act
      inputs schedule
    (∀ key it, c.world.store.view key = some it → it.val.length ≤ maxBulkLength) ∧
      ∀ record, Written c record → (∀ b ∈ record, b.length ≤ maxBulkLength) ∧
        ∀ rest, readCommand (writeCommand record ++ rest) = .ok (record, rest) := by
  intro c
  have hfit (t : ι) (r : Request) (ht : clients t = .command r) : Fits bulkSize r.args.tail :=
    WithinLimits.fits (hreq t r ht) (fun _ h => h) fun _ h => h
  have hall :
    (booted journalled maxMemory policy fun t => (clients t).program settings).Along World.act
      inputs (fun c t => ∀ a ∈ c.next World.act inputs t, inSize a = true) schedule :=
    along_sized hreq happend
  obtain ⟨⟨-, hk⟩, hp⟩ := Config.after_obeys (S := sig)
    (fun w => WellFormed w.store ∧ bulkSize.Kept w.store.image) (C := fun _ a => inSize a = true)
    (fun t n a r w w' hw ha hc h => by
      have hs := World.act_spec hw.1 h
      obtain ⟨hk, hr⟩ := Limits.kept_act hw.2 ha.1 (admits_bulkSize ha.2 hc) hs.image
      exact ⟨⟨hs.wellFormed, hk⟩, hr, inClock_of_kept hw.2 (hclock t n) hs.image⟩)
    schedule (booted journalled maxMemory policy fun t => (clients t).program settings)
    ⟨configured_wellFormed journalled maxMemory policy, kept_configured ..⟩
    (fun t => (proper_client (show 1 < maxArrayLength by decide) settings (hfit t)).and
      (within_client (fun a ha => (stores_stamped [] True).other a ha) fun r _ =>
        stores_stamped _ _)) hall
  refine ⟨fun key it hi => (hk.entries key it hi).2.1, fun record hr => ?_⟩
  have hlim : WithinLimits record := withinLimits_of_logged (fun _ h => h) (fun _ h => h)
    (fun _ h => (formatInt_length_le h).trans (by decide))
    (written_logged hk (fun t b hb => (Config.result_eq_some.1 hb ▸ hp t).result.1) hr)
  exact ⟨hlim.bulk, readCommand_writeCommand hlim⟩

end Run

lemma exec_append {s : Store} {key : Key} {e : Entry} (h : s.lookup key = some e)
    (he : e.expiresAt = none) (suffix : Bytes) (inputs : ℕ → Input) :
    exec (Store.append key suffix) inputs s = ((e.val ++ suffix).length, 6,
      (s.setLockedInWriteLockedShard key (e.val ++ suffix) none).propagate
        (setRecord key (e.val ++ suffix) none)) := by
  have hx (now : ℤ) : e.expired now = false := by rw [Entry.expired, he]; rfl
  have hlook (now : ℤ) : deleteIfExpired key now (s.lookup key) = .done (some e) := by
    simp [h, deleteIfExpired, hx]
  rw [Store.append, exec_act, exec_act, exec_act]
  simp only [Store.perform, hlook, done_bind, deadlineOf, Option.bind_some, he]
  rfl

lemma exec_enforce {s : Store} (h : s.maxMemory ≤ 0) (fuel : ℕ) (inputs : ℕ → Input) :
    exec (enforceMemoryLimit fuel) inputs s = (.finished 0 true, 1, s) := by
  rw [enforceMemoryLimit, exec_act]
  simp [Store.perform, h, exec_done]

lemma exec_write {settings : Settings} {around : Surroundings} {fuel : ℕ} {first : Bytes}
    {args : List Bytes} {cmd : Command} (hc : commands (settings.platform.toUpper first) = some cmd)
    (ha : cmd.arityOk args = true) (hw : cmd.writes = true) (hn : around.aofErr = none) {s : Store}
    (hm : s.maxMemory ≤ 0) (inputs : ℕ → Input) :
    exec (dispatch settings around fuel (first :: args)) inputs s =
      let r := exec (cmd.fn settings around args) (shift 1 inputs) s
      (some r.1, r.2.1 + 1, r.2.2) := by
  simp [dispatch, hc, ha, hw, hn, exec_bind, exec_enforce hm, exec_map]

lemma keeps_write (settings : Settings) {around : Surroundings} (first : Bytes) (args : List Bytes)
    {cmd : Command} (hc : commands (settings.platform.toUpper first) = some cmd)
    (hw : cmd.writes = true) (hfn : Leads .none .none (cmd.fn settings around args)) {fuel n : ℕ}
    (hn : n ≤ fuel) :
    Keeps Act.rule (fun _ g => g = .none) n .none
      (dispatch settings around fuel (first :: args)) := by
  simp only [dispatch, hc, hw]
  split_ifs
  · exact .done rfl
  · exact .done rfl
  · refine (keeps_enforceMemoryLimit hn).bind fun e _ m _ hg => ?_
    subst hg
    cases e with
    | running evicted => exact .done rfl
    | finished evicted fits =>
      cases fits with
      | false => exact .done rfl
      | true => exact (hfn.map some).keeps m

def growing (v : Bytes) : Fin 2 → Client :=
  ![.command ⟨[ascii "SET", ascii "k", v], replaying, 20⟩,
    .command ⟨[ascii "APPEND", ascii "k", ascii "x"], replaying, 20⟩]

lemma growing_withinLimits {v : Bytes} (hv : v.length ≤ maxBulkLength) :
    ∀ t r, growing v t = .command r → WithinLimits r.args := by
  intro t r hr
  fin_cases t
  · obtain rfl := Client.command.inj hr
    refine ⟨List.cons_ne_nil _ _, (by decide : 3 ≤ maxArrayLength), ?_⟩
    simp only [List.forall_mem_cons]
    exact ⟨by decide, by decide, hv, List.forall_mem_nil _⟩
  · obtain rfl := Client.command.inj hr
    refine ⟨List.cons_ne_nil _ _, (by decide : 3 ≤ maxArrayLength), ?_⟩
    simp only [List.forall_mem_cons]
    exact ⟨by decide, by decide, by decide, List.forall_mem_nil _⟩

lemma growing_set (v : Bytes) (inputs : ℕ → Input) {s : Store} (hm : s.maxMemory ≤ 0) :
    exec ((growing v 0).program plain) inputs s = (.reply (some ok), 5,
      (s.setLockedInWriteLockedShard (ascii "k") v none).propagate
        (setRecord (ascii "k") v none)) := by
  have hc : commands (plain.platform.toUpper (ascii "SET")) =
      some ⟨2, some 4, true, fun settings _ args => set settings.platform args⟩ := rfl
  change exec (Outcome.reply <$> dispatch plain replaying 20 [ascii "SET", ascii "k", v])
    inputs s = _
  rw [exec_map, exec_write hc rfl rfl rfl hm]
  rfl

lemma growing_append {v : Bytes} {inputs : ℕ → Input} {s : Store} (hm : s.maxMemory ≤ 0) {e : Entry}
    (hl : s.lookup (ascii "k") = some e) (he : e.expiresAt = none) :
    exec ((growing v 1).program plain) inputs s =
    (.reply (some [.integer (e.val ++ ascii "x").length]), 7,
      (s.setLockedInWriteLockedShard (ascii "k") (e.val ++ ascii "x") none).propagate
        (setRecord (ascii "k") (e.val ++ ascii "x") none)) := by
  have hc : commands (plain.platform.toUpper (ascii "APPEND")) =
      some ⟨2, some 2, true, fun _ _ args => append args⟩ := rfl
  change exec (Outcome.reply <$> dispatch plain replaying 20 [ascii "APPEND", ascii "k", ascii "x"])
    inputs s = _
  rw [exec_map, exec_write hc rfl rfl rfl hm]
  simp only [Server.append, exec_bind, exec_append hl he]
  rfl

lemma growing_keeps (v : Bytes) (t : Fin 2) {n : ℕ} (hn : n ≤ 20) :
    Keeps Act.rule (fun _ g => g = .none) n .none ((growing v t).program plain) := by
  have hmap {p : Prog (Option Response)} (hp : Keeps Act.rule (fun _ g => g = .none) n .none p) :
      Keeps Act.rule (fun _ g => g = .none) n .none (Outcome.reply <$> p) := by
    rw [map_eq_pure_bind]
    exact hp.bind fun _ _ _ _ hg => .done hg
  fin_cases t
  · refine hmap (keeps_write plain (ascii "SET") [ascii "k", v] rfl rfl ?_ hn)
    exact (leads_setTo (ascii "k") v none).bind fun _ => .done _
  · refine hmap (keeps_write plain (ascii "APPEND") [ascii "k", ascii "x"] rfl rfl ?_ hn)
    exact (leads_append (ascii "k") (ascii "x")).bind fun _ => .done _

theorem values_within_limit_shortValue :
    let c :=
      (booted true 0 .noEviction fun t => (growing (ascii "v") t).program plain).after World.act
      (fun _ => clockAt 0) (List.replicate 5 0 ++ List.replicate 7 1)
    ∀ key it, c.world.store.view key = some it → it.val.length ≤ maxBulkLength := by
  have hfits :
    (booted true 0 .noEviction fun t => (growing (ascii "v") t).program plain).Along World.act
      (fun _ => clockAt 0) (fun c t => ∀ a ∈ c.next World.act (fun _ => clockAt 0) t,
        (growing (ascii "v") t).overlong plain c.world.store.view
          (clockAt 0 (c.taken t - 2)).time a = false)
      (List.replicate 5 0 ++ List.replicate 7 1) := by decide +kernel
  exact (values_within_limit_unless_appended plain true 0 .noEviction (growing (ascii "v"))
    (fun _ => clockAt 0) _ (growing_withinLimits (by decide)) (fun _ _ => rfl) hfits).1

lemma growing_outgrows (v : Bytes) (inputs : Fin 2 → ℕ → Input) :
    let c := (booted true 0 .noEviction fun t => (growing v t).program plain).after World.act inputs
      (List.replicate 5 0 ++ List.replicate 7 1)
    c.world.store.view (ascii "k") = some ⟨v ++ ascii "x", none⟩ ∧
    Written c (setRecord (ascii "k") (v ++ ascii "x") none) := by
  intro c
  let c₀ : Threads (Fin 2) Outcome := booted true 0 .noEviction fun t => (growing v t).program plain
  let c₁ := c₀.after World.act inputs (List.replicate 5 0)
  let s₁ :=
    ((configured true 0 .noEviction).setLockedInWriteLockedShard (ascii "k") v none).propagate
    (setRecord (ascii "k") v none)
  have hfree : c₀.world.locks.KeptBy 0 c₀.world.store.journal.isSome .none :=
    ⟨by simp [c₀, booted, Config.start, Locks.free, Kept.none], by
      simp [c₀, booted, Config.start, Locks.free, Kept.none]⟩
  have hr₀ : exec (c₀.prog 0) (shift (c₀.taken 0) (inputs 0)) c₀.world.store =
      (.reply (some ok), 5, s₁) :=
    growing_set v _ le_rfl
  have h₀ := runs_alone (Q := fun _ g => g = .none) inputs _ rfl (configured_wellFormed _ _ _) hfree
  simp only [hr₀] at h₀
  obtain ⟨hs₁, -, hothers, h', rfl, hl₁⟩ := h₀ (growing_keeps v 0 (by omega))
  have hlook : s₁.lookup (ascii "k") = some ⟨v, 0, none⟩ :=
    lookup_setLocked (configured true 0 .noEviction) (ascii "k") v none
  have hr₁ :
      exec ((growing v 1).program plain) (shift (c₁.taken 1) (inputs 1)) c₁.world.store = _ :=
    hs₁ ▸ growing_append (s := s₁) le_rfl hlook rfl
  have hw₁ : WellFormed c₁.world.store := by
    have hw := exec_wellFormed (c₀.prog 0) (shift (c₀.taken 0) (inputs 0)) c₀.world.store
      (configured_wellFormed _ _ _)
    rw [hr₀] at hw
    exact hs₁ ▸ hw
  have h₁ := runs_alone (Q := fun _ g => g = .none) inputs (c := c₁) _ (hothers 1 (by decide)).1
    hw₁ (hl₁.none 1)
  have hprog : c₀.prog 1 = (growing v 1).program plain := rfl
  simp only [hprog, hr₁] at h₁
  obtain ⟨hs₂, -⟩ := h₁ (growing_keeps v 1 (by omega))
  have hc : c = c₁.after World.act inputs (List.replicate 7 1) := List.foldl_append ..
  rw [← hc] at hs₂
  refine ⟨?_, .inl ⟨[setRecord (ascii "k") v none, setRecord (ascii "k") (v ++ ascii "x") none], by
      rw [hs₂, hs₁]; rfl, by simp⟩⟩
  rw [hs₂, view_apply]
  exact congrArg (Option.map Entry.item)
    (lookup_setLocked c₁.world.store (ascii "k") (v ++ ascii "x") none)

lemma growing_refused {v : Bytes} (hv : v.length = maxBulkLength) (inputs : Fin 2 → ℕ → Input) :
    (∀ t r, growing v t = .command r → WithinLimits r.args) ∧
      let c :=
        (booted true 0 .noEviction fun t => (growing v t).program plain).after World.act inputs
        (List.replicate 5 0 ++ List.replicate 7 1)
      ∃ it record, c.world.store.view (ascii "k") = some it ∧ maxBulkLength < it.val.length ∧
        Written c record ∧ ∀ rest, readCommand (writeCommand record ++ rest) = .error
            (.protocol (ascii "invalid bulk length")) := by
  refine ⟨growing_withinLimits hv.le, ?_⟩
  obtain ⟨hview, hwritten⟩ := growing_outgrows v inputs
  have hlen : (v ++ ascii "x").length = maxBulkLength + 1 := by
    rw [List.length_append, hv]
    rfl
  have hlong : maxBulkLength < (v ++ ascii "x").length := by omega
  have hint : ((v ++ ascii "x").length : ℤ) ≤ maxInt64 := by
    simp only [maxInt64, maxBulkLength] at hlen ⊢
    omega
  refine ⟨_, _, hview, hlong, hwritten, fun rest => ?_⟩
  refine readCommand_tooLong hlong hint [cmdSET, ascii "k"] (by decide) ?_ rest
  simp only [List.forall_mem_cons]
  exact ⟨by decide, by decide, List.forall_mem_nil _⟩

theorem append_outgrows_limit :
    let clients := growing (List.replicate maxBulkLength 0)
    (∀ t r, clients t = .command r → WithinLimits r.args) ∧
      let c := (booted true 0 .noEviction fun t => (clients t).program plain).after World.act
        (fun _ => clockAt 0) (List.replicate 5 0 ++ List.replicate 7 1)
      ∃ it record, c.world.store.view (ascii "k") = some it ∧ maxBulkLength < it.val.length ∧
      Written c record ∧ ∀ rest, readCommand (writeCommand record ++ rest) =
        .error (.protocol (ascii "invalid bulk length")) :=
  growing_refused List.length_replicate fun _ => clockAt 0

end RedisClone.Server
