import RedisClone.Store.Concurrency
import RedisClone.Store.Footprint
import RedisClone.Store.Records

namespace RedisClone.Store

open Lib Lib.Program

section Origin

def Act.storesKey (key : Key) : Act → Bool
  | .set k _ _ => decide (k = key)
  | .mset pairs => pairs.any fun pair => pair.1 = key
  | _ => false

lemma ActSpec.origin {a : Act} {i : Input} {r : a.Resp} {w w' : Image} (h : ActSpec a i r w w')
    {key : Key} {it : Item} (hk : w'.keyspace key = some it) :
    w.keyspace key = some it ∨ a.storesKey key = true ∨ ∃ deadline now old d,
    a = .expireAt key deadline now ∧ w.keyspace key = some old ∧ old.expired now = false ∧
      (w.keyspace.expireKey key deadline now).1 = .kept d ∧ it = ⟨old.val, some d⟩ := by
  cases a with
  | propagate record =>
    obtain rfl := actSpec_propagate.1 h
    exact .inl hk
  | getCollect k =>
    obtain rfl := actSpec_getCollect.1 h
    exact .inl (Keyspace.of_collect hk)
  | set k val expiresAt =>
    obtain rfl := actSpec_set.1 h
    rcases Keyspace.of_put hk with ⟨rfl, -⟩ | hk
    · exact .inr (.inl (decide_eq_true rfl))
    · exact .inl hk
  | delete k =>
    obtain rfl := actSpec_delete.1 h
    exact .inl (Keyspace.of_remove hk)
  | mset pairs =>
    obtain rfl := actSpec_mset.1 h
    rcases Keyspace.of_putAll hk with ⟨val, hm, -⟩ | hk
    · exact .inr (.inl (List.any_eq_true.2 ⟨_, hm, decide_eq_true rfl⟩))
    · exact .inl hk
  | del keys now =>
    obtain ⟨-, rfl⟩ := actSpec_del.1 h
    exact .inl (Keyspace.of_removeAll hk)
  | expireAt k deadline now =>
    obtain ⟨-, rfl⟩ := actSpec_expireAt.1 h
    rcases Keyspace.of_expireKey hk with hk | ⟨old, d, rfl, ho, hx, hd, rfl⟩
    · exact .inl hk
    · exact .inr (.inr ⟨deadline, now, old, d, rfl, ho, hx, hd, rfl⟩)
  | expireShard j now n scanned => exact .inl (Keyspace.of_collected (actSpec_expireShard.1 h).1 hk)
  | _ =>
    rw [ActSpec.unchanged rfl h] at hk
    exact .inl hk

end Origin

variable {ι : Type} [DecidableEq ι]

section Clock

variable (inputs : ι → ℕ → Input)

def clockFor (c : Threads ι Reply) (t : ι) : ℤ := (inputs t (c.taken t)).time

def Ticks : ℤ → Threads ι Reply → List ι → Prop
  | _, _, [] => True
  | T, c, t :: ts =>
    match c.next World.act inputs t with
    | none => Ticks T (c.step World.act inputs t) ts
    | some _ => T ≤ clockFor inputs c t ∧ Ticks (clockFor inputs c t) (c.step World.act inputs t) ts

end Clock

section Reports

inductive Verdict
  | missing
  | expired
  | present
  deriving DecidableEq, Repr

def verdict (now : ℤ) : Option Item → Verdict
  | none => .missing
  | some it => if it.expired now then .expired else .present

/-- What a thread that reads a key says of it when its turn comes. `Exists` and `TTL` go by the
clock as they have read it in their first section. -/
def report (calls : ι → Call) (inputs : ι → ℕ → Input) (c : Threads ι Reply) (t : ι) :
    Option (Key × Verdict) :=
  match calls t, c.next World.act inputs t with
  | .op (.get _), some (.getRead key now) => some (key, verdict now (c.world.store.view key))
  | .op (.exists_ _), some (.lookup key) =>
    some (key, verdict (inputs t 0).time (c.world.store.view key))
  | .op (.ttl _), some (.lookup key) =>
    some (key, verdict (inputs t 0).time (c.world.store.view key))
  | _, _ => none

def Act.extended (ks : Keyspace) : Act → Option Key
  | .expireAt key deadline time =>
    match (ks.expireKey key deadline time).1 with
    | .kept _ => some key
    | _ => none
  | _ => none

/-- An `ExpireAt` that lets a key live on finds it live by the clock of that moment as well, not
only by the one it read before it waited for its locks. -/
def ExtendsLive (inputs : ι → ℕ → Input) (c : Threads ι Reply) (t : ι) : Prop :=
  ∀ a ∈ c.next World.act inputs t, ∀ key ∈ a.extended c.world.store.view,
    ∀ it ∈ c.world.store.view key, it.expired (clockFor inputs c t) = false

end Reports

section Run

variable {calls : ι → Call} {inputs : ι → ℕ → Input} {c c' : Threads ι Reply} {t : ι}
  {a : Act} {r : a.Resp}

lemma get_program (key : Key) :
    ∃ p : ℤ → Prog Reply, (Call.op (.get key)).program = Program.act (S := sig) Act.now p ∧
    ∀ time, Only (S := sig) (fun a => ∀ key now, a = .getRead key now → now = time) (p time) := by
  refine ⟨_, rfl, fun time =>
    within_map (within_map (within_act (a := .getRead key time) (fun _ _ h => ?_) fun r => ?_) _) _⟩
  · cases h
    rfl
  · cases r with
    | missing | hit => exact .done _
    | expired => exact within_act (a := .getCollect key) (fun _ _ h => by cases h) fun _ => .done _

structure Begun (calls : ι → Call) (inputs : ι → ℕ → Input) (c : Threads ι Reply) : Prop where
  wellFormed : WellFormed c.world.store
  fresh : ∀ t, c.taken t = 0 → c.prog t = (calls t).program
  reads : ∀ t key, calls t = .op (.get key) → c.taken t ≠ 0 →
    Only (S := sig) (fun a => ∀ key now, a = .getRead key now → now = (inputs t 0).time) (c.prog t)

lemma Begun.moves (h : Begun calls inputs c) (hm : c.Moves World.act inputs t a r c') :
    Begun calls inputs c' := by
  obtain ⟨k, hk, hprog⟩ := hm.prog
  refine ⟨(World.act_spec h.wellFormed hm.acts).wellFormed, fun u hu => ?_, fun u key hc hu => ?_⟩
  · by_cases hut : u = t
    · subst hut
      rw [hm.taken, Function.update_self] at hu
      omega
    · rw [hm.prog_of_ne hut]
      exact h.fresh u (hm.taken_of_ne hut ▸ hu)
  · by_cases hut : u = t
    · subst hut
      rw [hprog, Function.update_self]
      by_cases h0 : c.taken u = 0
      · have hp := h.fresh u h0
        obtain ⟨p, hget, hp'⟩ := get_program key
        rw [hk, hc, hget] at hp
        obtain ⟨rfl, hk'⟩ := Program.act.inj hp
        obtain rfl := eq_of_heq hk'
        have hr : ((inputs u (c.taken u)).time, c.world.store) = (r, c'.world.store) :=
          World.act_perform hm.acts
        rw [← (Prod.mk.inj hr).1, h0]
        exact hp' _
      · have hr := h.reads u key hc h0
        rw [hk] at hr
        exact (Obeys.next hr).2 r trivial
    · rw [hm.prog_of_ne hut]
      exact h.reads u key hc (hm.taken_of_ne hut ▸ hu)

lemma Begun.step (h : Begun calls inputs c) (t : ι) :
    Begun calls inputs (c.step World.act inputs t) := by
  rcases c.step_cases World.act inputs t with ⟨hs, -⟩ | ⟨a, r, hm⟩
  · rw [hs]
    exact h
  · exact h.moves hm

omit [DecidableEq ι] in
lemma Begun.start (calls : ι → Call) (inputs : ι → ℕ → Input) (journalled : Bool) (maxMemory : ℤ)
    (policy : EvictionPolicy) :
    Begun calls inputs (booted journalled maxMemory policy fun t => (calls t).program) :=
  ⟨configured_wellFormed _ _ _, fun _ _ => rfl, fun _ _ _ h => absurd rfl h⟩

omit [DecidableEq ι] in
lemma Begun.report (h : Begun calls inputs c) {key : Key} {v : Verdict}
    (hr : report calls inputs c t = some (key, v)) :
    c.taken t ≠ 0 ∧ v = verdict (inputs t 0).time (c.world.store.view key) ∧
      ∃ a, c.next World.act inputs t = some a ∧ a.mutates = false := by
  have hfirst {p : ℤ → Prog Reply} (hp : (calls t).program = Program.act (S := sig) Act.now p)
    {a : Act} (hn : c.next World.act inputs t = some a) (ha : a ≠ .now) : c.taken t ≠ 0 := by
    intro h0
    obtain ⟨k, hk⟩ := Config.next_prog hn
    rw [h.fresh t h0, hp] at hk
    exact ha (Program.act.inj hk).1.symm
  unfold Store.report at hr
  split at hr
  · rename_i key' key now hc hn
    obtain ⟨rfl, rfl⟩ := Prod.mk.inj (Option.some.inj hr)
    obtain ⟨p, hp, -⟩ := get_program key'
    have h0 := hfirst (hc ▸ hp) hn Act.noConfusion
    obtain ⟨k, hk⟩ := Config.next_prog hn
    have hreads := h.reads t key' hc h0
    rw [hk] at hreads
    exact ⟨h0, by rw [(Obeys.next hreads).1 _ now rfl], _, hn, rfl⟩
  · rename_i keys key hc hn
    obtain ⟨rfl, rfl⟩ := Prod.mk.inj (Option.some.inj hr)
    exact ⟨hfirst (by rw [hc]; rfl) hn Act.noConfusion, rfl, _, hn, rfl⟩
  · rename_i key' key hc hn
    obtain ⟨rfl, rfl⟩ := Prod.mk.inj (Option.some.inj hr)
    exact ⟨hfirst (by rw [hc]; rfl) hn Act.noConfusion, rfl, _, hn, rfl⟩
  · cases hr

def ReadBy (inputs : ι → ℕ → Input) (T : ℤ) (c : Threads ι Reply) : Prop :=
  ∀ t, c.taken t ≠ 0 → (inputs t 0).time ≤ T

lemma ReadBy.moves {T : ℤ} (h : ReadBy inputs T c) (hm : c.Moves World.act inputs t a r c')
    (hT : T ≤ clockFor inputs c t) : ReadBy inputs (clockFor inputs c t) c' := by
  intro u hu
  by_cases h0 : c.taken u = 0
  · by_cases hut : u = t
    · subst hut
      rw [clockFor, h0]
    · exact absurd h0 (hm.taken_of_ne hut ▸ hu)
  · exact (h u h0).trans hT

lemma Ticks.after (before rest : List ι) :
    ∀ {T : ℤ} {c : Threads ι Reply}, ReadBy inputs T c → Begun calls inputs c →
    Ticks inputs T c (before ++ rest) → ∃ T', ReadBy inputs T' (c.after World.act inputs before) ∧
    Begun calls inputs (c.after World.act inputs before) ∧
      Ticks inputs T' (c.after World.act inputs before) rest := by
  induction before with
  | nil => exact fun {T c} hr hb ht => ⟨T, hr, hb, ht⟩
  | cons t ts ih =>
    intro T c hr hb ht
    rcases c.step_cases World.act inputs t with ⟨hs, hn⟩ | ⟨a, r, hm⟩
    · simp only [List.cons_append, Ticks, hn] at ht
      exact ih (hs.symm ▸ hr) (hb.step t) ht
    · simp only [List.cons_append, Ticks, hm.next] at ht
      exact ih (hr.moves hm ht.1) (hb.step t) ht.2

structure Gone (calls : ι → Call) (inputs : ι → ℕ → Input) (key : Key) (T : ℤ) (fresh : ι → Prop)
    (c : Threads ι Reply) : Prop where
  begun : Begun calls inputs c
  expired : ∀ it ∈ c.world.store.view key, it.expired T = true
  late : ∀ t, fresh t → c.taken t ≠ 0 → T ≤ (inputs t 0).time

variable {key : Key} {T : ℤ} {fresh : ι → Prop}

lemma Gone.moves (h : Gone calls inputs key T fresh c) (hm : c.Moves World.act inputs t a r c')
    (hT : T ≤ clockFor inputs c t) (hlive : ExtendsLive inputs c t)
    (hstores : a.storesKey key = false) : Gone calls inputs key T fresh c' := by
  refine ⟨h.begun.moves hm, fun it hit => ?_, fun u hu htaken => ?_⟩
  · have hspec := (World.act_spec h.begun.wellFormed hm.acts).image
    rcases hspec.origin hit with hk | hs | ⟨deadline, now, old, d, rfl, ho, -, hd, -⟩
    · exact h.expired it hk
    · rw [hstores] at hs
      cases hs
    · -- the one that gave it a new deadline would have found it live just now
      have hx := Keyspace.expired_mono hT (h.expired old ho)
      have hext : key ∈ Act.extended c.world.store.view (.expireAt key deadline now) := by
        have hkept : (c.world.store.view.expireKey key deadline now).1 = .kept d := hd
        simp [Act.extended, hkept]
      rw [hlive _ hm.next key hext old ho] at hx
      cases hx
  · by_cases h0 : c.taken u = 0
    · by_cases hut : u = t
      · subst hut
        rwa [clockFor, h0] at hT
      · exact absurd h0 (hm.taken_of_ne hut ▸ htaken)
    · exact h.late u hu h0

lemma Gone.after (schedule : List ι) :
    ∀ {T' : ℤ} {c : Threads ι Reply}, T ≤ T' → Gone calls inputs key T fresh c →
    Ticks inputs T' c schedule → c.Along World.act inputs (ExtendsLive inputs) schedule →
    c.Along World.act inputs
      (fun c t => ∀ a ∈ c.next World.act inputs t, a.storesKey key = false) schedule →
    Gone calls inputs key T fresh (c.after World.act inputs schedule) := by
  induction schedule with
  | nil => exact fun _ h _ _ _ => h
  | cons t ts ih =>
    intro T' c hT h ht ⟨hl, hlrest⟩ ⟨hs, hsrest⟩
    rcases c.step_cases World.act inputs t with ⟨hstep, hn⟩ | ⟨a, r, hm⟩
    · simp only [Ticks, hn] at ht
      exact ih hT (hstep.symm ▸ h) ht hlrest hsrest
    · simp only [Ticks, hm.next] at ht
      exact ih (hT.trans ht.1) (h.moves hm (hT.trans ht.1) hl (hs a hm.next)) ht.2 hlrest hsrest

lemma verdict_expired {now : ℤ} {it : Option Item} (h : Verdict.expired = verdict now it) :
    ∀ it' ∈ it, it'.expired now = true := by
  rintro it' rfl
  by_contra hx
  simp [verdict, hx] at h

lemma gone_of_report {T : ℤ} (hb : Begun calls inputs c) (hr : ReadBy inputs T c)
    (hT : T ≤ clockFor inputs c t) (h : report calls inputs c t = some (key, .expired)) :
    Gone calls inputs key (clockFor inputs c t) (fun u => c.taken u = 0)
      (c.step World.act inputs t) := by
  obtain ⟨htaken, hv, a, hn, ha⟩ := hb.report h
  rcases c.step_cases World.act inputs t with ⟨-, hnone⟩ | ⟨a', r, hm⟩
  · rw [hnone] at hn
    cases hn
  have haa : a' = a := Option.some.inj (hm.next.symm.trans hn)
  subst haa
  have hview : (c.step World.act inputs t).world.store.view = c.world.store.view :=
    congrArg Image.keyspace ((World.act_spec hb.wellFormed hm.acts).image.unchanged ha)
  refine ⟨hb.step t, fun it hit => ?_, fun u hu hut => ?_⟩
  · rw [hview] at hit
    exact Keyspace.expired_mono ((hr t htaken).trans hT) (verdict_expired hv it hit)
  · refine absurd hu (hm.taken_of_ne ?_ ▸ hut)
    rintro rfl
    exact htaken hu

/-- Once a read has said that a key has expired, none that begins later finds it, unless a value has
been stored in between, in a run in which no `ExpireAt` extends the life of a key that was over. -/
theorem expired_is_final (calls : ι → Call) (journalled : Bool) (maxMemory : ℤ)
    (policy : EvictionPolicy) (inputs : ι → ℕ → Input) (T : ℤ) (before later : List ι)
    (t u : ι) (key : Key) : let c := booted journalled maxMemory policy fun t => (calls t).program
    let c₁ := c.after World.act inputs before
    let c₂ := (c₁.step World.act inputs t).after World.act inputs later
    Ticks inputs T c (before ++ t :: later) →
    c₁.Along World.act inputs (ExtendsLive inputs) (t :: later) →
    report calls inputs c₁ t = some (key, .expired) →
    (c₁.step World.act inputs t).Along World.act inputs
      (fun c t => ∀ a ∈ c.next World.act inputs t, a.storesKey key = false) later →
    c₁.taken u = 0 → report calls inputs c₂ u ≠ some (key, .present) := by
  intro c c₁ c₂ hticks hlive hreport hstores hfresh hpresent
  obtain ⟨T₁, hread, hbegun, hticks⟩ := Ticks.after before (t :: later) (fun _ h => absurd rfl h)
    (Begun.start calls inputs journalled maxMemory policy) hticks
  obtain ⟨-, -, a, hn, -⟩ := hbegun.report hreport
  simp only [Ticks] at hticks
  rw [hn] at hticks
  have hgone : Gone calls inputs key (clockFor inputs c₁ t) (fun u => c₁.taken u = 0) c₂ :=
    (gone_of_report hbegun hread hticks.1 hreport).after later le_rfl hticks.2 hlive.2 hstores
  obtain ⟨htaken, hv, -⟩ := hgone.begun.report hpresent
  have hlate := hgone.late u hfresh htaken
  cases hk : c₂.world.store.view key with
  | none => simp [hk, verdict] at hv
  | some it => simp [hk, verdict, Keyspace.expired_mono hlate (hgone.expired it hk)] at hv

instance instDecidableTicks :
    ∀ (T : ℤ) (c : Threads ι Reply) (schedule : List ι), Decidable (Ticks inputs T c schedule)
  | _, _, [] => isTrue trivial
  | T, c, t :: ts =>
    have := instDecidableTicks T (c.step World.act inputs t) ts
    have := instDecidableTicks (clockFor inputs c t) (c.step World.act inputs t) ts
    match hn : c.next World.act inputs t with
    | none =>
      decidable_of_iff (Ticks inputs T (c.step World.act inputs t) ts) (by simp only [Ticks, hn])
    | some _ =>
      decidable_of_iff (T ≤ clockFor inputs c t ∧
          Ticks inputs (clockFor inputs c t) (c.step World.act inputs t) ts)
        (by simp only [Ticks, hn])

instance (c : Threads ι Reply) (t : ι) : Decidable (ExtendsLive inputs c t) :=
  inferInstanceAs
    (Decidable (∀ a ∈ c.next World.act inputs t, ∀ key ∈ a.extended c.world.store.view, _))

def extension : Fin 4 → Call :=
  ![.op (.setWithTTL [107] [118] 10), .op (.expire [107] 100), .op (.ttl [107]), .op (.get [107])]

def extensionClock (start : ℤ) : Fin 4 → ℕ → Input :=
  ![fun _ => ⟨0, .stored⟩, fun n => ⟨if n < 2 then start else 20, .stored⟩, fun _ => ⟨20, .stored⟩,
    fun _ => ⟨21, .stored⟩]

theorem expired_is_final_noExtension :
    let c := booted true 0 .noEviction fun t => (extension t).program
    let inputs := extensionClock 20
    let before : List (Fin 4) := [0, 0, 0, 0, 0, 2]
    let later : List (Fin 4) := [1, 1, 1, 1, 1, 1, 1, 1, 3]
    let c₁ := c.after World.act inputs before
    let c₂ := (c₁.step World.act inputs 2).after World.act inputs later
    Ticks inputs 0 c (before ++ 2 :: later) ∧
    c₁.Along World.act inputs (ExtendsLive inputs) (2 :: later) ∧
      report extension inputs c₁ 2 = some ([107], .expired) ∧ c₁.taken 3 = 0 ∧
      report extension inputs c₂ 3 ≠ some ([107], .present) := by
  intro c inputs before later c₁ c₂
  have hticks : Ticks inputs 0 c (before ++ 2 :: later) := by decide +kernel
  have hlive : c₁.Along World.act inputs (ExtendsLive inputs) (2 :: later) := by decide +kernel
  have hreport : report extension inputs c₁ 2 = some ([107], .expired) := by decide +kernel
  have hfresh : c₁.taken 3 = 0 := by decide +kernel
  exact ⟨hticks, hlive, hreport, hfresh, expired_is_final extension true 0 .noEviction inputs 0
    before later 2 3 [107] hticks hlive hreport (by decide +kernel) hfresh⟩

/-- The key has expired and `TTL` says so; an `Expire` that read the clock before that brings it
back. -/
def BroughtBack (journalled : Bool) : Prop :=
  let c := booted journalled 0 .noEviction fun t => (extension t).program
  let inputs := extensionClock 5
  let before : List (Fin 4) := [0, 0, 0, 0, 0, 1, 1, 2]
  let later : List (Fin 4) := [1, 1, 1, 1, 1, 1]
  let c₁ := c.after World.act inputs before
  let c₂ := (c₁.step World.act inputs 2).after World.act inputs later
  Ticks inputs 0 c (before ++ 2 :: later ++ [3, 3]) ∧
    report extension inputs c₁ 2 = some ([107], .expired) ∧
      c₂.result 2 = some (.answer (.ttl .keyMissing)) ∧
    (c₁.step World.act inputs 2).Along World.act inputs
      (fun c t => ∀ a ∈ c.next World.act inputs t, a.storesKey [107] = false) later ∧
    c₂.taken 3 = 0 ∧ (c₂.after World.act inputs [3, 3]).result 3 = some
      (.answer (.value (some [118])))

theorem expire_brings_back : BroughtBack true ∧ BroughtBack false := by
  simp only [BroughtBack]
  decide +kernel

end Run

end RedisClone.Store
