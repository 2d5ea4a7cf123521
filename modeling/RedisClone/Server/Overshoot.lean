import RedisClone.Server.Handlers
import RedisClone.Store.Course

/-! One command after another under a memory limit, with the expiry cycles at work all the time. -/

namespace RedisClone.Server

open Store Resp Lib Lib.Program Lib.Decimal

/-- The server as it stands: the store, the total size of the entries stored by the last section
that stored any, the command that is being served, and what is left of the expiry cycle under way.
With these go the clock as the command's handler has read it, the last time first, and as the cycle
has read it. -/
structure Scene where
  store : Store
  stored : ℤ
  request : List Bytes
  phase : DispatchState
  clock : List ℤ
  cycle : Prog (ℕ × ℕ)
  cycleClock : List ℤ

def Scene.perform (m : Scene) (a : Act) (i : Input) : a.Resp × Scene :=
  let done := Store.perform a i m.store
  (done.1, { m with
    store := done.2
    stored := if a.storedKeys = ∅ then m.stored else ∑ key ∈ a.storedKeys, done.2.bytesAt key })

inductive Event
  | command (around : Surroundings) (fuel : ℕ) (args : List Bytes)
  | turn (i : Input)
  | sweep (i : Input)

def Scene.next (settings : Settings) (m : Scene) : Event → Scene
  | .command around fuel args =>
    match m.phase with
    | .replied _ =>
      { m with request := args, phase := arrive settings around fuel args, clock := [] }
    | _ => m
  | .turn i =>
    match m.phase with
    | .replied _ => m
    | .preflight fn (.done (.finished _ true)) => { m with phase := .handler fn, clock := [] }
    | .preflight _ (.done (.finished _ false)) => { m with phase := .replied errOOM }
    | .preflight _ (.done (.running _)) => m
    | .preflight fn (.act a k) =>
      let done := m.perform a i
      { done.2 with phase := .preflight fn (k done.1) }
    | .handler (.done b) => { m with phase := .replied b }
    | .handler (.act a k) =>
      let done := m.perform a i
      { done.2 with phase := .handler (k done.1), clock := a.noted i m.clock }
  | .sweep i =>
    match m.cycle with
    | .done _ => { m with cycle := activeExpireCycle, cycleClock := [] }
    | .act a k =>
      let done := m.perform a i
      { done.2 with cycle := k done.1, cycleClock := a.noted i m.cycleClock }

def opened (journalled : Bool) (maxMemory : ℤ) (policy : EvictionPolicy) : Scene :=
  ⟨configured journalled maxMemory policy, 0, [], .replied [], [], activeExpireCycle, []⟩

/-- The request is a `DEL` of the key, or gives it a deadline that is over by the clock as its
handler has read it. -/
def AsksGone (settings : Settings) (request : List Bytes) (readings : List ℤ) (key : Key) : Prop :=
  ∃ o, operation settings request = some o ∧ o.AsksGone key readings

/-- What the clock shows to whoever moves: to the handler at the moment and as it has read it
before, to the cycle as it has read it last. -/
def Scene.shows (m : Scene) : Event → List ℤ
  | .command _ _ _ => []
  | .turn i => i.time :: m.clock
  | .sweep _ => m.cycleClock.head?.toList

section Invariant

variable {settings : Settings} {maxMemory : ℤ} {policy : EvictionPolicy} {m : Scene}

def Told (maxMemory : ℤ) (policy : EvictionPolicy) : (a : Act) → a.Resp → Prop
  | .config, r => r = (maxMemory, policy)
  | _, _ => True

def Act.waits (a : Act) : Prop := a.plumbing = true ∨ ∃ i, a = .shardUsed i

def DispatchState.Lawful (settings : Settings) (maxMemory : ℤ) (policy : EvictionPolicy)
    (m : Scene) : DispatchState → Prop
  | .replied _ => True
  | .preflight fn p =>
    (∃ g : Reading, g.Bounds m.store ∧ Sums (Told maxMemory policy) (Reading.keeps maxMemory) g p) ∧
      (policy = .noEviction → Within (S := sig) Act.waits (Told maxMemory policy) p) ∧
      Courses (AsksGone settings m.request) .fresh fn
  | .handler p => ∃ g : Course, Courses (AsksGone settings m.request) g p ∧ g.Fits m.clock m.store ∧
      (g.stored = false → m.store.bytes ≤ maxMemory)

structure Lawful (settings : Settings) (maxMemory : ℤ) (policy : EvictionPolicy) (m : Scene) :
    Prop where
  wellFormed : WellFormed m.store
  limit : m.store.maxMemory = maxMemory
  samePolicy : m.store.policy = policy
  stored : 0 ≤ m.stored
  bytes : m.store.bytes ≤ maxMemory + m.stored
  cycle : Sweeps m.cycleClock m.cycle
  phase : m.phase.Lawful settings maxMemory policy m

lemma Lawful.perform (h : Lawful settings maxMemory policy m) (a : Act) (i : Input)
    (ha : a.storedKeys ≠ ∅ → m.store.bytes ≤ maxMemory) :
    let m' := (m.perform a i).2
    WellFormed m'.store ∧ m'.store.maxMemory = maxMemory ∧ m'.store.policy = policy ∧
    0 ≤ m'.stored ∧ m'.store.bytes ≤ maxMemory + m'.stored := by
  have hset := perform_settings a i m.store
  refine ⟨perform_wellFormed a i m.store h.wellFormed, hset.1.trans h.limit,
    hset.2.1.trans h.samePolicy, ?_, ?_⟩
  · simp only [Scene.perform]
    split_ifs
    · exact h.stored
    · exact Finset.sum_nonneg fun key _ => bytesAt_nonneg _ key
  · simp only [Scene.perform]
    split_ifs with hs
    · exact (perform_shrinks hs i m.store).bytes.trans h.bytes
    · have hadds := perform_bytes a i m.store
      have hroom := ha hs
      linarith

lemma within_enforce (maxMemory : ℤ) (fuel : ℕ) :
    Within (S := sig) Act.waits (Told maxMemory .noEviction) (enforceMemoryLimit fuel) := by
  have hP : Plumbed Act.waits := ⟨fun _ ha => .inl ha⟩
  have hunlock (ok : Bool) : Within (S := sig) Act.waits (Told maxMemory .noEviction)
      (invoke .unlockDurableMutation >>= fun _ => (pure (.finished 0 ok) : Prog Enforced)) :=
    hP.act (a := .unlockDurableMutation) rfl fun _ => .done _
  refine within_answer (a := .config) (hP.plumbing _ rfl) fun r hr => ?_
  obtain rfl : r = (maxMemory, .noEviction) := hr
  simp only
  split
  · exact .done _
  · refine hP.act (a := .lockDurableMutation) rfl fun _ =>
      (within_used fun i => .inr ⟨i, rfl⟩).bind fun used => ?_
    split_ifs
    · exact hunlock true
    · exact hunlock false

lemma courses_write {name : Bytes} {cmd : Command} (hc : commands name = some cmd)
    (hw : cmd.writes = true) (around : Surroundings) (first : Bytes)
    (hn : settings.platform.toUpper first = name) (args : List Bytes) :
    Courses (AsksGone settings (first :: args)) .fresh (cmd.fn settings around args) := by
  rcases write_program hc hw settings around args with ⟨-, b, hb, -⟩ | ⟨o, ho, hfn⟩
  · rw [hb]
    exact .done trivial
  · rw [hfn]
    refine Follows.map _ (o.courses fun readings key hk => ⟨o, ?_, hk⟩)
    rw [operation, hn, ho]

lemma lawful_arrive (hmax : 0 < maxMemory) (around : Surroundings) (fuel : ℕ) (args : List Bytes)
    (hm : m.request = args) (hclock : m.clock = []) :
    (arrive settings around fuel args).Lawful settings maxMemory policy m := by
  generalize ha : arrive settings around fuel args = phase
  cases arrive_cases ha with
  | empty | unknown | arity | misconf => exact trivial
  | @preflight first args cmd hc _ hw =>
    refine ⟨⟨⟨[], m.store.bytes⟩, ?_, ?_⟩, ?_, ?_⟩
    · simp [Reading.Bounds, bytes]
    · exact sums_enforceMemoryLimit hmax (fun r hr => congrArg Prod.fst hr) fuel rfl
    · rintro rfl
      exact within_enforce maxMemory fuel
    · rw [hm]
      exact courses_write hc hw around first rfl args
  | handler hc _ hw =>
    refine ⟨⟨[], none, true⟩, courses_quiet (read_quiet hc hw) _,
      ⟨hclock.symm, fun _ _ h => ?_⟩, fun h => ?_⟩
    · cases h
    · cases h

lemma DispatchState.Lawful.shrinks {ph : DispatchState} {m' : Scene}
    (h : ph.Lawful settings maxMemory policy m) (hs : Shrinks m.store m'.store)
    (hv : ∀ key it, m'.store.view key = some it → m.store.view key = some it)
    (hc : m'.clock = m.clock) (hr : m'.request = m.request) :
    ph.Lawful settings maxMemory policy m' := by
  cases ph with
  | replied b => exact trivial
  | preflight fn p =>
    obtain ⟨⟨g, hg, hp⟩, hwithin, hfn⟩ := h
    refine ⟨⟨g, hg.shrinks hs, hp⟩, hwithin, ?_⟩
    rw [hr]
    exact hfn
  | handler p =>
    obtain ⟨g, hp, hg, hroom⟩ := h
    refine ⟨g, ?_, ?_, fun hst => hs.bytes.trans (hroom hst)⟩
    · rw [hr]
      exact hp
    · rw [hc]
      exact hg.of_le hv

lemma Lawful.sweep (h : Lawful settings maxMemory policy m) (i : Input) :
    Lawful settings maxMemory policy (m.next settings (.sweep i)) := by
  have hcycle := h.cycle
  simp only [Scene.next]
  cases hc : m.cycle with
  | done b =>
    refine ⟨h.wellFormed, h.limit, h.samePolicy, h.stored, h.bytes, sweeps_activeExpireCycle _, ?_⟩
    exact h.phase.shrinks (.refl _) (fun _ _ hk => hk) rfl rfl
  | act a k =>
    rw [hc] at hcycle
    obtain ⟨ha, hk⟩ := hcycle.next
    have hstored : a.storedKeys = ∅ := by cases a <;> trivial
    obtain ⟨h₁, h₂, h₃, h₄, h₅⟩ := h.perform a i fun hs => absurd hstored hs
    refine ⟨h₁, h₂, h₃, h₄, h₅, ?_, ?_⟩
    · have hnext := hk (m.perform a i).1 trivial
      cases a with
      | now | tick | expireShard => exact hnext
      | _ => exact absurd ha id
    · refine h.phase.shrinks (perform_shrinks hstored i m.store) (fun key it hk => ?_) rfl rfl
      refine perform_view h.wellFormed (fun key => ?_) (fun _ _ _ he => ?_) hk
      · cases a <;> trivial
      · subst he
        exact ha

lemma Lawful.turn (h : Lawful settings maxMemory policy m) (i : Input) :
    Lawful settings maxMemory policy (m.next settings (.turn i)) := by
  have hphase := h.phase
  simp only [Scene.next]
  split
  · exact h
  · rename_i fn evicted hp
    rw [hp] at hphase
    obtain ⟨⟨g, hg, hdone⟩, -, hfn⟩ := hphase
    obtain ⟨hu, hsum⟩ := hdone.result
    refine ⟨h.wellFormed, h.limit, h.samePolicy, h.stored, h.bytes, h.cycle, .fresh, hfn,
      ⟨rfl, fun _ _ hseen => ?_⟩, fun _ => (hg.bytes hu).trans hsum⟩
    cases hseen
  · exact ⟨h.wellFormed, h.limit, h.samePolicy, h.stored, h.bytes, h.cycle, trivial⟩
  · exact h
  · rename_i fn a k hp
    rw [hp] at hphase
    obtain ⟨⟨g, hg, hsums⟩, hwithin, hfn⟩ := hphase
    obtain ⟨ha, hk⟩ := hsums.next
    have hstored : a.storedKeys = ∅ := by
      cases a <;> first | rfl | exact ha
    obtain ⟨h₁, h₂, h₃, h₄, h₅⟩ := h.perform a i fun hs => absurd hstored hs
    have htold : Told maxMemory policy a (m.perform a i).1 := by
      cases a with
      | config => exact Prod.ext h.limit h.samePolicy
      | _ => exact trivial
    refine ⟨h₁, h₂, h₃, h₄, h₅, h.cycle, ⟨_, hg.perform h.wellFormed ha, hk _ htold⟩,
      fun hpol => ?_, hfn⟩
    exact (Obeys.next (hwithin hpol)).2 _ htold
  · exact ⟨h.wellFormed, h.limit, h.samePolicy, h.stored, h.bytes, h.cycle, trivial⟩
  · rename_i a k hp
    rw [hp] at hphase
    obtain ⟨g, hcourse, hg, hroom⟩ := hphase
    obtain ⟨ha, hk⟩ := hcourse.next
    have hstores (hs : a.storedKeys ≠ ∅) : g.stored = false := by
      cases a <;> first | exact ha | exact absurd rfl hs
    obtain ⟨h₁, h₂, h₃, h₄, h₅⟩ := h.perform a i fun hs => hroom (hstores hs)
    refine ⟨h₁, h₂, h₃, h₄, h₅, h.cycle, _, hk _ trivial, hg.perform i h.wellFormed, fun hst => ?_⟩
    have hnone : a.storedKeys = ∅ ∧ g.stored = false := by
      cases a with
      | set | mset => cases hst
      | _ => exact ⟨rfl, hst⟩
    exact (perform_shrinks hnone.1 i m.store).bytes.trans (hroom hnone.2)

lemma Lawful.next (hmax : 0 < maxMemory) (h : Lawful settings maxMemory policy m) (e : Event) :
    Lawful settings maxMemory policy (m.next settings e) := by
  cases e with
  | turn i => exact h.turn i
  | sweep i => exact h.sweep i
  | command around fuel args =>
    simp only [Scene.next]
    split
    · exact ⟨h.wellFormed, h.limit, h.samePolicy, h.stored, h.bytes, h.cycle,
        lawful_arrive hmax around fuel args rfl rfl⟩
    · exact h

lemma lawful_run (hmax : 0 < maxMemory) (events : List Event) :
    ∀ {m : Scene}, Lawful settings maxMemory policy m →
    Lawful settings maxMemory policy (events.foldl (Scene.next settings) m) := by
  induction events with
  | nil => exact fun h => h
  | cons e events ih => exact fun h => ih (h.next hmax e)

lemma lawful_opened (hmax : 0 < maxMemory) (journalled : Bool) :
    Lawful settings maxMemory policy (opened journalled maxMemory policy) := by
  have hbytes : (configured journalled maxMemory policy).bytes = 0 := by cases journalled <;> rfl
  refine ⟨configured_wellFormed _ _ _, ?_, ?_, le_rfl, ?_, sweeps_activeExpireCycle _, trivial⟩
  · cases journalled <;> rfl
  · cases journalled <;> rfl
  · simp only [opened, hbytes, add_zero]
    exact hmax.le

lemma Lawful.takes (h : Lawful settings maxMemory .noEviction m) {e : Event} {key : Key} {it : Item}
    (hk : m.store.view key = some it) (hk' : (m.next settings e).store.view key = none) :
    (∃ i, e = .turn i) ∧ AsksGone settings m.request m.clock key ∨ ∃ T ∈ m.shows e,
    it.expired T = true := by
  have hsame {P : Prop} (hv : m.store.view key = none) : P := by
    rw [hk] at hv
    cases hv
  have htakes {a : Act} {i : Input} (hv : (m.perform a i).2.store.view key = none) :
      a.Takes i key it :=
    (perform_spec a i m.store h.wellFormed).takes hk hv
  have hphase := h.phase
  cases e with
  | command around fuel args =>
    simp only [Scene.next] at hk'
    split at hk' <;> exact hsame hk'
  | sweep i =>
    have hcycle := h.cycle
    simp only [Scene.next] at hk'
    cases hc : m.cycle with
    | done b =>
      rw [hc] at hk'
      exact hsame hk'
    | act a k =>
      rw [hc] at hk' hcycle
      have ht := htakes hk'
      have ha := hcycle.next.1
      cases a with
      | expireShard j time n scanned => exact .inr ⟨time, Option.mem_toList.2 ha, ht⟩
      | now | tick => exact absurd ht id
      | _ => exact absurd ha id
  | turn i =>
    simp only [Scene.next] at hk'
    split at hk'
    · exact hsame hk'
    · exact hsame hk'
    · exact hsame hk'
    · exact hsame hk'
    · rename_i fn a k hp
      rw [hp] at hphase
      have ht := htakes hk'
      rcases (Obeys.next (hphase.2.1 rfl)).1 with ha | ⟨j, rfl⟩
      · cases a <;> first | exact absurd ht id | cases ha
      · exact absurd ht id
    · exact hsame hk'
    · rename_i a k hp
      rw [hp] at hphase
      obtain ⟨g, hcourse, hg, -⟩ := hphase
      rcases hg.takes hcourse.next.1 hk (htakes hk') with hasks | hT
      · exact .inl ⟨⟨i, rfl⟩, hasks⟩
      · exact .inr hT

end Invariant

/-- In every run: a write handler starts within the limit, the store is never over the limit by more
than the entries stored last, and without eviction a key goes only when it is asked to or has
expired. -/
theorem overshoot_bounded (settings : Settings) (journalled : Bool) (maxMemory : ℤ)
    (policy : EvictionPolicy) (hmax : 0 < maxMemory) (events : List Event) :
    let m := events.foldl (Scene.next settings) (opened journalled maxMemory policy)
    (∀ fn evicted inputs, m.phase = .preflight fn (.done (.finished evicted true)) →
      (exec used inputs m.store).1 ≤ maxMemory) ∧
      (∀ inputs, (exec used inputs m.store).1 ≤ maxMemory + m.stored) ∧
      (policy = .noEviction → ∀ e key it, m.store.view key = some it →
      (m.next settings e).store.view key = none →
        (∃ i, e = .turn i) ∧ AsksGone settings m.request m.clock key ∨ ∃ T ∈ m.shows e,
          it.expired T = true) := by
  intro m
  have h : Lawful settings maxMemory policy m :=
    lawful_run hmax events (lawful_opened hmax journalled)
  refine ⟨fun fn evicted inputs hp => ?_, fun inputs => ?_, ?_⟩
  · have hphase := h.phase
    rw [hp] at hphase
    obtain ⟨⟨g, hg, hdone⟩, -⟩ := hphase
    obtain ⟨hu, hsum⟩ := hdone.result
    rw [used_eq]
    exact (hg.bytes hu).trans hsum
  · rw [used_eq]
    exact h.bytes
  · rintro rfl e key it hk hk'
    exact h.takes hk hk'

def overfull : List Event :=
  let alone : Surroundings := ⟨none, none, 1, 0⟩
  let turns : List Event := List.replicate 41 (.turn ⟨0, .stored⟩)
  .command alone 0 [ascii "SET", [107], [118]] :: turns ++ .command alone 0
    [ascii "SET", [108], [118]] :: turns

def expiredAtOnce : List Event :=
  let alone : Surroundings := ⟨none, none, 1, 0⟩
  .command alone 0 [ascii "SET", [107], [118]] :: List.replicate 41 (.turn ⟨0, .stored⟩) ++
    .command alone 0 [ascii "EXPIRE", [107], ascii "-1"] :: List.replicate 40 (.turn ⟨20, .stored⟩)

theorem overshoot_bounded_overfull :
    let m := overfull.foldl (Scene.next unlogged) (opened false 1 .noEviction)
    let m' := expiredAtOnce.foldl (Scene.next unlogged) (opened false 200 .noEviction)
    let e := Event.turn ⟨20, .stored⟩
    ((exec used (fun _ => ⟨0, .stored⟩) m.store).1 = 130 ∧ m.store.view [108] = none ∧
        (exec used (fun _ => ⟨0, .stored⟩) m.store).1 ≤ 1 + m.stored) ∧
      (m'.store.view [107] = some ⟨[118], none⟩ ∧ (m'.next unlogged e).store.view [107] = none ∧
        m'.clock = [20, 20]) ∧
      ((∃ i, e = .turn i) ∧ AsksGone unlogged m'.request m'.clock [107] ∨
        ∃ T ∈ m'.shows e, Item.expired ⟨[118], none⟩ T = true) := by
  intro m m' e
  have hgone : m'.store.view [107] = some ⟨[118], none⟩ ∧
    (m'.next unlogged e).store.view [107] = none ∧ m'.clock = [20, 20] := by decide +kernel
  refine ⟨⟨by decide +kernel, by decide +kernel, ?_⟩, hgone, ?_⟩
  · exact (overshoot_bounded unlogged false 1 .noEviction (by decide) overfull).2.1 _
  · exact (overshoot_bounded unlogged false 200 .noEviction (by decide) expiredAtOnce).2.2 rfl e
      [107] _ hgone.1 hgone.2.1

end RedisClone.Server
