import RedisClone.Lib.RealTime
import RedisClone.Server.Ledger
import RedisClone.Server.RewriteRule

/-! The life of the process. `main` accepts connections until the listener is closed, drains them,
waits for the rewrite that may still be going on, and closes the log. -/

namespace RedisClone.Server

open Store Aof Lib Lib.Program

namespace Ledger

variable (faults : Faults) (synced : Bool)

def tick (l : Ledger) : Ledger :=
  if l.log.policy = .everysec then l.call faults (.sync synced) else l.call faults .flush

def close (l : Ledger) : Ledger :=
  let log := (l.log.syncLocked faults synced true).2
  { l with
    traced := { l.traced with log := log }
    fsynced := if log.err.isNone then log.bw.file else l.fsynced }

end Ledger

/-- Where `main` is: in `Serve`, in `Drain` before and after the timeout, in `WaitBackground`, at
the deferred calls, or gone. `crashed` is where `Fatalf` leaves it. -/
inductive Station
  | serving
  | draining
  | closing
  | waiting
  | returning
  | exited
  | crashed
  deriving DecidableEq, Repr

def Station.alive : Station → Bool
  | .exited | .crashed => false
  | _ => true

def Station.drained : Station → Bool
  | .waiting | .returning | .exited => true
  | _ => false

def Station.settled : Station → Bool
  | .returning | .exited => true
  | _ => false

/-- The process with its counters. `conns` are the connections whose handler has not returned;
`syncing` says that `RunSyncLoop` has not returned. -/
structure Service (ι : Type) where
  goroutines : Running ι
  stage : Station
  listening : Bool
  cancelled : Bool
  syncing : Bool
  accepted : List ι
  conns : List ι
  connections : ℤ
  connWG : ℕ
  rewriteWG : ℕ

/-- What happens next. A connection that `Drain` closes is one whose stream ends: what its handler
is given to read is what arrives before. -/
inductive Occurrence (ι : Type)
  | accept (t : ι)
  | acceptFails (temporary : Bool)
  | interrupt
  | closeListener
  | serveReturns
  | timeout
  | drained
  | background
  | close (synced : Bool)
  | run (t : ι)
  | leave (t : ι)
  | tick (synced : Bool)
  | lastSync (synced : Bool)

def Role.isRewriter : Role → Bool
  | .rewriter => true
  | _ => false

namespace Service

variable {ι : Type}

abbrev ledger (v : Service ι) : Ledger := v.goroutines.world.ledger

def withLedger (v : Service ι) (l : Ledger) : Service ι :=
  { v with goroutines := { v.goroutines with world := { v.goroutines.world with ledger := l } } }

def launched (settings : Settings) (policy : Policy) (records : List Record) (s : Store) (fuel : ℕ)
    (roles : ι → Role) : Service ι :=
  ⟨started settings policy records s fuel roles, .serving, true, false, true, [], [], 0, 0, 0⟩

variable [DecidableEq ι] (roles : ι → Role) (site : Site ι) (stimuli : ι → ℕ → Stimulus)

/-- The goroutine `t` has taken a step. BGREWRITEAOF adds to `rewriteWG`, and a rewrite that returns
is done with it. -/
def moved (v : Service ι) (t : ι) (c : Running ι) : Service ι :=
  { v with
    goroutines := c
    rewriteWG := v.rewriteWG + (if c.world.spawned = v.goroutines.world.spawned + 1 then 1 else 0) -
      (if (roles t).isRewriter = true ∧ v.goroutines.result t = none ∧
        (c.result t).isSome = true then 1 else 0) }

def step (v : Service ι) : Occurrence ι → Service ι
  | .accept t =>
    if v.stage = .serving ∧ v.listening = true ∧ (roles t).isClient = true ∧
      v.accepted.contains t = false then { v with
        accepted := t :: v.accepted
        conns := t :: v.conns
        connections := v.connections + 1
        connWG := v.connWG + 1 }
    else v
  | .acceptFails temporary =>
    if v.stage = .serving ∧ v.listening = true ∧ temporary = false then
      { v with stage := .crashed }
    else v
  | .interrupt => if v.stage.alive = true then { v with cancelled := true } else v
  | .closeListener =>
    if v.stage.alive = true ∧ v.cancelled = true then { v with listening := false } else v
  | .serveReturns =>
    if v.stage = .serving ∧ v.listening = false then
      { v with stage := .draining, cancelled := true }
    else v
  | .timeout => if v.stage = .draining then { v with stage := .closing } else v
  | .drained =>
    if (v.stage = .draining ∨ v.stage = .closing) ∧ v.connWG = 0 then
      { v with stage := .waiting }
    else v
  | .background =>
    if v.stage = .waiting ∧ v.rewriteWG = 0 then { v with stage := .returning } else v
  | .close synced =>
    if v.stage = .returning then
      { v.withLedger (v.ledger.close site.logFaults synced) with stage := .exited }
    else v
  | .run t =>
    if v.stage.alive = true ∧ ((roles t).isClient = true → v.conns.contains t = true) then
      v.moved roles t (v.goroutines.step (Process.act site) stimuli t)
    else v
  | .leave t =>
    if v.stage.alive = true ∧ v.conns.contains t = true ∧ v.goroutines.result t = some true then
      { v with
        conns := v.conns.erase t
        connections := v.connections - 1
        connWG := v.connWG - 1 }
    else v
  | .tick synced =>
    if v.stage.alive = true ∧ v.syncing = true then
      v.withLedger (v.ledger.tick site.logFaults synced)
    else v
  | .lastSync synced =>
    if v.stage.alive = true ∧ v.syncing = true ∧ v.cancelled = true then
      { v.withLedger (v.ledger.call site.logFaults (.sync synced)) with syncing := false }
    else v

def after (events : List (Occurrence ι)) (v : Service ι) : Service ι :=
  events.foldl (step roles site stimuli) v

inductive Happened (v : Service ι) : Occurrence ι → Service ι → Prop
  | accept {t : ι} (hstage : v.stage = .serving) (hclient : (roles t).isClient = true)
      (hnew : t ∉ v.accepted) : Happened v (.accept t) { v with
          accepted := t :: v.accepted
          conns := t :: v.conns
          connections := v.connections + 1
          connWG := v.connWG + 1 }
  | crash (hstage : v.stage = .serving) :
      Happened v (.acceptFails false) { v with stage := .crashed }
  | interrupt (halive : v.stage.alive = true) : Happened v .interrupt { v with cancelled := true }
  | closeListener (halive : v.stage.alive = true) :
      Happened v .closeListener { v with listening := false }
  | serveReturns (hstage : v.stage = .serving) :
      Happened v .serveReturns { v with stage := .draining, cancelled := true }
  | timeout (hstage : v.stage = .draining) : Happened v .timeout { v with stage := .closing }
  | drained (hstage : v.stage = .draining ∨ v.stage = .closing) (hconns : v.connWG = 0) :
      Happened v .drained { v with stage := .waiting }
  | background (hstage : v.stage = .waiting) (hrewrites : v.rewriteWG = 0) :
      Happened v .background { v with stage := .returning }
  | close {synced : Bool} (hstage : v.stage = .returning) : Happened v (.close synced)
      { v.withLedger (v.ledger.close site.logFaults synced) with stage := .exited }
  | run {t : ι} {a : ConnAct} {r : a.Resp} {c : Running ι} (halive : v.stage.alive = true)
      (hconn : (roles t).isClient = true → t ∈ v.conns)
      (hm : v.goroutines.Moves (Process.act site) stimuli t a r c) :
      Happened v (.run t) (v.moved roles t c)
  | leave {t : ι} (halive : v.stage.alive = true) (hconn : t ∈ v.conns)
      (hresult : v.goroutines.result t = some true) : Happened v (.leave t) { v with
          conns := v.conns.erase t
          connections := v.connections - 1
          connWG := v.connWG - 1 }
  | tick {synced : Bool} (halive : v.stage.alive = true) :
      Happened v (.tick synced) (v.withLedger (v.ledger.tick site.logFaults synced))
  | lastSync {synced : Bool} (halive : v.stage.alive = true) : Happened v (.lastSync synced)
      { v.withLedger (v.ledger.call site.logFaults (.sync synced)) with syncing := false }

omit [DecidableEq ι] in
lemma moved_self (v : Service ι) (t : ι) : v.moved roles t v.goroutines = v := by
  have hreturned : ¬ (v.goroutines.result t = none ∧ (v.goroutines.result t).isSome = true) := by
    rintro ⟨hnone, hsome⟩
    rw [hnone] at hsome
    exact Bool.false_ne_true hsome
  simp [moved, hreturned]

lemma step_cases (v : Service ι) (e : Occurrence ι) :
    v.step roles site stimuli e = v ∨
    Happened roles site stimuli v e (v.step roles site stimuli e) := by
  have hif {p : Prop} [Decidable p] {v' : Service ι} (h : p → Happened roles site stimuli v e v') :
      (if p then v' else v) = v ∨ Happened roles site stimuli v e (if p then v' else v) := by
    split_ifs with hp
    · exact .inr (h hp)
    · exact .inl rfl
  cases e with
  | accept t =>
    refine hif fun h => .accept h.1 h.2.2.1 fun hmem => ?_
    exact Bool.false_ne_true (h.2.2.2.symm.trans (List.contains_iff_mem.2 hmem))
  | acceptFails temporary =>
    refine hif fun h => ?_
    obtain ⟨hstage, -, rfl⟩ := h
    exact .crash hstage
  | interrupt => exact hif .interrupt
  | closeListener => exact hif fun h => .closeListener h.1
  | serveReturns => exact hif fun h => .serveReturns h.1
  | timeout => exact hif .timeout
  | drained => exact hif fun h => .drained h.1 h.2
  | background => exact hif fun h => .background h.1 h.2
  | close synced => exact hif .close
  | leave t => exact hif fun h => .leave h.1 (List.contains_iff_mem.1 h.2.1) h.2.2
  | tick synced => exact hif fun h => .tick h.1
  | lastSync synced => exact hif fun h => .lastSync h.1
  | run t =>
    simp only [step]
    split_ifs with h
    · rcases v.goroutines.step_cases (Process.act site) stimuli t with ⟨hs, -⟩ | ⟨a, r, hm⟩
      · rw [hs]
        exact .inl (v.moved_self roles t)
      · exact .inr (.run h.1 (fun hc => List.contains_iff_mem.1 (h.2 hc)) hm)
    · exact .inl rfl

variable {roles site stimuli}

lemma after_induction {P : Service ι → Prop}
    (hstep : ∀ v e v', P v → Happened roles site stimuli v e v' → P v')
    (events : List (Occurrence ι)) : ∀ v, P v → P (v.after roles site stimuli events) := by
  induction events with
  | nil => exact fun v hv => hv
  | cons e events ih =>
    intro v hv
    apply ih
    rcases v.step_cases roles site stimuli e with h | h
    · rwa [h]
    · exact hstep v e _ hv h

end Service

namespace Service

variable {ι : Type} [DecidableEq ι] {roles : ι → Role} {site : Site ι} {stimuli : ι → ℕ → Stimulus}
  {v v' : Service ι} {e : Occurrence ι}

structure Tended (v : Service ι) : Prop where
  nodup : v.conns.Nodup
  known : ∀ t ∈ v.conns, t ∈ v.accepted
  served : ∀ t ∈ v.accepted, t ∈ v.conns ∨ v.goroutines.result t = some true
  connWG : v.connWG = v.conns.length
  connections : v.connections = v.conns.length
  drained : v.stage.drained = true → v.conns = []

lemma Tended.step (h : v.Tended) (he : Happened roles site stimuli v e v') : v'.Tended := by
  cases he with
  | @accept t hstage _ hnew =>
    refine ⟨List.nodup_cons.2 ⟨fun hmem => hnew (h.known t hmem), h.nodup⟩, ?_, ?_, ?_, ?_, ?_⟩
    · exact List.forall_mem_cons.2
        ⟨List.mem_cons_self, fun u hu => List.mem_cons_of_mem _ (h.known u hu)⟩
    · refine List.forall_mem_cons.2 ⟨.inl List.mem_cons_self, fun u hu => ?_⟩
      exact (h.served u hu).imp_left (List.mem_cons_of_mem _)
    · exact congrArg (· + 1) h.connWG
    · simp only [h.connections, List.length_cons, Nat.cast_add, Nat.cast_one]
    · intro hd
      simp only [hstage] at hd
      exact absurd hd Bool.false_ne_true
  | crash | serveReturns | timeout =>
    exact { h with drained := fun hd => absurd hd Bool.false_ne_true }
  | drained _ hconns =>
    exact { h with drained := fun _ => List.eq_nil_of_length_eq_zero (h.connWG.symm.trans hconns) }
  | background hstage | close hstage =>
    exact { h with drained := fun _ => h.drained (by rw [hstage]; rfl) }
  | interrupt | closeListener | tick | lastSync => exact { h with }
  | run _ _ hm =>
    refine { h with served := fun u hu => (h.served u hu).imp_right fun hresult => ?_ }
    rw [← hm.step_eq]
    exact (Config.result_step _ _ (by rw [hresult]; rfl) _).trans hresult
  | @leave t _ hconn hresult =>
    refine ⟨h.nodup.erase t, fun u hu => h.known u (List.mem_of_mem_erase hu), fun u hu => ?_, ?_,
      ?_, fun hd => ?_⟩
    · by_cases hut : u = t
      · exact .inr (hut ▸ hresult)
      · exact (h.served u hu).imp_left (List.mem_erase_of_ne hut).2
    · simp only [h.connWG, List.length_erase_of_mem hconn]
    · have hpos := List.length_pos_of_mem hconn
      simp only [h.connections, List.length_erase_of_mem hconn]
      omega
    · rw [h.drained hd] at hconn
      exact absurd hconn List.not_mem_nil

end Service

end RedisClone.Server
