import RedisClone.Server.Connection
import RedisClone.Store.Concurrency
import RedisClone.Aof.CleanPrefix

/-! The whole server: connections, rewrites, the expiry cycle and the sync loop on one store and one
log. -/

namespace RedisClone.Server

open Store Resp Aof Lib Lib.Program

/-- The log with its history. `fsynced` is what the last successful fsync has put on the disk. The
file should hold `front`, which is what `Open` found or the snapshot of the last rewrite installed,
and after it what was appended from record number `subsumed` on; the rewrite under way has begun at
number `began`. -/
structure Ledger where
  traced : Traced
  fsynced : Bytes
  history : List Record
  front : List Record
  subsumed : ℕ
  began : ℕ

abbrev Ledger.log (l : Ledger) : Log := l.traced.log

def Ledger.opened (policy : Policy) (records : List Record) : Ledger :=
  ⟨openedOn policy records, encodeAll records, [], records, 0, 0⟩

def Ledger.upTo (l : Ledger) (n : ℕ) : List Record := l.front ++ (l.history.take n).drop l.subsumed

/-- The record is in the fsynced content, or a rewrite begun after it has been installed, and the
whole of its snapshot is there. -/
def Ledger.Durable (l : Ledger) (i : ℕ) : Prop := encodeAll (l.upTo (i + 1)) <+: l.fsynced

def Ledger.call (faults : Faults) (l : Ledger) (call : LogCall) : Ledger :=
  let traced := call.trace faults l.traced
  match call with
  | .append args =>
    if l.log.err.isSome then l else { l with traced := traced, history := l.history ++ [args] }
  | .sync _ =>
    if traced.log.err.isNone && decide (l.log.policy ≠ .no) then
      { l with traced := traced, fsynced := traced.log.bw.file }
    else { l with traced := traced }
  | .beginRewrite =>
    if l.log.beginRewrite.1.isSome then { l with traced := traced }
    else { l with traced := traced, began := l.history.length }
  | .installRewrite i =>
    if LogCall.renames l.log (.installRewrite i) then
      { l with
        traced := traced
        fsynced := l.log.tmp.getD [] ++ l.log.rewriteTail
        front := l.traced.snapshot
        subsumed := l.began }
    else { l with traced := traced }
  | _ => { l with traced := traced }

/-- A reply that has been written in full: where it stops in what the connection has been sent, and
the records that its command appended. -/
structure Ack where
  stop : ℕ
  records : List ℕ

/-- `out` is the connection with its buffered writer, `sent` all that has been written to that. The
rest is history. Of the command being served: the records it has appended, whether the log had
failed when its dispatch began, and whether it is a write that has to ask the log; and the replies
to writes. -/
structure Conn where
  out : BufferedWriter UInt8
  sent : Bytes
  mine : List ℕ
  late : Bool
  writing : Bool
  acks : List Ack

def Conn.fresh : Conn := ⟨.fresh [] 0, [], [], false, false, []⟩

def writeBufSize : ℕ := 16 * 1024

/-- `spawned` counts the rewrites that have begun and whose goroutine has not yet run. -/
structure Process (ι : Type) where
  base : World ι
  ledger : Ledger
  conns : ι → Conn
  spawned : ℕ

structure Stimulus where
  input : Input
  dry : Bool
  counters : ℤ × ℕ
  cause : Subtype OneLine
  synced : Bool
  created : Bool
  tmpFaults : Faults
  install : Log.Install

structure Site (ι : Type) where
  path : Bytes
  logFaults : Faults
  connFaults : ι → Faults

def Conn.Writes {ι : Type} (site : Site ι) (t : ι) (c c' : Conn) : (a : ConnAct) → a.Resp → Prop
  | .write p, r =>
    c'.out = c.out.write writeBufSize (site.connFaults t) p ∧ c'.sent = c.sent ++ p ∧
      r = !c'.out.failed
  | .flush, _ => c'.out = c.out.flush (site.connFaults t) ∧ c'.sent = c.sent
  | .read, _ => (c'.out = c.out ∨ c'.out = c.out.flush (site.connFaults t)) ∧ c'.sent = c.sent
  | _, _ => c'.out = c.out ∧ c'.sent = c.sent

def faultText (path cause : Bytes) : Fault → Bytes
  | .write => ascii "write " ++ path ++ ascii ": " ++ cause
  | .sync => ascii "sync " ++ path ++ ascii ": " ++ cause
  | .reopen => ascii "reopen rewritten AOF: open " ++ path ++ ascii ": " ++ cause

def beginText (path cause : Bytes) : BeginError → Bytes
  | .latched fault => faultText path cause fault
  | .alreadyInProgress => ascii "AOF rewrite already in progress"

namespace Process

variable {ι : Type} [DecidableEq ι]

def setConn (w : Process ι) (t : ι) (c : Conn) : Process ι :=
  { w with conns := Function.update w.conns t c }

def propagate (site : Site ι) (t : ι) (w : Process ι) : Act → Process ι
  | .propagate record =>
    if w.ledger.log.err.isSome then
      { w with ledger := w.ledger.call site.logFaults (.append record) }
    else
      { w with ledger := w.ledger.call site.logFaults (.append record) }.setConn t
        { w.conns t with mine := w.ledger.history.length :: (w.conns t).mine }
  | _ => w

def flush (site : Site ι) (t : ι) (w : Process ι) : Process ι :=
  w.setConn t { w.conns t with out := (w.conns t).out.flush (site.connFaults t) }

def act (site : Site ι) : Semantics connSig ι Stimulus (Process ι) := fun t a i w =>
  match a with
  | .store a =>
    (World.act t a i.input w.base).map fun done =>
      (done.1, if w.base.store.journal.isSome then { w with base := done.2 }.propagate site t a
        else { w with base := done.2 })
  | .read => some ((), if i.dry then w.flush site t else w)
  | .counters =>
    some (i.counters, w.setConn t
        { w.conns t with mine := [], late := w.ledger.log.err.isSome, writing := false })
  | .aofErr =>
    some (w.ledger.log.err.map (faultText site.path i.cause.1),
      w.setConn t { w.conns t with writing := true })
  | .beginRewrite =>
    some (w.ledger.log.beginRewrite.1.map (beginText site.path i.cause.1),
      { w with
        ledger := w.ledger.call site.logFaults .beginRewrite
        spawned := if w.ledger.log.beginRewrite.1.isSome then w.spawned else w.spawned + 1 })
  | .write p =>
    let out := (w.conns t).out.write writeBufSize (site.connFaults t) p
    some (!out.failed, w.setConn t { w.conns t with out := out, sent := (w.conns t).sent ++ p })
  | .returned reply =>
    some ((), if (replyError reply).isSome then w else w.setConn t
        { w.conns t with acks := ⟨(w.conns t).sent.length, (w.conns t).mine⟩ :: (w.conns t).acks })
  | .syncIfAlways =>
    some ((), if w.ledger.log.policy = .always then
        { w with ledger := w.ledger.call site.logFaults (.sync i.synced) } else w)
  | .flush => some ((), w.flush site t)
  | .startRewrite => if w.spawned = 0 then none else some ((), { w with spawned := w.spawned - 1 })
  | .prepareRewrite snapshot =>
    some ((), { w with ledger :=
          w.ledger.call site.logFaults (.prepareRewrite i.created i.tmpFaults snapshot) })
  | .installRewrite =>
    some ((), { w with ledger := w.ledger.call site.logFaults (.installRewrite i.install) })
  | .flushLog => some ((), { w with ledger := w.ledger.call site.logFaults .flush })

variable {site : Site ι} {t : ι} {a : ConnAct} {i : Stimulus} {r : a.Resp} {w w' : Process ι}

@[simp] lemma setConn_self (w : Process ι) (t : ι) (c : Conn) : (w.setConn t c).conns t = c :=
  Function.update_self ..

lemma setConn_of_ne (w : Process ι) {t u : ι} (h : u ≠ t) (c : Conn) :
    (w.setConn t c).conns u = w.conns u :=
  Function.update_of_ne h ..

inductive Acted (site : Site ι) (t : ι) (i : Stimulus) (w : Process ι) :
    (a : ConnAct) → a.Resp → Process ι → Prop
  | store {a : Act} {r : a.Resp} {base : World ι}
      (hbase : World.act t a i.input w.base = some (r, base))
      (hno : ∀ record, a = .propagate record → w.base.store.journal.isSome = false) :
      Acted site t i w (.store a) r { w with base := base }
  | latched {record : Record} {r : Unit} {base : World ι}
      (hbase : World.act t (.propagate record) i.input w.base = some (r, base))
      (herr : w.ledger.log.err.isSome = true) : Acted site t i w (.store (.propagate record)) r
        { w with base := base, ledger := w.ledger.call site.logFaults (.append record) }
  | appended {record : Record} {r : Unit} {base : World ι}
      (hbase : World.act t (.propagate record) i.input w.base = some (r, base))
      (herr : w.ledger.log.err = none) : Acted site t i w (.store (.propagate record)) r
        ({ w with base := base, ledger := w.ledger.call site.logFaults (.append record) }.setConn t
          { w.conns t with mine := w.ledger.history.length :: (w.conns t).mine })
  | read (hdry : i.dry = false) : Acted site t i w .read () w
  | dry (hdry : i.dry = true) : Acted site t i w .read () (w.flush site t)
  | counters : Acted site t i w .counters i.counters
      (w.setConn t { w.conns t with mine := [], late := w.ledger.log.err.isSome, writing := false })
  | aofErr : Acted site t i w .aofErr (w.ledger.log.err.map (faultText site.path i.cause.1))
      (w.setConn t { w.conns t with writing := true })
  | beginRewrite :
      Acted site t i w .beginRewrite
        (w.ledger.log.beginRewrite.1.map (beginText site.path i.cause.1))
      { w with
        ledger := w.ledger.call site.logFaults .beginRewrite
        spawned := if w.ledger.log.beginRewrite.1.isSome then w.spawned else w.spawned + 1 }
  | write (p : Bytes) :
      Acted site t i w (.write p)
        (!((w.conns t).out.write writeBufSize (site.connFaults t) p).failed)
      (w.setConn t { w.conns t with
        out := (w.conns t).out.write writeBufSize (site.connFaults t) p
        sent := (w.conns t).sent ++ p })
  | refused {reply : Response} (herr : (replyError reply).isSome = true) :
      Acted site t i w (.returned reply) () w
  | returned {reply : Response} (herr : replyError reply = none) :
      Acted site t i w (.returned reply) () (w.setConn t { w.conns t with acks :=
            ⟨(w.conns t).sent.length, (w.conns t).mine⟩ :: (w.conns t).acks })
  | synced (hpolicy : w.ledger.log.policy = .always) :
      Acted site t i w .syncIfAlways ()
        { w with ledger := w.ledger.call site.logFaults (.sync i.synced) }
  | unsynced (hpolicy : w.ledger.log.policy ≠ .always) : Acted site t i w .syncIfAlways () w
  | flush : Acted site t i w .flush () (w.flush site t)
  | startRewrite (hspawned : w.spawned ≠ 0) :
      Acted site t i w .startRewrite () { w with spawned := w.spawned - 1 }
  | prepareRewrite (snapshot : List Record) : Acted site t i w (.prepareRewrite snapshot) ()
      { w with ledger :=
        w.ledger.call site.logFaults (.prepareRewrite i.created i.tmpFaults snapshot) }
  | installRewrite :
      Acted site t i w .installRewrite ()
        { w with ledger := w.ledger.call site.logFaults (.installRewrite i.install) }
  | flushLog :
      Acted site t i w .flushLog () { w with ledger := w.ledger.call site.logFaults .flush }

lemma act_store_cases {a : Act} {r : a.Resp} (ha : act site t (.store a) i w = some (r, w')) :
    Acted site t i w (.store a) r w' := by
  obtain ⟨⟨r, base⟩, hbase, he⟩ := Option.map_eq_some_iff.1 ha
  obtain ⟨rfl, rfl⟩ := Prod.mk.inj he
  split_ifs with hj
  · cases a with
    | propagate record =>
      simp only [propagate]
      split_ifs with herr
      · exact .latched hbase herr
      · exact .appended hbase (Option.not_isSome_iff_eq_none.1 herr)
    | _ => exact .store hbase fun _ => Act.noConfusion
  · exact .store hbase fun _ _ => Bool.eq_false_iff.2 hj

lemma act_cases (ha : act site t a i w = some (r, w')) : Acted site t i w a r w' := by
  cases a with
  | store a => exact act_store_cases ha
  | startRewrite =>
    simp only [act] at ha
    split_ifs at ha with hspawned
    obtain ⟨-, rfl⟩ := Prod.mk.inj (Option.some.inj ha)
    exact .startRewrite hspawned
  | read =>
    obtain ⟨-, rfl⟩ := Prod.mk.inj (Option.some.inj ha)
    split_ifs with hdry
    · exact .dry hdry
    · exact .read (Bool.eq_false_iff.2 hdry)
  | returned reply =>
    obtain ⟨-, rfl⟩ := Prod.mk.inj (Option.some.inj ha)
    split_ifs with herr
    · exact .refused herr
    · exact .returned (Option.not_isSome_iff_eq_none.1 herr)
  | syncIfAlways =>
    obtain ⟨-, rfl⟩ := Prod.mk.inj (Option.some.inj ha)
    split_ifs with hpolicy
    · exact .synced hpolicy
    · exact .unsynced hpolicy
  | _ =>
    obtain ⟨rfl, rfl⟩ := Prod.mk.inj (Option.some.inj ha)
    constructor

lemma act_conns_of_ne (ha : act site t a i w = some (r, w')) {u : ι} (hu : u ≠ t) :
    w'.conns u = w.conns u := by
  cases act_cases ha with
  | appended | dry | counters | aofErr | write | returned | flush => exact setConn_of_ne _ hu _
  | _ => rfl

lemma act_writes (ha : act site t a i w = some (r, w')) :
    (w.conns t).Writes site t (w'.conns t) a r := by
  cases act_cases ha with
  | appended | counters | aofErr | returned => simp only [Conn.Writes, setConn_self, and_self]
  | write p => simp only [Conn.Writes, setConn_self, true_and]
  | dry => simp only [Conn.Writes, Process.flush, setConn_self, or_true, true_and]
  | flush => simp only [Conn.Writes, Process.flush, setConn_self, true_and]
  | read => exact ⟨.inl rfl, rfl⟩
  | _ => exact ⟨rfl, rfl⟩

end Process

inductive Role
  | client (src : Bytes)
  | rewriter
  | expirer
  | syncer

def Role.program (settings : Settings) (fuel : ℕ) : Role → Session Bool
  | .client src => handleConn settings fuel src
  | .rewriter => (fun _ => true) <$> rewriteAOF
  | .expirer => (fun _ => true) <$> onStore activeExpireCycle
  | .syncer => (fun _ => true) <$> perform .flushLog

abbrev Running (ι : Type) := Lib.Config connSig ι Bool (Process ι)

def started {ι : Type} (settings : Settings) (policy : Policy) (records : List Record)
    (s : Store) (fuel : ℕ) (roles : ι → Role) : Running ι :=
  .start ⟨⟨s, .free ι⟩, .opened policy records, fun _ => .fresh, 0⟩ fun t =>
    (roles t).program settings fuel

end RedisClone.Server
