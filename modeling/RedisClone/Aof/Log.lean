import RedisClone.Aof.Replay
import RedisClone.Lib.BufferedWriter

namespace RedisClone.Aof

open Resp Lib

inductive Policy
  | always
  | everysec
  | no
  deriving DecidableEq, Repr

inductive Fault
  | write
  | sync
  | reopen
  deriving DecidableEq, Repr

inductive BeginError
  | latched (fault : Fault)
  | alreadyInProgress
  deriving DecidableEq, Repr

inductive RewriteError
  | create
  | writeSnapshot
  | flushSnapshot
  | notInProgress
  | latched (fault : Fault)
  | writeTail
  | sync
  | close
  | install
  | reopen (fault : Fault)
  deriving DecidableEq, Repr

/-- `bw` is the file that `l.f` refers to, with the writer in front of it. It is the file at
`path`, until a rename has put another one there (`moved`) that could not be opened. The
temporary file of a `FinishRewrite` on its way is `tmp`. -/
structure Log where
  policy : Policy
  bw : BufferedWriter UInt8
  moved : Option Bytes
  rewriting : Bool
  rewriteTail : Bytes
  err : Option Fault
  tmp : Option Bytes

def writerBufSize : ℕ := 64 * 1024

namespace Log

def atPath (l : Log) : Bytes := l.moved.getD l.bw.file

def openLog (policy : Policy) (file : Bytes) : Log :=
  ⟨policy, .fresh file 0, none, false, [], none, none⟩

def chunks (args : List Bytes) : List Bytes := (commandCalls args).flatMap WriteCall.chunks

def fail (fault : Fault) (l : Log) : Option Fault × Log :=
  let err := l.err.getD fault
  (some err, { l with err := some err })

/-- The second `writeCommand` goes to a buffer in memory and cannot fail. -/
def append (faults : Faults) (args : List Bytes) (l : Log) : Option Fault × Log :=
  match l.err with
  | some fault => (some fault, l)
  | none =>
    let l := { l with bw := l.bw.writeAll writerBufSize faults (chunks args) }
    if l.bw.failed then l.fail .write
    else if l.rewriting then (none, { l with rewriteTail := l.rewriteTail ++ writeCommand args })
    else (none, l)

def beginRewrite (l : Log) : Option BeginError × Log :=
  match l.err with
  | some fault => (some (.latched fault), l)
  | none =>
    if l.rewriting then (some .alreadyInProgress, l)
    else (none, { l with rewriting := true, rewriteTail := [] })

def abortRewrite (l : Log) : Log := { l with rewriting := false, rewriteTail := [] }

/-- The first half of `FinishRewrite`, which does not hold the lock of the log. -/
def prepareRewrite (created : Bool) (faults : Faults) (snapshot : List (List Bytes)) (l : Log) :
    Option RewriteError × Log :=
  if created = false then (some .create, l.abortRewrite)
  else
    let bw := (BufferedWriter.fresh [] 0).writeAll writerBufSize faults (snapshot.flatMap chunks)
    if bw.failed then (some .writeSnapshot, l.abortRewrite)
    else
      let bw := bw.flush faults
      if bw.failed then (some .flushSnapshot, l.abortRewrite)
      else (none, { l with tmp := some bw.file })

structure Install where
  wroteTail : Bool
  synced : Bool
  closed : Bool
  renamed : Bool
  reopened : Bool
  deriving DecidableEq, Repr

def installRewrite (i : Install) (l : Log) : Option RewriteError × Log :=
  match l.tmp with
  | none => (none, l)
  | some tmp =>
    let l := { l with tmp := none }
    if l.rewriting = false then (some .notInProgress, l)
    else
      match l.err with
      | some fault => (some (.latched fault), l.abortRewrite)
      | none =>
        if i.wroteTail = false then (some .writeTail, l.abortRewrite)
        else if i.synced = false then (some .sync, l.abortRewrite)
        else if i.closed = false then (some .close, l.abortRewrite)
        else if i.renamed = false then (some .install, l.abortRewrite)
        else
          let file := tmp ++ l.rewriteTail
          if i.reopened = false then
            let failed := { l.abortRewrite with moved := some file }.fail .reopen
            (failed.1.map .reopen, failed.2)
          else (none, { l.abortRewrite with bw := .fresh file l.bw.ops })

def syncLocked (faults : Faults) (synced fsync : Bool) (l : Log) : Option Fault × Log :=
  match l.err with
  | some fault => (some fault, l)
  | none =>
    let l := { l with bw := l.bw.flush faults }
    if l.bw.failed then l.fail .write
    else if fsync && !synced then l.fail .sync
    else (none, l)

def sync (faults : Faults) (synced : Bool) (l : Log) : Option Fault × Log :=
  l.syncLocked faults synced (decide (l.policy ≠ .no))

def flush (faults : Faults) (l : Log) : Option Fault × Log := l.syncLocked faults true false

end Log

inductive LogCall
  | append (args : List Bytes)
  | flush
  | sync (synced : Bool)
  | beginRewrite
  | prepareRewrite (created : Bool) (faults : Faults) (snapshot : List (List Bytes))
  | installRewrite (i : Log.Install)

/-- A log with the history that says what it should hold: the records appended to it, those
appended since the last `BeginRewrite`, and the snapshot in the temporary file. -/
structure Traced where
  log : Log
  records : List (List Bytes)
  since : List (List Bytes)
  snapshot : List (List Bytes)

def LogCall.renames (l : Log) : LogCall → Bool
  | .installRewrite i =>
    l.tmp.isSome && l.rewriting && l.err.isNone && i.wroteTail && i.synced && i.closed && i.renamed
  | _ => false

def LogCall.ofRewrite : LogCall → Bool
  | .beginRewrite | .prepareRewrite _ _ _ | .installRewrite _ => true
  | _ => false

section Calls

variable (faults : Faults)

def LogCall.run (l : Log) : LogCall → Log
  | .append args => (l.append faults args).2
  | .flush => (l.flush faults).2
  | .sync synced => (l.sync faults synced).2
  | .beginRewrite => l.beginRewrite.2
  | .prepareRewrite created faults snapshot => (l.prepareRewrite created faults snapshot).2
  | .installRewrite i => (l.installRewrite i).2

def LogCall.trace (j : Traced) (call : LogCall) : Traced :=
  let j' := { j with log := call.run faults j.log }
  match call with
  | .append args =>
    if j.log.err.isSome then j'
      else { j' with records := j.records ++ [args], since := j.since ++ [args] }
  | .beginRewrite => if j.log.beginRewrite.1.isSome then j' else { j' with since := [] }
  | .prepareRewrite created faults snapshot =>
    if (j.log.prepareRewrite created faults snapshot).1.isSome then j'
      else { j' with snapshot := snapshot }
  | .installRewrite i =>
    if LogCall.renames j.log (.installRewrite i) then { j' with records := j.snapshot ++ j.since }
      else j'
  | _ => j'

def runCalls (calls : List LogCall) (j : Traced) : Traced := calls.foldl (LogCall.trace faults) j

end Calls

def openedOn (policy : Policy) (records : List (List Bytes)) : Traced :=
  ⟨.openLog policy (encodeAll records), records, [], []⟩

end RedisClone.Aof
