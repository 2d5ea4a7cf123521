import RedisClone.Server.Commands
import RedisClone.Resp.Reader

/-! The goroutines of the server. A connection reads one command after another, dispatches it and
writes the reply; a rewrite that BGREWRITEAOF has begun goes on in a goroutine of its own. -/

namespace RedisClone.Server

open Store Resp Lib Lib.Program

/-- A section of the store, a call of the log, or a step on the connection's own buffered writer.
`counters` is where the dispatch of a command begins, by counting it. `returned` is no step of the
source: it marks where the handler of a write has returned, with what it has written. -/
inductive ConnAct
  | store (a : Act)
  | read
  | aofErr
  | beginRewrite
  | counters
  | write (p : Bytes)
  | returned (reply : Response)
  | syncIfAlways
  | flush
  | startRewrite
  | prepareRewrite (snapshot : List Record)
  | installRewrite
  | flushLog

@[reducible] def ConnAct.Resp : ConnAct → Type
  | .store a => a.Resp
  | .aofErr | .beginRewrite => Option Bytes
  | .counters => ℤ × ℕ
  | .write _ => Bool
  | _ => Unit

@[reducible] def connSig : Signature := ⟨ConnAct, ConnAct.Resp⟩

abbrev Session (α : Type) := Program connSig α

abbrev perform (a : ConnAct) : Session a.Resp := Program.call (S := connSig) a

def onStore {α : Type} (p : Prog α) : Session α := p.embed .store fun _ r => r

def writeChunks : List Bytes → Session Bool
  | [] => return true
  | p :: ps => do
    if ← perform (.write p) then writeChunks ps
    else return false

inductive Sent
  | sent
  | failed
  | panicked
  deriving DecidableEq, Repr

def writeCalls : List WriteCall → Session Sent
  | [] => return .sent
  | c :: cs =>
    if c.panics then return .panicked
    else do
      if ← writeChunks c.chunks then writeCalls cs
      else return .failed

def respond (reply : Response) : Session Sent :=
  if reply = [] then return .panicked else writeCalls reply

def Settings.lookup (settings : Settings) : List Bytes → Option Command
  | [] => none
  | first :: args => (commands (settings.platform.toUpper first)).filter fun cmd => cmd.arityOk args

def Settings.writes (settings : Settings) (args : List Bytes) : Bool :=
  (settings.lookup args).any Command.writes

def Settings.rewrites (settings : Settings) (args : List Bytes) : Bool :=
  (settings.lookup args).isSome &&
    decide (settings.platform.toUpper (args.headD []) = ascii "BGREWRITEAOF")

/-- How the dispatch of a command comes out for the connection; `stuck` while the eviction before a
write has not come to an end within its fuel. -/
inductive Dispatched
  | replied
  | broken
  | stuck
  deriving DecidableEq, Repr

def Dispatched.ofSent : Sent → Dispatched
  | .sent => .replied
  | _ => .broken

def askErr (settings : Settings) (args : List Bytes) : Session (Option Bytes) :=
  if settings.writes args && settings.aof then perform .aofErr else return none

def askBegin (settings : Settings) (args : List Bytes) : Session (Option Bytes) :=
  if settings.rewrites args && settings.aof then perform .beginRewrite else return none

def syncAfter (settings : Settings) : Session Unit :=
  if settings.aof then perform .syncIfAlways else return ()

def concludeWrite (settings : Settings) (b : Response) : Session Dispatched := do
  match ← respond b with
  | .sent => do
    perform (.returned b)
    syncAfter settings
    return .replied
  | _ => return .broken

def conclude (settings : Settings) : DispatchState → Session Dispatched
  | .replied b => Dispatched.ofSent <$> respond b
  | .handler p => do
    let b ← onStore p
    Dispatched.ofSent <$> respond b
  | .preflight fn p => do
    match ← onStore p with
    | .running _ => return .stuck
    | .finished _ false => Dispatched.ofSent <$> respond errOOM
    | .finished _ true => do
      let b ← onStore fn
      concludeWrite settings b

def dispatchTo (settings : Settings) (fuel : ℕ) (args : List Bytes) : Session Dispatched := do
  let counters ← perform .counters
  let aofErr ← askErr settings args
  let beginErr ← askBegin settings args
  conclude settings (arrive settings ⟨aofErr, beginErr, counters.1, counters.2⟩ fuel args)

def farewell : ReadError → Response
  | .protocol msg => [.error (ascii "ERR " ++ (ascii "Protocol error: " ++ msg))]
  | _ => []

/-- The loop, and the deferred `Flush` at its end. It answers `false` when it has come to no end. -/
def serveFrom (settings : Settings) (fuel : ℕ) : ℕ → Bytes → Session Bool
  | 0, _ => return false
  | n + 1, src => do
    perform .read
    match readCommand src with
    | .error e => do
      let _ ← writeCalls (farewell e)
      perform .flush
      return true
    | .ok ([], rest) => serveFrom settings fuel n rest
    | .ok (args, rest) => do
      match ← dispatchTo settings fuel args with
      | .replied => serveFrom settings fuel n rest
      | .broken => do
        perform .flush
        return true
      | .stuck => return false

/-- Each round reads at least one byte, so the length of the stream is rounds enough. -/
def handleConn (settings : Settings) (fuel : ℕ) (src : Bytes) : Session Bool :=
  serveFrom settings fuel (src.length + 1) src

def rewriteAOF : Session Unit := do
  perform .startRewrite
  let snapshot ← onStore aofSnapshot
  perform (.prepareRewrite snapshot)
  perform .installRewrite

section Steps

variable {P : ConnAct → Prop}

lemma only_perform {α : Type} {a : ConnAct} {f : a.Resp → Session α} (ha : P a)
    (hf : ∀ r, Only (S := connSig) P (f r)) :
    Only (S := connSig) P (perform a >>= f) := Only.act ha hf

lemma only_writeChunks (hw : ∀ p, P (.write p)) (ps : List Bytes) :
    Only (S := connSig) P (writeChunks ps) := by
  induction ps with
  | nil => exact .done _
  | cons p ps ih =>
    refine only_perform (hw p) fun r => ?_
    split_ifs
    · exact ih
    · exact .done _

lemma only_writeCalls (hw : ∀ p, P (.write p)) (cs : List WriteCall) :
    Only (S := connSig) P (writeCalls cs) := by
  induction cs with
  | nil => exact .done _
  | cons c cs ih =>
    simp only [writeCalls]
    split_ifs
    · exact .done _
    · refine (only_writeChunks hw c.chunks).bind fun r => ?_
      split_ifs
      · exact ih
      · exact .done _

lemma only_respond (hw : ∀ p, P (.write p)) (b : Response) : Only (S := connSig) P (respond b) := by
  unfold respond
  split_ifs
  · exact .done _
  · exact only_writeCalls hw b

variable (settings : Settings)

lemma only_concludeWrite (hw : ∀ p, P (.write p)) (hreturned : ∀ b, P (.returned b))
    (hsync : P .syncIfAlways) (b : Response) :
    Only (S := connSig) P (concludeWrite settings b) := by
  refine (only_respond hw b).bind fun r => ?_
  cases r with
  | sent =>
    refine only_perform (hreturned b) fun _ => Only.bind ?_ fun _ => .done _
    unfold syncAfter
    split_ifs
    · exact Only.call (S := connSig) hsync
    · exact .done _
  | failed | panicked => exact .done _

lemma only_askErr (h : P .aofErr) (args : List Bytes) :
    Only (S := connSig) P (askErr settings args) := by
  unfold askErr
  split_ifs
  · exact Only.call (S := connSig) h
  · exact .done _

lemma only_askBegin (h : P .beginRewrite) (args : List Bytes) :
    Only (S := connSig) P (askBegin settings args) := by
  unfold askBegin
  split_ifs
  · exact Only.call (S := connSig) h
  · exact .done _

end Steps

end RedisClone.Server
