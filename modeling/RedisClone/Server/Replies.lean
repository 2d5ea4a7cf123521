import RedisClone.Server.System
import RedisClone.Server.Handlers
import RedisClone.Store.Memory

namespace RedisClone.Server

open Store Resp Aof Lib Lib.Program

structure Reply (b : Response) : Prop where
  nonempty : b ≠ []
  calm : ∀ c ∈ b, c.panics = false
  value : IsValue (b.flatMap WriteCall.bytes)

lemma reply_whole {c : WriteCall} (h : c.Whole) : Reply [c] :=
  ⟨List.cons_ne_nil _ _, fun _ hc => List.mem_singleton.1 hc ▸ h.panics, by simpa using h.isValue⟩

lemma reply_array {cs : List WriteCall} {n : ℕ} (hn : n = cs.length) (h : ∀ c ∈ cs, c.Whole) :
    Reply (.arrayHeader n :: cs) := by
  subst hn
  refine ⟨List.cons_ne_nil _ _, fun c hc => ?_, isValue_array h⟩
  rcases List.mem_cons.1 hc with rfl | hc
  · rfl
  · exact (h c hc).panics

lemma reply_error {b : Response} (h : ∃ msg, OneLine msg ∧ b = [.error msg]) : Reply b := by
  obtain ⟨msg, hmsg, rfl⟩ := h
  exact reply_whole hmsg

lemma reply_replyTo (a : Answer) : Reply (replyTo a) := by
  have hok : Reply ok := reply_whole (c := .simpleString _) (by decide : OneLine (ascii "OK"))
  cases a with
  | number n =>
    cases n with
    | none => exact reply_error ⟨_, by decide, rfl⟩
    | some n => exact reply_whole (c := .integer n) trivial
  | count n => exact reply_whole (c := .integer n) trivial
  | flag b => exact reply_whole (c := .integer _) trivial
  | _ => exact hok

abbrev Answers (p : Prog Response) : Prop :=
  Obeys (S := sig) (fun _ => True) (fun _ _ => True) Reply p

section Handlers

variable (settings : Settings) (around : Surroundings)

lemma answers_bind {α : Type} (p : Prog α) {f : α → Prog Response} (hf : ∀ a, Answers (f a)) :
    Answers (p >>= f) :=
  (Obeys.any p).bind fun a _ => hf a

lemma answers_of_handles {legal : Prop} {o : Option Op} {p : Prog Response} (h : Handles legal o p)
    (hl : legal) : Answers p := by
  cases o with
  | none =>
    obtain ⟨b, rfl, hb⟩ := h
    exact .done (reply_error (hb hl))
  | some o =>
    rw [show p = replyTo <$> o.program from h, map_eq_pure_bind]
    exact answers_bind _ fun a => .done (reply_replyTo a)

lemma whole_bulkOrNull (v : Option Bytes) : (bulkOrNull v).Whole := by
  cases v <;> exact trivial

lemma answers_ping (args : List Bytes) : Answers (ping args) := by
  unfold ping
  split
  · exact .done (reply_whole (c := .bulkString _) trivial)
  · exact .done (reply_whole (c := .simpleString _) (by decide : OneLine (ascii "PONG")))

lemma answers_mgetValues (keys : List Bytes) :
    Obeys (S := sig) (fun _ => True) (fun _ _ => True)
      (fun b => b.length = keys.length ∧ ∀ c ∈ b, c.Whole) (mgetValues keys) := by
  induction keys with
  | nil => exact .done ⟨rfl, fun _ hc => absurd hc (List.not_mem_nil)⟩
  | cons key keys ih =>
    refine (Obeys.any _).bind fun v _ => ih.bind fun rest hrest =>
      .done ⟨congrArg (· + 1) hrest.1, fun c hc => ?_⟩
    rcases List.mem_cons.1 hc with rfl | hc
    · exact whole_bulkOrNull v
    · exact hrest.2 c hc

lemma answers_mget (keys : List Bytes) : Answers (mget keys) :=
  (answers_mgetValues keys).bind fun _ hb => .done (reply_array hb.1.symm hb.2)

lemma answers_ttlIn (unit : ℤ) {args : List Bytes} (h : 1 ≤ args.length) :
    Answers (ttlIn unit args) := by
  cases args with
  | nil => exact absurd h (by decide)
  | cons key rest =>
    refine answers_bind _ fun r => ?_
    cases r <;> exact .done (reply_whole (c := .integer _) trivial)

lemma answers_configGet {args : List Bytes} (h : 1 ≤ args.length) :
    Answers (configGet settings args) := by
  cases args with
  | nil => exact absurd h (by decide)
  | cons sub args =>
    simp only [configGet]
    split
    · exact .done (reply_error ⟨_, by decide, rfl⟩)
    · split
      · refine answers_bind _ fun r => ?_
        split
        · exact .done (reply_error ⟨_, by decide, rfl⟩)
        · rename_i found _
          refine .done (reply_array ?_ fun c hc => ?_)
          · simp only [List.length_flatMap, List.length_cons, List.length_nil, List.map_const',
              List.sum_replicate, smul_eq_mul]
          · obtain ⟨s, -, hc⟩ := List.mem_flatMap.1 hc
            rcases List.mem_pair.1 hc with rfl | rfl <;> exact trivial
      · exact .done (reply_error (wrongArity_eq _ _))

lemma answers_bgrewriteaof (hb : ∀ err ∈ around.beginRewriteErr, OneLine err) :
    Answers (bgrewriteaof settings around) := by
  unfold bgrewriteaof
  split
  · exact .done (reply_error ⟨_, by decide, rfl⟩)
  · split
    · rename_i err he
      exact .done (reply_error ⟨_, (by decide : OneLine (ascii "ERR ")).append (hb err he), rfl⟩)
    · exact .done (reply_whole (c := .simpleString _)
          (by decide : OneLine (ascii "Background append only file rewriting started")))

lemma command_answers {name : Bytes} {cmd : Command} (hc : commands name = some cmd)
    {args : List Bytes} (ha : cmd.minArgs ≤ args.length)
    (hb : ∀ err ∈ around.beginRewriteErr, OneLine err) : Answers (cmd.fn settings around args) := by
  cases hw : cmd.writes with
  | true => exact answers_of_handles (write_handles hc hw settings around args) ha
  | false =>
    cases readEntry hc hw with
    | ping => exact answers_ping args
    | echo =>
      obtain ⟨msg, rest, rfl⟩ := List.exists_cons_of_length_pos ha
      exact .done (reply_whole (c := .bulkString msg) trivial)
    | get =>
      obtain ⟨key, rest, rfl⟩ := List.exists_cons_of_length_pos ha
      exact answers_bind _ fun v => .done (reply_whole (whole_bulkOrNull v))
    | mget => exact answers_mget args
    | strlen =>
      obtain ⟨key, rest, rfl⟩ := List.exists_cons_of_length_pos ha
      exact answers_bind _ fun v => .done (reply_whole (c := .integer _) trivial)
    | exists_ | dbsize =>
      exact answers_bind _ fun n => .done (reply_whole (c := .integer n) trivial)
    | ttl | pttl => exact answers_ttlIn _ ha
    | info =>
      exact answers_bind _ fun _ => answers_bind _ fun _ => answers_bind _ fun _ =>
        answers_bind _ fun _ => .done (reply_whole (c := .bulkString _) trivial)
    | config => exact answers_configGet settings (Nat.one_le_of_lt ha)
    | bgrewriteaof => exact answers_bgrewriteaof settings around hb

end Handlers

section Sending

def Granted : (a : ConnAct) → a.Resp → Prop
  | .write _, r => r = true
  | .beginRewrite, r => ∀ err ∈ r, OneLine err
  | _, _ => True

structure Stream where
  sent : Bytes
  flushed : Bool

def Stream.next (h : Stream) : (a : ConnAct) → a.Resp → Stream
  | .write p, _ => ⟨h.sent ++ p, false⟩
  | .flush, _ => ⟨h.sent, true⟩
  | _, _ => h

abbrev Sends {α : Type} (D : Stream → α → Prop) (h : Stream) (p : Session α) : Prop :=
  Follows (S := connSig) Granted (fun _ _ => True) Stream.next D h p

variable {α β : Type} {h : Stream}

lemma sends_act {a : ConnAct} {f : a.Resp → Session α} {D : Stream → α → Prop}
    (hf : ∀ r, Granted a r → Sends D (h.next a r) (f r)) :
    Sends D h (perform a >>= f) := Follows.act trivial hf

lemma sends_onStore {p : Prog α} {D : α → Prop}
    (hp : Obeys (S := sig) (fun _ => True) (fun _ _ => True) D p) :
    Sends (fun h' b => h' = h ∧ D b) h (onStore p) :=
  Follows.embed_of_obeys (fun _ _ _ => trivial) (fun _ _ => trivial) (fun _ _ _ => rfl) hp

def Stream.Wrote (h h' : Stream) (v : Bytes) : Prop := h'.sent = h.sent ++ v

lemma sends_writeChunks (ps : List Bytes) :
    ∀ h : Stream, Sends (fun h' b => h.Wrote h' ps.flatten ∧ b = true) h (writeChunks ps) := by
  induction ps with
  | nil => exact fun h => .done ⟨(List.append_nil _).symm, rfl⟩
  | cons p ps ih =>
    intro h
    refine sends_act fun r hr => ?_
    obtain rfl : r = true := hr
    refine (ih _).imp fun h' b hb => ⟨?_, hb.2⟩
    rw [Stream.Wrote, hb.1, List.flatten_cons, ← List.append_assoc]
    rfl

lemma sends_writeCalls (cs : List WriteCall) (hc : ∀ c ∈ cs, c.panics = false) :
    ∀ h : Stream, Sends (fun h' b => h.Wrote h' (cs.flatMap WriteCall.bytes) ∧ b = .sent) h
      (writeCalls cs) := by
  induction cs with
  | nil => exact fun h => .done ⟨(List.append_nil _).symm, rfl⟩
  | cons c cs ih =>
    intro h
    simp only [writeCalls, hc c List.mem_cons_self, Bool.false_eq_true, if_false]
    refine (sends_writeChunks c.chunks h).bind fun h₁ b hb => ?_
    obtain ⟨hw, rfl⟩ := hb
    refine (ih (fun c' hc' => hc c' (List.mem_cons_of_mem _ hc')) h₁).imp fun h' b hb => ⟨?_, hb.2⟩
    rw [Stream.Wrote, hb.1, hw, List.flatMap_cons, List.append_assoc]
    rfl

lemma sends_respond {b : Response} (hb : Reply b) (h : Stream) :
    Sends (fun h' r => h.Wrote h' (b.flatMap WriteCall.bytes) ∧ r = .sent) h (respond b) := by
  rw [respond, if_neg hb.nonempty]
  exact sends_writeCalls b hb.calm h

def Settings.Replies (settings : Settings) (args : List Bytes) (v : Bytes) : Prop :=
  ∃ around fuel b, Yields (dispatch settings around fuel args) (some b) ∧ Reply b ∧
    v = b.flatMap WriteCall.bytes

variable {settings : Settings} {args : List Bytes}

def Settings.Served (settings : Settings) (args : List Bytes) (h h' : Stream) (r : Dispatched) :
    Prop :=
  r = .stuck ∨ r = .replied ∧ ∃ v, IsValue v ∧ settings.Replies args v ∧ h.Wrote h' v

lemma Command.minArgs_le {cmd : Command} {args : List Bytes} (h : cmd.arityOk args = true) :
    cmd.minArgs ≤ args.length := by
  simp only [Command.arityOk, Bool.and_eq_true, decide_eq_true_eq] at h
  exact h.1

lemma arrive_replied {settings : Settings} {around : Surroundings} {fuel : ℕ} {args : List Bytes}
    (hargs : args ≠ []) {b : Response} (h : arrive settings around fuel args = .replied b) :
    Reply b := by
  cases arrive_cases h with
  | empty => exact absurd rfl hargs
  | unknown =>
    refine reply_error ⟨_, ?_, rfl⟩
    exact ((by decide : OneLine (ascii "ERR unknown command '")).append (oneLine_safeName _)).append
      (by decide)
  | arity => exact reply_error (wrongArity_eq _ _)
  | misconf => exact reply_error ⟨_, by decide, rfl⟩

lemma sends_dispatchTo (settings : Settings) (fuel : ℕ) {args : List Bytes}
    (hargs : args ≠ []) (h : Stream) :
    Sends (settings.Served args h) h (dispatchTo settings fuel args) := by
  have haof : Sends (fun h' _ => h' = h) h (askErr settings args) := by
    unfold askErr
    split_ifs
    · exact Follows.act trivial fun _ _ => .done rfl
    · exact .done rfl
  have hbegin : Sends (fun h' r => h' = h ∧ ∀ err ∈ r, OneLine err) h (askBegin settings args) := by
    unfold askBegin
    split_ifs
    · exact Follows.act trivial fun _ hr => .done ⟨rfl, hr⟩
    · exact .done ⟨rfl, fun _ he => absurd he (Option.not_mem_none _)⟩
  refine sends_act fun counters _ => haof.bind fun h₁ aofErr h₁' => ?_
  subst h₁'
  refine hbegin.bind fun h₂ beginErr h₂' => ?_
  obtain ⟨rfl, hb⟩ := h₂'
  -- what is written is what `dispatch` comes to with the same answers
  have hrest := arrive_rest settings ⟨aofErr, beginErr, counters.1, counters.2⟩ fuel args
  have hdone {b : Response} (hr : Reply b)
  (hy : Yields (dispatch settings ⟨aofErr, beginErr, counters.1, counters.2⟩ fuel args) (some b)) :
      Sends (settings.Served args h₂) h₂ (Dispatched.ofSent <$> respond b) := by
    refine Follows.map _ ((sends_respond hr h₂).imp fun h' r hw => .inr ?_)
    obtain ⟨hw, rfl⟩ := hw
    exact ⟨rfl, _, hr.value, ⟨_, _, _, hy, hr, rfl⟩, hw⟩
  cases ha : arrive settings ⟨aofErr, beginErr, counters.1, counters.2⟩ fuel args with
  | replied b =>
    rw [ha] at hrest
    exact hdone (arrive_replied hargs ha) (hrest ▸ .done _)
  | handler p =>
    rw [ha] at hrest
    cases arrive_cases ha with
    | handler hc har =>
      refine (sends_onStore (command_answers settings _ hc (Command.minArgs_le har) hb).yields).bind
        fun h' b hb => ?_
      obtain ⟨rfl, hr, hy⟩ := hb
      exact hdone hr (hrest ▸ hy.map some)
  | preflight fn p =>
    rw [ha] at hrest
    cases arrive_cases ha with
    | @preflight first args cmd hc har =>
      have hfn := command_answers settings ⟨aofErr, beginErr, counters.1, counters.2⟩ hc
        (Command.minArgs_le har) hb
      refine (sends_onStore (Obeys.any (enforceMemoryLimit fuel)).yields).bind fun h' r hr => ?_
      obtain ⟨rfl, -, hr⟩ := hr
      match r, hr with
      | .running _, _ => exact .done (.inl rfl)
      | .finished _ false, hr =>
        exact hdone (reply_error ⟨_, by decide, rfl⟩) (hrest ▸ hr.bind (.done _))
      | .finished _ true, hr =>
        refine (sends_onStore hfn.yields).bind fun h' b hb => ?_
        obtain ⟨rfl, hreply, hy⟩ := hb
        refine (sends_respond hreply h').bind fun h'' r hw => ?_
        obtain ⟨hw, rfl⟩ := hw
        have hyields :
            Yields
                (dispatch settings ⟨aofErr, beginErr, counters.1, counters.2⟩ fuel (first :: args))
                    (some b) :=
          hrest ▸ hr.bind (hy.map some)
        have hend : Sends (settings.Served (first :: args) h') h'' (pure .replied) :=
          .done (.inr ⟨rfl, _, hreply.value, ⟨_, _, _, hyields, hreply, rfl⟩, hw⟩)
        refine sends_act fun _ _ => ?_
        simp only [syncAfter]
        split_ifs
        · exact sends_act fun _ _ => hend
        · exact hend

/-- The commands a stream holds before it ends or goes wrong, the empty ones left out. -/
inductive Splits : Bytes → List (List Bytes) → ReadError → Prop
  | stop {src : Bytes} {e : ReadError} (h : readCommand src = .error e) : Splits src [] e
  | skip {src rest : Bytes} {cmds : List (List Bytes)} {e : ReadError}
      (h : readCommand src = .ok ([], rest)) (hrest : Splits rest cmds e) : Splits src cmds e
  | next {src rest : Bytes} {args : List Bytes} {cmds : List (List Bytes)} {e : ReadError}
      (hargs : args ≠ []) (h : readCommand src = .ok (args, rest)) (hrest : Splits rest cmds e) :
        Splits src (args :: cmds) e

/-- One reply for each command, and one line at the end of a stream that has gone wrong. -/
def Settings.Answered (settings : Settings) (src out : Bytes) : Prop :=
  ∃ cmds e replies, Splits src cmds e ∧
    List.Forall₂ (fun args v => IsValue v ∧ settings.Replies args v) cmds replies ∧
    out = replies.flatten ++ (farewell e).flatMap WriteCall.bytes

lemma Settings.Answered.next {src rest v out : Bytes} {args : List Bytes} (hargs : args ≠ [])
    (hr : readCommand src = .ok (args, rest)) (hv : IsValue v ∧ settings.Replies args v)
    (h : settings.Answered rest out) : settings.Answered src (v ++ out) := by
  obtain ⟨cmds, e, replies, hs, hf, rfl⟩ := h
  exact ⟨args :: cmds, e, v :: replies, .next hargs hr hs, .cons hv hf, by
    rw [List.flatten_cons, List.append_assoc]⟩

lemma Settings.Answered.skip {src rest out : Bytes} (hr : readCommand src = .ok ([], rest))
    (h : settings.Answered rest out) : settings.Answered src out := by
  obtain ⟨cmds, e, replies, hs, hf, rfl⟩ := h
  exact ⟨cmds, e, replies, .skip hr hs, hf, rfl⟩

lemma calm_farewell {e : ReadError} (h : e.Tellable) : ∀ c ∈ farewell e, c.panics = false := by
  cases e with
  | protocol msg =>
    intro c hc
    obtain rfl := List.mem_singleton.1 hc
    exact WriteCall.panics_eq_false.2 ((by decide : OneLine (ascii "ERR ")).append
      ((by decide : OneLine (ascii "Protocol error: ")).append h))
  | _ => exact fun c hc => absurd hc List.not_mem_nil

lemma sends_serveFrom (settings : Settings) (fuel n : ℕ) :
    ∀ (src : Bytes) (h : Stream), src.length < n →
    Sends (fun h' r => r = true → h'.flushed = true ∧ ∃ out, settings.Answered src out ∧
      h.Wrote h' out) h (serveFrom settings fuel n src) := by
  induction n with
  | zero => exact fun src h hn => absurd hn (Nat.not_lt_zero _)
  | succ n ih =>
    intro src h hn
    refine sends_act fun _ _ => ?_
    cases hr : readCommand src with
    | error e =>
      refine (sends_writeCalls _ (calm_farewell (readCommand_tellable hr)) h).bind fun h₁ _ hw =>
        sends_act fun _ _ => .done ?_
      exact fun _ => ⟨rfl, _, ⟨[], e, [], .stop hr, .nil, rfl⟩, hw.1⟩
    | ok cmd =>
      obtain ⟨args, rest⟩ := cmd
      have hrest : rest.length < n := by
        have := readCommand_shorter hr
        omega
      cases args with
      | nil =>
        refine (ih rest h hrest).imp fun h' r hd ht => ?_
        obtain ⟨hf, out, ha, hw⟩ := hd ht
        exact ⟨hf, out, ha.skip hr, hw⟩
      | cons first args =>
        refine (sends_dispatchTo settings fuel (List.cons_ne_nil first args) h).bind fun h₁ r hs =>
          ?_
        rcases hs with rfl | ⟨rfl, v, hv, hreply, hw⟩
        · exact .done fun hf => absurd hf Bool.false_ne_true
        · refine (ih rest h₁ hrest).imp fun h' r hd ht => ?_
          obtain ⟨hf, out, ha, hw'⟩ := hd ht
          refine ⟨hf, _, ha.next (List.cons_ne_nil _ _) hr ⟨hv, hreply⟩, ?_⟩
          rw [Stream.Wrote, hw', hw, List.append_assoc]

end Sending

section Run

variable {ι : Type} [DecidableEq ι] {site : Site ι} {t : ι}

lemma oneLine_faultText {path cause : Bytes} (hpath : OneLine path)
    (hcause : OneLine cause) (f : Fault) : OneLine (faultText path cause f) := by
  cases f with
  | write =>
    exact (((by decide : OneLine (ascii "write ")).append hpath).append (by decide)).append hcause
  | sync =>
    exact (((by decide : OneLine (ascii "sync ")).append hpath).append (by decide)).append hcause
  | reopen =>
    exact (((by decide : OneLine (ascii "reopen rewritten AOF: open ")).append hpath).append
      (by decide)).append hcause

lemma oneLine_beginText {path cause : Bytes} (hpath : OneLine path) (hcause : OneLine cause)
    (e : BeginError) : OneLine (beginText path cause e) := by
  cases e with
  | latched fault => exact oneLine_faultText hpath hcause fault
  | alreadyInProgress => exact (by decide : OneLine (ascii "AOF rewrite already in progress"))

structure Conn.Carries (c : Conn) (h : Stream) : Prop where
  sent : c.sent = h.sent
  follows : c.out.Follows c.sent
  intact : c.out.failed = false
  flushed : h.flushed = true → c.out.buf = []

omit [DecidableEq ι] in
lemma Conn.Carries.writes {c c' : Conn} {h : Stream} {a : ConnAct} {r : a.Resp} (hc : c.Carries h)
    (hconn : ∀ n, site.connFaults t n = none) (hw : c.Writes site t c' a r) :
    c'.Carries (h.next a r) := by
  have hflush {c' : Conn} {h' : Stream} (hs : h'.sent = h.sent)
      (hw : c'.out = c.out.flush (site.connFaults t) ∧ c'.sent = c.sent) :
      c'.Carries h' := by
    refine ⟨(hw.2.trans hc.sent).trans hs.symm, ?_, ?_, fun _ => ?_⟩
    · rw [hw.1, hw.2]
      exact BufferedWriter.flush_follows _ hc.follows
    · rw [hw.1]
      exact BufferedWriter.flush_failed _ hconn hc.intact
    · rw [hw.1]
      exact BufferedWriter.flush_buf _ (BufferedWriter.flush_failed _ hconn hc.intact)
  have hsame {c' : Conn} (hw : c'.out = c.out ∧ c'.sent = c.sent) : c'.Carries h := by
    refine ⟨hw.2.trans hc.sent, ?_, ?_, fun hf => ?_⟩
    · rw [hw.1, hw.2]
      exact hc.follows
    · rw [hw.1]
      exact hc.intact
    · rw [hw.1]
      exact hc.flushed hf
  cases a with
  | write p =>
    obtain ⟨ho, hs, -⟩ := hw
    refine ⟨?_, ?_, ?_, fun hf => absurd hf Bool.false_ne_true⟩
    · rw [hs, hc.sent]
      rfl
    · rw [ho, hs]
      exact BufferedWriter.write_follows _ _ p hc.follows
    · rw [ho]
      exact BufferedWriter.write_failed _ _ hconn hc.intact p
  | flush => exact hflush rfl hw
  | read =>
    obtain ⟨ho | ho, hs⟩ := hw
    · exact hsame ⟨ho, hs⟩
    · exact hflush rfl ⟨ho, hs⟩
  | _ => exact hsame hw

lemma act_granted {a : ConnAct} {i : Stimulus} {r : a.Resp} {w w' : Process ι}
    (hpath : OneLine site.path) (hc : (w'.conns t).out.failed = false)
    (ha : Process.act site t a i w = some (r, w')) : Granted a r := by
  cases a with
  | write p =>
    have hr := (Process.act_writes ha).2.2
    rw [hc] at hr
    exact hr
  | beginRewrite =>
    obtain ⟨rfl, -⟩ := Prod.mk.inj (Option.some.inj ha)
    intro err he
    obtain ⟨e, -, rfl⟩ := Option.mem_map.1 he
    exact oneLine_beginText hpath i.cause.2 e
  | _ => trivial

lemma dispatch_returns (settings : Settings) (around : Surroundings) (args : List Bytes) {s : Store}
    (hs : WellFormed s) (inputs : ℕ → Input) {fuel : ℕ} (hf : s.bytes < fuel) :
    (exec (dispatch settings around fuel args) inputs s).1 ≠ none := by
  rw [← arrive_rest]
  have hsome {p : Prog Response} {inputs : ℕ → Input} {s : Store} :
      (exec (some <$> p) inputs s).1 ≠ none := by
    rw [exec_map]
    exact Option.some_ne_none _
  generalize ha : arrive settings around fuel args = phase
  cases arrive_cases ha with
  | empty | unknown | arity | misconf => exact Option.some_ne_none _
  | preflight =>
    simp only [DispatchState.rest]
    rw [exec_bind]
    obtain ⟨n, ok, he⟩ := enforceMemoryLimit_ends hs hf inputs
    simp only [he]
    cases ok with
    | false => exact Option.some_ne_none _
    | true => exact hsome
  | handler => exact hsome

/-- Whatever the other goroutines do meanwhile, a connection that has come to its end has been
written one value for each command, in order, and one line more if the stream has gone wrong. -/
theorem one_reply_per_command (settings : Settings) (policy : Policy) (records : List Record)
    (s : Store) (fuel : ℕ) (roles : ι → Role) {src : Bytes} (hrole : roles t = .client src)
    (hpath : OneLine site.path) (hconn : ∀ n, site.connFaults t n = none)
    (inputs : ι → ℕ → Stimulus) (schedule : List ι) :
    (∀ c, c = (started settings policy records s fuel roles).after (Process.act site) inputs
      schedule → c.result t = some true → settings.Answered src (c.world.conns t).out.file) ∧
    ∀ around args s inputs, WellFormed s → ∃ enough, ∀ fuel, enough ≤ fuel →
      (exec (dispatch settings around fuel args) inputs s).1 ≠ none := by
  constructor
  · rintro c rfl hdone
    have hstart :
      Sends (fun h' r => r = true → h'.flushed = true ∧ ∃ out, settings.Answered src out ∧
        Stream.Wrote ⟨[], false⟩ h' out) ⟨[], false⟩
            ((started settings policy records s fuel roles).prog t) := by
      rw [show (started settings policy records s fuel roles).prog t =
        (roles t).program settings fuel from rfl, hrole]
      exact sends_serveFrom settings fuel _ src _ (Nat.lt_succ_self _)
    obtain ⟨h, hp, hc⟩ : ∃ h, Follows _ _ _ _ h
        (((started settings policy records s fuel roles).after (Process.act site) inputs
            schedule).prog t) ∧ _ :=
      Config.after_follows (J := fun h w => (w.conns t).Carries h) (t := t)
      (fun n h a r w w' hw _ ha => by
        have hc := hw.writes hconn (Process.act_writes ha)
        exact ⟨act_granted hpath hc.intact ha, hc⟩)
      (fun u n h a r w w' hu hw ha => by rwa [Process.act_conns_of_ne ha (Ne.symm hu)])
      schedule _ hstart
        ⟨rfl, BufferedWriter.fresh_follows _ _, rfl, fun hf => absurd hf Bool.false_ne_true⟩
    have hprog := Config.result_eq_some.1 hdone
    rw [hprog] at hp
    obtain ⟨hf, out, hout, hw⟩ := hp.result rfl
    have hfile := hc.follows.complete hc.intact
    rw [hc.flushed hf, List.append_nil, hc.sent, hw, List.nil_append] at hfile
    rw [hfile]
    exact hout
  · intro around args s inputs hs
    refine ⟨(s.bytes + 1).toNat, fun fuel hf => dispatch_returns settings around args hs inputs ?_⟩
    have := bytes_nonneg hs
    omega

def calmly (time : ℤ) : Stimulus :=
  ⟨⟨time, .stored⟩, false, (1, 0), ⟨[], by decide⟩, true, true, fun _ => none,
    ⟨true, true, true, true, true⟩⟩

def calmSite (ι : Type) : Site ι := ⟨ascii "appendonly.aof", fun _ => none, fun _ _ => none⟩

theorem one_reply_then_farewell :
    let settings : Settings := ⟨.asciiOnly, false, ⟨false, [], [], []⟩⟩
    let src := ascii "*0\r\n*1\r\n$4\r\nPING\r\nX\r\n"
    let c := (started settings .always [] Store.new 0 fun _ : Unit => .client src).after
      (Process.act (calmSite Unit)) (fun _ _ => calmly 0) (List.replicate 20 ())
    c.result () = some true ∧
    (c.world.conns ()).out.file = ascii "+PONG\r\n-ERR Protocol error: expected '*', got 'X'\r\n" ∧
      settings.Answered src (c.world.conns ()).out.file := by
  have hdone : ((started ⟨.asciiOnly, false, ⟨false, [], [], []⟩⟩ .always [] Store.new 0
      fun _ : Unit => .client (ascii "*0\r\n*1\r\n$4\r\nPING\r\nX\r\n")).after
        (Process.act (calmSite Unit))
      (fun _ _ => calmly 0) (List.replicate 20 ())).result () = some true := by decide +kernel
  exact ⟨hdone, by
    decide +kernel,
      (one_reply_per_command (t := ()) ⟨.asciiOnly, false, ⟨false, [], [], []⟩⟩ .always []
    Store.new 0 (fun _ => .client (ascii "*0\r\n*1\r\n$4\r\nPING\r\nX\r\n")) rfl
    (by decide : OneLine (calmSite Unit).path) (fun _ => rfl) _ _).1 _ rfl hdone⟩

end Run

end RedisClone.Server
