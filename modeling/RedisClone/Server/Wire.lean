import RedisClone.Resp.Stream
import RedisClone.Server.Replies

/-! The connections with their reads: what the client sends comes in pieces, and before each read
the replies that are still buffered are flushed. -/

namespace RedisClone.Server

open Store Resp Aof Lib Lib.Program

/-- A step as before, or one of `flushBeforeRead.Read`: the flush, which says whether it has
succeeded, and the `Read` of the connection. -/
inductive WireAct
  | conn (a : ConnAct)
  | flush
  | recv (room : ℕ)

@[reducible] def WireAct.Resp : WireAct → Type
  | .conn a => a.Resp
  | .flush => Bool
  | .recv _ => Bytes

@[reducible] def wireSig : Signature := ⟨WireAct, WireAct.Resp⟩

abbrev Wire (α : Type) := Program wireSig α

def onConn {α : Type} (p : Session α) : Wire α := p.embed .conn fun _ r => r

def flushBeforeRead (room : ℕ) : Wire (Option Bytes) := do
  if ← Program.call (S := wireSig) .flush then
    let r ← Program.call (S := wireSig) (.recv room)
    return some r
  else return none

def hangUp (reply : Response) : Session Bool := do
  let _ ← writeCalls reply
  perform .flush
  return true

/-- `HandleConn`, with what the reader holds in its buffer. A read that has failed is only
logged. -/
def serveWire (settings : Settings) (fuel : ℕ) : ℕ → Bytes → Wire Bool
  | 0, _ => return false
  | n + 1, buf => do
    match ← (Reader.readCommand buf).through flushBeforeRead with
    | none => onConn (hangUp [])
    | some (.error e) => onConn (hangUp (farewell e))
    | some (.ok ([], rest)) => serveWire settings fuel n rest
    | some (.ok (args, rest)) => do
      match ← onConn (dispatchTo settings fuel args) with
      | .replied => serveWire settings fuel n rest
      | .broken => onConn (hangUp [])
      | .stuck => return false

def Role.wire (settings : Settings) (fuel rounds : ℕ) : Role → Wire Bool
  | .client _ => serveWire settings fuel rounds []
  | role => onConn (role.program settings fuel)

structure Wired (ι : Type) where
  process : Process ι
  pending : ι → Bytes
  received : ι → Bytes
  taken : ι → ℕ
  reads : ι → ℕ
  order : List ι

structure Network (ι : Type) where
  env : ι → ℕ → Stimulus
  pieces : ι → ℕ → ℕ

def piece (room size : ℕ) (pending : Bytes) : Bytes := pending.take (min room (size + 1))

namespace Wired

variable {ι : Type} [DecidableEq ι]

def act (site : Site ι) (net : Network ι) : Semantics wireSig ι Unit (Wired ι) := fun t a _ w =>
  match a with
  | .conn a =>
    (Process.act site t a (net.env t (w.taken t)) w.process).map fun done =>
      (done.1, { w with
        process := done.2
        taken := Function.update w.taken t (w.taken t + 1)
        order := w.order ++ [t] })
  | .flush =>
    some (!((w.process.flush site t).conns t).out.failed,
      { w with process := w.process.flush site t })
  | .recv room =>
    let r := piece room (net.pieces t (w.reads t)) (w.pending t)
    some (r, { w with
      pending := Function.update w.pending t ((w.pending t).drop r.length)
      received := Function.update w.received t (w.received t ++ r)
      reads := Function.update w.reads t (w.reads t + 1) })

end Wired

def Role.stream : Role → Bytes
  | .client src => src
  | _ => []

def wired {ι : Type} (settings : Settings) (policy : Policy) (records : List Record) (s : Store)
    (fuel rounds : ℕ) (roles : ι → Role) : Lib.Config wireSig ι Bool (Wired ι) :=
  .start ⟨⟨⟨s, .free ι⟩, .opened policy records, fun _ => .fresh, 0⟩, fun t => (roles t).stream,
    fun _ => [], fun _ => 0, fun _ => 0, []⟩ fun t => (roles t).wire settings fuel rounds

section Prefixes

inductive Begins (src : Bytes) : List (List Bytes) → Bytes → Prop
  | start : Begins src [] src
  | skip {cmds : List (List Bytes)} {rest rest' : Bytes} (h : Begins src cmds rest)
      (hr : readCommand rest = .ok ([], rest')) : Begins src cmds rest'
  | next {cmds : List (List Bytes)} {rest rest' : Bytes} {args : List Bytes}
      (h : Begins src cmds rest) (hargs : args ≠ []) (hr : readCommand rest = .ok (args, rest')) :
        Begins src (cmds ++ [args]) rest'

variable {src rest : Bytes} {cmds : List (List Bytes)}

lemma readCommand_ok_append {args : List Bytes} {rest' : Bytes}
    (h : readCommand rest = .ok (args, rest')) (x : Bytes) :
    readCommand (rest ++ x) = .ok (args, rest' ++ x) := by
  rw [readCommand_more (by rw [h]; exact id), h]
  rfl

lemma Begins.append (h : Begins src cmds rest) (x : Bytes) :
    Begins (src ++ x) cmds (rest ++ x) := by
  induction h with
  | start => exact .start
  | skip _ hr ih => exact ih.skip (readCommand_ok_append hr x)
  | next _ hargs hr ih => exact ih.next hargs (readCommand_ok_append hr x)

lemma Begins.splits (h : Begins src cmds rest) :
    ∀ {cmds' : List (List Bytes)} {e : ReadError}, Splits rest cmds' e →
    Splits src (cmds ++ cmds') e := by
  induction h with
  | start => exact fun hs => hs
  | skip _ hr ih => exact fun hs => ih (.skip hr hs)
  | next _ hargs hr ih =>
    intro cmds' e hs
    rw [List.append_assoc]
    exact ih (.next hargs hr hs)

end Prefixes

/-- The bytes received split into whole commands and the beginning of another, and the bytes written
are the replies to those commands. -/
def Settings.CaughtUp (settings : Settings) (received out : Bytes) : Prop :=
  ∃ cmds e replies, Splits received cmds e ∧ (e = .eof ∨ e = .unexpectedEOF) ∧
    List.Forall₂ (fun args v => IsValue v ∧ settings.Replies args v) cmds replies ∧
      out = replies.flatten

def Settings.Abreast (settings : Settings) (got buf sent : Bytes) : Prop :=
  ∃ cmds replies, Begins got cmds buf ∧
    List.Forall₂ (fun args v => IsValue v ∧ settings.Replies args v) cmds replies ∧
    sent = replies.flatten

section Abreast

variable {settings : Settings} {got buf sent : Bytes}

lemma Settings.Abreast.append (h : settings.Abreast got buf sent) (x : Bytes) :
    settings.Abreast (got ++ x) (buf ++ x) sent := by
  obtain ⟨cmds, replies, hb, hr, rfl⟩ := h
  exact ⟨cmds, replies, hb.append x, hr, rfl⟩

lemma Settings.Abreast.caughtUp (h : settings.Abreast got buf sent)
    (ht : Truncated (readCommand buf)) : settings.CaughtUp got sent := by
  obtain ⟨cmds, replies, hb, hr, rfl⟩ := h
  cases hc : readCommand buf with
  | ok p =>
    rw [hc] at ht
    exact absurd ht id
  | error e =>
    have hs := hb.splits (.stop hc)
    rw [List.append_nil] at hs
    refine ⟨cmds, e, replies, hs, ?_, hr, rfl⟩
    rw [hc] at ht
    cases e with
    | eof => exact .inl rfl
    | unexpectedEOF => exact .inr rfl
    | protocol msg => exact absurd ht id

lemma Settings.Abreast.skip (h : settings.Abreast got buf sent) {rest : Bytes}
    (hr : readCommand buf = .ok ([], rest)) : settings.Abreast got rest sent := by
  obtain ⟨cmds, replies, hb, hf, rfl⟩ := h
  exact ⟨cmds, replies, hb.skip hr, hf, rfl⟩

lemma Settings.Abreast.next (h : settings.Abreast got buf sent) {args : List Bytes} {rest v : Bytes}
    (hargs : args ≠ []) (hr : readCommand buf = .ok (args, rest))
    (hv : IsValue v ∧ settings.Replies args v) : settings.Abreast got rest (sent ++ v) := by
  obtain ⟨cmds, replies, hb, hf, rfl⟩ := h
  refine ⟨cmds ++ [args], replies ++ [v], hb.next hargs hr, List.rel_append hf (.cons hv .nil), ?_⟩
  rw [List.flatten_append, List.flatten_singleton]

lemma Settings.Abreast.answered (h : settings.Abreast got buf sent) {e : ReadError}
    (he : readCommand buf = .error e) :
    settings.Answered got (sent ++ (farewell e).flatMap WriteCall.bytes) := by
  obtain ⟨cmds, replies, hb, hf, rfl⟩ := h
  have hs := hb.splits (.stop he)
  rw [List.append_nil] at hs
  exact ⟨cmds, e, replies, hs, hf, rfl⟩

end Abreast

structure Traffic where
  stream : Stream
  got : Bytes

def Traffic.next (h : Traffic) : (a : WireAct) → a.Resp → Traffic
  | .conn a, r => { h with stream := h.stream.next a r }
  | .flush, _ => { h with stream := ⟨h.stream.sent, true⟩ }
  | .recv _, r => { h with got := h.got ++ r }

def Settings.Reads (settings : Settings) (h : Traffic) : WireAct → Prop
  | .recv _ => h.stream.flushed = true ∧ settings.CaughtUp h.got h.stream.sent
  | _ => True

def WireGranted : (a : WireAct) → a.Resp → Prop
  | .conn a, r => Granted a r
  | .flush, r => r = true
  | .recv _, _ => True

abbrev Settings.Talks (settings : Settings) {α : Type} (D : Traffic → α → Prop) (h : Traffic)
    (p : Wire α) : Prop :=
  Follows (S := wireSig) WireGranted settings.Reads Traffic.next D h p

section Sessions

variable {settings : Settings} {α β : Type} {h : Traffic}

lemma talks_onConn {D : Stream → α → Prop} {p : Session α} (hp : Sends D h.stream p) :
    settings.Talks (fun g b => D g.stream b ∧ g.got = h.got) h (onConn p) := by
  have hlift : Follows (S := connSig) Granted (fun _ _ => True)
    (fun (g : Traffic) a r => { g with stream := g.stream.next a r })
      (fun g b => D g.stream b ∧ g.got = h.got) h p := by
    refine hp.transport (R := fun s g => g.stream = s ∧ g.got = h.got) (fun _ _ _ _ _ => trivial)
      ?_ ?_ ⟨rfl, rfl⟩
    · rintro s g a r ⟨rfl, hg⟩ -
      exact ⟨rfl, hg⟩
    · rintro s g b ⟨rfl, hg⟩ hb
      exact ⟨hb, hg⟩
  unfold onConn
  refine Follows.embed ?_ ?_ ?_ hlift
  · exact fun _ _ hr => hr
  · exact fun _ _ _ => trivial
  · exact fun _ _ _ => rfl

def Traffic.Feeds (h : Traffic) (buf : Bytes) (feed : BufferedReader.Feed UInt8) (g : Traffic) :
    Prop :=
  ∃ x, feed.src = buf ++ x ∧ g.got = h.got ++ x ∧ g.stream.sent = h.stream.sent

lemma talks_readCommand {buf : Bytes} (habreast : settings.Abreast h.got buf h.stream.sent) :
    settings.Talks (fun g r => ∃ x, r = some (readCommand (buf ++ x)) ∧ g.got = h.got ++ x ∧
      g.stream.sent = h.stream.sent) h ((Reader.readCommand buf).through flushBeforeRead) := by
  have hread (feed : BufferedReader.Feed UInt8) (g : Traffic) (room : ℕ) (hR : h.Feeds buf feed g)
      (hok : feed.ended = false ∧ Truncated (readCommand feed.src) ∧ 0 < room) :
      settings.Talks (fun g r => ∃ b, r = some b ∧ True ∧ h.Feeds buf (feed.next room b) g) g
          (flushBeforeRead room) := by
    obtain ⟨x, hx, hgot, hsent⟩ := hR
    refine Follows.act (S := wireSig) (a := .flush) trivial fun r hr => ?_
    obtain rfl : r = true := hr
    have hup : settings.CaughtUp g.got g.stream.sent := by
      rw [hgot, hsent]
      exact (habreast.append x).caughtUp (hx ▸ hok.2.1)
    refine Follows.act (S := wireSig) (a := .recv room) ⟨rfl, hup⟩ fun r _ =>
      .done ⟨r, rfl, trivial, x ++ r, ?_, ?_, hsent⟩
    · rw [BufferedReader.Feed.next, hx, List.append_assoc]
    · rw [← List.append_assoc, ← hgot]
      rfl
  have hstart : h.Feeds buf ⟨buf, false⟩ h :=
    ⟨[], (List.append_nil _).symm, (List.append_nil _).symm, rfl⟩
  refine (Follows.through hread (parses_readCommand buf) hstart).imp fun g r hr => ?_
  obtain ⟨b, feed, rfl, ⟨rfl, -⟩, x, hx, hgot, hsent⟩ := hr
  exact ⟨x, by rw [hx], hgot, hsent⟩

def Settings.Settled (settings : Settings) (g : Traffic) (ended : Bool) : Prop :=
  ended = true → g.stream.flushed = true ∧ settings.Answered g.got g.stream.sent

lemma talks_hangUp {reply : Response} (hcalm : ∀ c ∈ reply, c.panics = false)
    (hout : settings.Answered h.got (h.stream.sent ++ reply.flatMap WriteCall.bytes)) :
    settings.Talks settings.Settled h (onConn (hangUp reply)) := by
  have hsends :
      Sends (fun g _ => g.flushed = true ∧ h.stream.Wrote g (reply.flatMap WriteCall.bytes))
          h.stream (hangUp reply) :=
    (sends_writeCalls reply hcalm h.stream).bind fun g _ hw => sends_act fun _ _ =>
      .done ⟨rfl, hw.1⟩
  refine (talks_onConn hsends).imp fun g r hr _ => ⟨hr.1.1, ?_⟩
  rw [hr.2, hr.1.2]
  exact hout

lemma talks_serveWire (fuel n : ℕ) :
    ∀ {buf : Bytes} {h : Traffic}, settings.Abreast h.got buf h.stream.sent →
    settings.Talks settings.Settled h (serveWire settings fuel n buf) := by
  induction n with
  | zero => exact fun _ => .done fun hf => absurd hf Bool.false_ne_true
  | succ n ih =>
    intro buf h habreast
    refine (talks_readCommand habreast).bind fun g r hr => ?_
    obtain ⟨x, rfl, hgot, hsent⟩ := hr
    have hup := habreast.append x
    rw [← hgot, ← hsent] at hup
    cases hc : readCommand (buf ++ x) with
    | error e => exact talks_hangUp (calm_farewell (readCommand_tellable hc)) (hup.answered hc)
    | ok cmd =>
      obtain ⟨args, rest⟩ := cmd
      cases args with
      | nil => exact ih (hup.skip hc)
      | cons first args =>
        refine (talks_onConn
          (sends_dispatchTo settings fuel (List.cons_ne_nil first args) g.stream)).bind
            fun g' r hr => ?_
        obtain ⟨rfl | ⟨rfl, v, hv, hreply, hw⟩, hgot'⟩ := hr
        · exact .done fun hf => absurd hf Bool.false_ne_true
        · refine ih ?_
          rw [hgot', hw]
          exact hup.next (List.cons_ne_nil _ _) hc ⟨hv, hreply⟩

end Sessions

section Run

variable {ι : Type} [DecidableEq ι] {site : Site ι} {net : Network ι} {t : ι} {w w' : Wired ι}

structure Wired.Carries (w : Wired ι) (t : ι) (h : Traffic) : Prop where
  out : (w.process.conns t).Carries h.stream
  got : w.received t = h.got

lemma Process.flush_writes (w : Process ι) :
    (w.conns t).Writes site t ((w.flush site t).conns t) .flush () := by
  rw [Process.flush, Process.setConn_self]
  exact ⟨rfl, rfl⟩

lemma Wired.act_own {a : WireAct} {i : Unit} {r : a.Resp} {h : Traffic} (hpath : OneLine site.path)
    (hconn : ∀ n, site.connFaults t n = none) (hw : w.Carries t h)
    (ha : Wired.act site net t a i w = some (r, w')) :
    WireGranted a r ∧ w'.Carries t (h.next a r) := by
  cases a with
  | conn a =>
    obtain ⟨done, hdone, he⟩ := Option.map_eq_some_iff.1 ha
    obtain ⟨rfl, rfl⟩ := Prod.mk.inj he
    have hc := hw.out.writes hconn (Process.act_writes hdone)
    exact ⟨act_granted hpath hc.intact hdone, hc, hw.got⟩
  | flush =>
    obtain ⟨rfl, rfl⟩ := Prod.mk.inj (Option.some.inj ha)
    have hc := hw.out.writes hconn (Process.flush_writes w.process)
    refine ⟨?_, hc, hw.got⟩
    simp only [WireGranted, hc.intact, Bool.not_false]
  | recv room =>
    obtain ⟨rfl, rfl⟩ := Prod.mk.inj (Option.some.inj ha)
    refine ⟨trivial, hw.out, ?_⟩
    simp only [Function.update_self, hw.got]
    rfl

lemma Wired.act_other {u : ι} {a : WireAct} {i : Unit} {r : a.Resp} {h : Traffic} (hu : u ≠ t)
    (hw : w.Carries t h) (ha : Wired.act site net u a i w = some (r, w')) : w'.Carries t h := by
  cases a with
  | conn a =>
    obtain ⟨done, hdone, he⟩ := Option.map_eq_some_iff.1 ha
    obtain ⟨-, rfl⟩ := Prod.mk.inj he
    refine ⟨?_, hw.got⟩
    simp only [Process.act_conns_of_ne hdone (Ne.symm hu)]
    exact hw.out
  | flush =>
    obtain ⟨-, rfl⟩ := Prod.mk.inj (Option.some.inj ha)
    refine ⟨?_, hw.got⟩
    simp only [Process.flush, Process.setConn_of_ne _ (Ne.symm hu)]
    exact hw.out
  | recv room =>
    obtain ⟨-, rfl⟩ := Prod.mk.inj (Option.some.inj ha)
    refine ⟨hw.out, ?_⟩
    simp only [Function.update_of_ne (Ne.symm hu)]
    exact hw.got

lemma wired_talks (net : Network ι) (settings : Settings) (policy : Policy) (records : List Record)
    (s : Store) (fuel rounds : ℕ) (roles : ι → Role) {src : Bytes} (hrole : roles t = .client src)
    (hpath : OneLine site.path) (hconn : ∀ n, site.connFaults t n = none) (schedule : List ι) :
    let c := (wired settings policy records s fuel rounds roles).after (Wired.act site net)
      (fun _ _ => ()) schedule
    ∃ h, settings.Talks settings.Settled h (c.prog t) ∧ c.world.Carries t h := by
  have hstart : settings.Talks settings.Settled ⟨⟨[], false⟩, []⟩
      ((wired settings policy records s fuel rounds roles).prog t) := by
    rw [show (wired settings policy records s fuel rounds roles).prog t =
      (roles t).wire settings fuel rounds from rfl, hrole]
    exact talks_serveWire fuel rounds ⟨[], [], .start, .nil, rfl⟩
  have hworld : (wired settings policy records s fuel rounds roles).world.Carries t
      ⟨⟨[], false⟩, []⟩ :=
    ⟨⟨rfl, BufferedWriter.fresh_follows _ _, rfl, fun hf => absurd hf Bool.false_ne_true⟩, rfl⟩
  exact Config.after_follows (J := fun h w => w.Carries t h)
    (fun n h a r w w' hw _ ha => Wired.act_own hpath hconn hw ha)
    (fun u n h a r w w' hu hw ha => Wired.act_other hu hw ha) schedule _ hstart hworld

lemma Conn.Carries.file_eq {c : Conn} {h : Stream} (hc : c.Carries h) (hf : h.flushed = true) :
    c.out.file = h.sent := by
  have hfile := hc.follows.complete hc.intact
  rwa [hc.flushed hf, List.append_nil, hc.sent] at hfile

end Run

end RedisClone.Server
