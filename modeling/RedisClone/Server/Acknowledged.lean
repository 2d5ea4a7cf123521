import RedisClone.Server.Ledger
import RedisClone.Server.Replies

namespace RedisClone.Server

open Store Resp Aof Lib Lib.Program Lib.Decimal

/-- Where a connection stands with the log: whether the last byte it has written is still in its
buffer, whether the answer to a write waits for the sync, and whether the command being served is a
write that the log has turned away. -/
structure Duty where
  held : Bool
  owing : Bool
  refused : Bool

def Duty.next (h : Duty) : (a : ConnAct) → a.Resp → Duty
  | .write p, r => { h with held := r && decide (p ≠ []) && decide (p.length ≤ writeBufSize) }
  | .read, _ | .flush, _ => { h with held := false }
  | .returned _, _ => { h with owing := true }
  | .syncIfAlways, _ => { h with owing := false }
  | .counters, _ => { h with refused := false }
  | .aofErr, r => { h with refused := r.isSome }
  | _, _ => h

def Duty.allows (h : Duty) : ConnAct → Prop
  | .returned _ => h.held = true
  | .read | .flush | .write _ => h.owing = false
  | .counters | .aofErr => True
  | _ => h.refused = false

section Discipline

abbrev Heeds {α : Type} (D : Duty → α → Prop) (h : Duty) (p : Session α) : Prop :=
  Follows (S := connSig) (fun _ _ => True) Duty.allows Duty.next D h p

variable {α β : Type} {h : Duty}

lemma heeds_act {a : ConnAct} {f : a.Resp → Session α} {D : Duty → α → Prop} (ha : h.allows a)
    (hf : ∀ r, Heeds D (h.next a r) (f r)) :
    Heeds D h (perform a >>= f) := Follows.act ha fun r _ => hf r

lemma heeds_onStore {p : Prog α} {D : α → Prop}
    (hp : Obeys (S := sig) (fun _ => True) (fun _ _ => True) D p)
    (hr : h.refused = false) : Heeds (fun h' b => h' = h ∧ D b) h (onStore p) :=
  Follows.embed_of_obeys (fun _ _ _ => trivial) (fun _ _ => hr) (fun _ _ _ => rfl) hp

def Duty.Spoke (h h' : Duty) : Prop := h'.owing = false ∧ h'.refused = h.refused

lemma heeds_writeChunks (ps : List Bytes) : ∀ h : Duty, h.owing = false → Heeds
    (fun h' b => h.Spoke h' ∧
      (b = true → ∀ p ∈ ps.getLast?, p ≠ [] → p.length ≤ writeBufSize → h'.held = true)) h
        (writeChunks ps) := by
  induction ps with
  | nil => exact fun h ho => .done ⟨⟨ho, rfl⟩, fun _ p hp => absurd hp (Option.not_mem_none p)⟩
  | cons p ps ih =>
    intro h ho
    refine heeds_act ho fun r => ?_
    cases r with
    | false => exact .done ⟨⟨ho, rfl⟩, fun hb => absurd hb Bool.false_ne_true⟩
    | true =>
      cases ps with
      | nil =>
        refine .done ⟨⟨ho, rfl⟩, fun _ q hq hne hle => ?_⟩
        obtain rfl : p = q := Option.some.inj hq
        simp [Duty.next, hne, hle]
      | cons q qs => exact (ih (h.next (.write p) true) ho).imp fun h' b hb =>
          ⟨hb.1, fun ht x hx => hb.2 ht x hx⟩

lemma heeds_writeCalls (cs : List WriteCall) :
    ∀ h : Duty, h.owing = false → Heeds (fun h' _ => h.Spoke h') h (writeCalls cs) := by
  induction cs with
  | nil => exact fun h ho => .done ⟨ho, rfl⟩
  | cons c cs ih =>
    intro h ho
    simp only [writeCalls]
    split_ifs
    · exact .done ⟨ho, rfl⟩
    · refine (heeds_writeChunks c.chunks h ho).bind fun h₁ b hb => ?_
      obtain ⟨⟨ho₁, hr₁⟩, -⟩ := hb
      split_ifs
      · exact (ih h₁ ho₁).imp fun h' _ hs => ⟨hs.1, hs.2.trans hr₁⟩
      · exact .done ⟨ho₁, hr₁⟩

lemma heeds_respond (b : Response) (ho : h.owing = false) :
    Heeds (fun h' _ => h.Spoke h') h (respond b) := by
  unfold respond
  split_ifs
  · exact .done ⟨ho, rfl⟩
  · exact heeds_writeCalls b h ho

lemma getLast_chunks {c : WriteCall} (hc : c.Whole) :
    ∃ p ∈ c.chunks.getLast?, p ≠ [] ∧ p.length ≤ writeBufSize := by
  cases c with
  | simpleString s | error s | bulkString s => exact ⟨crlf, rfl, List.cons_ne_nil _ _, by decide⟩
  | integer n =>
    refine ⟨countLine (byteOf ':') (wrap64 n), rfl, List.cons_ne_nil _ _, ?_⟩
    have hlen := formatInt_length_le (inInt64_wrap64 n)
    simp only [countLine, List.length_cons, List.length_append, crlf, List.length_nil, writeBufSize]
    omega
  | nullBulkString => exact ⟨_, rfl, by decide, by decide⟩
  | arrayHeader n => exact absurd hc id

lemma heeds_respond_whole {c : WriteCall} (hc : c.Whole) (ho : h.owing = false) :
    Heeds (fun h' r => h.Spoke h' ∧ (r = .sent → h'.held = true)) h (respond [c]) := by
  obtain ⟨p, hp, hne, hle⟩ := getLast_chunks hc
  rw [respond, if_neg (List.cons_ne_nil _ _), writeCalls, if_neg (by simp [hc.panics])]
  refine (heeds_writeChunks c.chunks h ho).bind fun h₁ b hb => ?_
  split_ifs with hb'
  · exact .done ⟨hb.1, fun _ => hb.2 hb' p hp hne hle⟩
  · exact .done ⟨hb.1, fun hs => absurd hs (by decide)⟩

lemma obeys_write {name : Bytes} {cmd : Command} (hc : commands name = some cmd)
    (hw : cmd.writes = true) (settings : Settings) (around : Surroundings) {args : List Bytes}
    (ha : cmd.arityOk args = true) :
    Obeys (S := sig) (fun _ => True) (fun _ _ => True) (fun b => ∃ c, b = [c] ∧ c.Whole)
      (cmd.fn settings around args) := by
  rcases write_program hc hw settings around args with ⟨-, b, hb, herr⟩ | ⟨o, -, hfn⟩
  · obtain ⟨msg, hmsg, rfl⟩ := herr (Command.minArgs_le ha)
    rw [hb]
    exact .done ⟨_, rfl, hmsg⟩
  · rw [hfn]
    refine Obeys.map _ ((Obeys.any o.program).mono (fun _ h => h) (fun _ _ h => h) fun a _ => ?_)
    have hok : ∃ c, ok = [c] ∧ c.Whole :=
      ⟨.simpleString (ascii "OK"), rfl, (by decide : OneLine (ascii "OK"))⟩
    cases a with
    | number n =>
      cases n with
      | none => exact ⟨_, rfl, (by decide : OneLine _)⟩
      | some n => exact ⟨_, rfl, trivial⟩
    | count n => exact ⟨_, rfl, trivial⟩
    | flag b => exact ⟨_, rfl, trivial⟩
    | _ => exact hok

variable {settings : Settings}

lemma heeds_concludeWrite (haof : settings.aof = true) {b : Response} (hb : ∃ c, b = [c] ∧ c.Whole)
    (ho : h.owing = false) (hr : h.refused = false) :
    Heeds (fun h' _ => h'.owing = false) h (concludeWrite settings b) := by
  obtain ⟨c, rfl, hc⟩ := hb
  refine (heeds_respond_whole hc ho).bind fun h₁ r hs => ?_
  obtain ⟨⟨ho₁, hr₁⟩, hheld⟩ := hs
  cases r with
  | sent =>
    refine heeds_act (hheld rfl) fun _ => ?_
    rw [syncAfter, if_pos haof]
    exact heeds_act (hr₁.trans hr) fun _ => .done rfl
  | failed | panicked => exact .done ho₁

lemma arrive_refused {around : Surroundings} (fuel : ℕ) {request : List Bytes}
    (hw : settings.writes request = true) (haof : settings.aof = true) (he : around.aofErr ≠ none) :
    ∃ b, arrive settings around fuel request = .replied b := by
  generalize ha : arrive settings around fuel request = phase
  cases arrive_cases ha with
  | empty | unknown | arity | misconf => exact ⟨_, rfl⟩
  | preflight _ _ _ herr => exact absurd (herr haof) he
  | handler hc har hread =>
    simp [Settings.writes, Settings.lookup, hc, Option.filter, har, hread] at hw

lemma heeds_conclude (haof : settings.aof = true) {around : Surroundings} {fuel : ℕ}
    {request : List Bytes} (ho : h.owing = false)
    (hr : h.refused = true → settings.writes request = true ∧ around.aofErr ≠ none) :
    Heeds (fun h' _ => h'.owing = false) h
      (conclude settings (arrive settings around fuel request)) := by
  have hrespond {h : Duty} (b : Response) (ho : h.owing = false) :
      Heeds (fun h' _ => h'.owing = false) h (Dispatched.ofSent <$> respond b) :=
    Follows.map _ ((heeds_respond b ho).imp fun _ _ hs => hs.1)
  cases hd : h.refused with
  | true =>
    obtain ⟨b, hb⟩ := arrive_refused fuel (hr hd).1 haof (hr hd).2
    rw [hb]
    exact hrespond b ho
  | false =>
    cases ha : arrive settings around fuel request with
    | replied b => exact hrespond b ho
    | handler p =>
      refine (heeds_onStore (Obeys.any p) hd).bind fun h₁ b hb => ?_
      exact hrespond b (hb.1 ▸ ho)
    | preflight fn p =>
      cases arrive_cases ha with
      | preflight hc har hw =>
        refine (heeds_onStore (Obeys.any _) hd).bind fun h₁ r hb => ?_
        obtain ⟨rfl, -⟩ := hb
        match r with
        | .running _ => exact .done ho
        | .finished _ false => exact hrespond errOOM ho
        | .finished _ true =>
          refine (heeds_onStore (obeys_write hc hw settings around har) hd).bind fun h₂ b hb => ?_
          obtain ⟨rfl, hb⟩ := hb
          exact heeds_concludeWrite haof hb ho hd

lemma not_rewrites_of_writes {request : List Bytes} (hw : settings.writes request = true) :
    settings.rewrites request = false := by
  cases request with
  | nil => exact absurd hw Bool.false_ne_true
  | cons first args =>
    rw [Settings.rewrites, Bool.and_eq_false_iff]
    refine .inr (decide_eq_false fun hname => ?_)
    rw [List.headD_cons] at hname
    have hc : commands (ascii "BGREWRITEAOF") =
      some ⟨0, some 0, false, fun settings around _ => bgrewriteaof settings around⟩ := rfl
    rw [Settings.writes, Settings.lookup, hname, hc, Option.any_filter] at hw
    simp at hw

lemma heeds_dispatchTo (haof : settings.aof = true) (fuel : ℕ) (args : List Bytes)
    (ho : h.owing = false) :
    Heeds (fun h' _ => h'.owing = false) h (dispatchTo settings fuel args) := by
  have hask :
    Heeds (fun h' r => h'.owing = false ∧ h'.refused = r.isSome ∧
      (r ≠ none → settings.writes args = true)) { h with refused := false }
          (askErr settings args) := by
    unfold askErr
    split_ifs with hw
    · exact Follows.act trivial fun r _ => .done ⟨ho, rfl, fun _ => (Bool.and_eq_true _ _ ▸ hw).1⟩
    · exact .done ⟨ho, rfl, fun hn => absurd rfl hn⟩
  refine heeds_act trivial fun counters => hask.bind fun h₁ aofErr hh => ?_
  obtain ⟨ho₁, hr₁, hw⟩ := hh
  have hrefused : h₁.refused = true → settings.writes args = true ∧ aofErr ≠ none := fun hr => by
    have hne : aofErr ≠ none := Option.isSome_iff_ne_none.1 (hr₁ ▸ hr)
    exact ⟨hw hne, hne⟩
  have hbegin : Heeds (fun h' _ => h' = h₁) h₁ (askBegin settings args) := by
    unfold askBegin
    split_ifs with hb
    · refine Follows.act ?_ fun r _ => .done rfl
      refine Bool.eq_false_iff.2 fun hr => ?_
      rw [not_rewrites_of_writes (hrefused hr).1] at hb
      exact absurd hb Bool.false_ne_true
    · exact .done rfl
  refine hbegin.bind fun h₂ beginErr hh => ?_
  subst hh
  exact heeds_conclude haof ho₁ hrefused

lemma heeds_serveFrom (haof : settings.aof = true) (fuel n : ℕ) :
    ∀ (src : Bytes) (h : Duty), h.owing = false →
    Heeds (fun _ _ => True) h (serveFrom settings fuel n src) := by
  induction n with
  | zero => exact fun _ _ _ => .done trivial
  | succ n ih =>
    intro src h ho
    refine heeds_act ho fun r => ?_
    have ho₀ : (h.next .read r).owing = false := ho
    generalize h.next .read r = h₀ at ho₀ ⊢
    cases readCommand src with
    | error e => exact (heeds_writeCalls _ h₀ ho₀).bind fun h₁ _ hs =>
        Follows.act hs.1 fun _ _ => .done trivial
    | ok cmd =>
      obtain ⟨args, rest⟩ := cmd
      cases args with
      | nil => exact ih rest h₀ ho₀
      | cons first args =>
        refine (heeds_dispatchTo haof fuel (first :: args) ho₀).bind fun h₁ r hs => ?_
        cases r with
        | replied => exact ih rest h₁ hs
        | broken => exact Follows.act hs fun _ _ => .done trivial
        | stuck => exact .done trivial

lemma heeds_role (haof : settings.aof = true) (fuel : ℕ) (role : Role) :
    Heeds (fun _ _ => True) ⟨false, false, false⟩ (role.program settings fuel) := by
  cases role with
  | client src => exact heeds_serveFrom haof fuel _ src _ rfl
  | rewriter =>
    refine Follows.map _ (heeds_act rfl fun _ => (heeds_onStore (Obeys.any aofSnapshot) rfl).bind
      fun h snapshot hb => ?_)
    rw [hb.1]
    exact heeds_act rfl fun _ => heeds_act rfl fun _ => .done trivial
  | expirer => exact Follows.map _ ((heeds_onStore (Obeys.any _) rfl).imp fun _ _ _ => trivial)
  | syncer => exact Follows.map _ (Follows.act rfl fun _ _ => .done trivial)

end Discipline

section Run

variable {ι : Type} [DecidableEq ι] {site : Site ι} {t : ι} {a : ConnAct} {i : Stimulus}
  {r : a.Resp} {w w' : Process ι}

lemma Ledger.latched_call {l : Ledger} (he : l.log.err ≠ none) (faults : Faults) (call : LogCall) :
    (l.call faults call).log.err ≠ none := by
  obtain ⟨fault, hf⟩ := Option.ne_none_iff_exists'.1 he
  rw [call_log, run_latched faults hf call]
  exact Option.some_ne_none _

/-- What ties a connection to the log: the answer to a write stays in the buffer until its records
are on the disk. -/
structure Conn.Keeps (c : Conn) (l : Ledger) (h : Duty) : Prop where
  follows : c.out.Follows c.sent
  held : h.held = true → c.out.file.length < c.sent.length
  mine : ∀ i ∈ c.mine, i < l.history.length
  known : ∀ ack ∈ c.acks, ∀ i ∈ ack.records, i < l.history.length
  acks : ∀ ack ∈ c.acks, l.log.err = none → (∀ i ∈ ack.records, l.Durable i) ∨ h.owing = true ∧
    c.out.file.length < ack.stop
  late : c.late = true → l.log.err ≠ none
  refused : c.late = true → c.writing = true → h.refused = true

namespace Conn

variable {c : Conn} {l : Ledger} {h : Duty} (faults : Faults)

lemma Keeps.call (hc : c.Keeps l h) (hl : l.Sound) (call : LogCall) :
    c.Keeps (l.call faults call) h where
  follows := hc.follows
  held := hc.held
  mine j hj := (hc.mine j hj).trans_le (Ledger.history_le faults l call)
  known ack hack j hj := (hc.known ack hack j hj).trans_le (Ledger.history_le faults l call)
  acks ack hack he := by
    have hwas : l.log.err = none := by_contra fun hn => Ledger.latched_call hn faults call he
    refine (hc.acks ack hack hwas).imp_left fun hd j hj => ?_
    exact hl.call_durable faults (hc.known ack hack j hj) (hd j hj) call
  late hlate := Ledger.latched_call (hc.late hlate) faults call
  refused := hc.refused

lemma Keeps.durable (hc : c.Keeps l h) (ho : h.owing = false) {ack : Ack} (hack : ack ∈ c.acks)
    (he : l.log.err = none) : ∀ i ∈ ack.records, l.Durable i := by
  rcases hc.acks ack hack he with hd | ⟨hn, -⟩
  · exact hd
  · exact absurd (ho.symm.trans hn) Bool.false_ne_true

lemma Keeps.flush (hc : c.Keeps l h) (ho : h.owing = false) :
    Keeps { c with out := c.out.flush faults } l { h with held := false } where
  follows := BufferedWriter.flush_follows faults hc.follows
  held hf := absurd hf Bool.false_ne_true
  mine := hc.mine
  known := hc.known
  acks _ hack he := .inl (hc.durable ho hack he)
  late := hc.late
  refused := hc.refused

lemma Keeps.write (hc : c.Keeps l h) (ho : h.owing = false) (p : Bytes) :
    Keeps { c with out := c.out.write writeBufSize faults p, sent := c.sent ++ p } l
      (h.next (.write p) (!(c.out.write writeBufSize faults p).failed)) where
  follows := BufferedWriter.write_follows _ _ p hc.follows
  held hheld := by
    simp only [Duty.next, Bool.and_eq_true, Bool.not_eq_true', decide_eq_true_eq] at hheld
    obtain ⟨⟨hf, hne⟩, hle⟩ := hheld
    have hsent := (BufferedWriter.write_follows writeBufSize faults p hc.follows).complete hf
    have hbuf := List.length_pos_of_ne_nil (BufferedWriter.write_buf writeBufSize faults hne hle hf)
    change (c.out.write writeBufSize faults p).file.length < (c.sent ++ p).length
    rw [← hsent, List.length_append]
    omega
  mine := hc.mine
  known := hc.known
  acks _ hack he := .inl (hc.durable ho hack he)
  late := hc.late
  refused := hc.refused

lemma Keeps.returned (hc : c.Keeps l h) (hheld : h.held = true) :
    Keeps { c with acks := ⟨c.sent.length, c.mine⟩ :: c.acks } l { h with owing := true } where
  follows := hc.follows
  held := hc.held
  mine := hc.mine
  known ack hack := by
    rcases List.mem_cons.1 hack with rfl | hack
    · exact hc.mine
    · exact hc.known ack hack
  acks ack hack he := by
    rcases List.mem_cons.1 hack with rfl | hack
    · exact .inr ⟨rfl, hc.held hheld⟩
    · exact (hc.acks ack hack he).imp_right fun hd => ⟨rfl, hd.2⟩
  late := hc.late
  refused := hc.refused

lemma Keeps.owe (hc : c.Keeps l h) : c.Keeps l { h with owing := true } :=
  { hc with acks := fun ack hack he => (hc.acks ack hack he).imp_right fun hd => ⟨rfl, hd.2⟩ }

lemma Keeps.unheld (hc : c.Keeps l h) : c.Keeps l { h with held := false } :=
  { hc with held := fun hf => absurd hf Bool.false_ne_true }

lemma Keeps.sync (hc : c.Keeps l h) (hl : l.Sound) (hp : l.log.policy = .always) (synced : Bool) :
    c.Keeps (l.call faults (.sync synced)) { h with owing := false } :=
  { hc.call faults hl (.sync synced) with
    acks := fun _ _ he => .inl fun j _ => hl.call_sync faults (by rw [hp]; decide) synced he j }

lemma Keeps.append (hc : c.Keeps l h) (hl : l.Sound) (he : l.log.err = none) (record : Record) :
    Keeps { c with mine := l.history.length :: c.mine } (l.call faults (.append record)) h :=
  { hc.call faults hl (.append record) with
    mine := fun j hj => by
      have hcall : l.call faults (.append record) = _ :=
        if_neg (by rw [he]; exact Bool.false_ne_true)
      rw [hcall, List.length_append]
      rcases List.mem_cons.1 hj with rfl | hj
      · exact Nat.lt_succ_self _
      · exact Nat.lt_succ_of_lt (hc.mine j hj) }

lemma Keeps.counters (hc : c.Keeps l h) :
    Keeps { c with mine := [], late := l.log.err.isSome, writing := false } l
    { h with refused := false } :=
  { hc with
    mine := fun _ hj => absurd hj List.not_mem_nil
    late := fun hlate => Option.isSome_iff_ne_none.1 hlate
    refused := fun _ hw => absurd hw Bool.false_ne_true }

lemma Keeps.aofErr (hc : c.Keeps l h) :
    Keeps { c with writing := true } l { h with refused := l.log.err.isSome } :=
  { hc with refused := fun hlate _ => Option.isSome_iff_ne_none.2 (hc.late hlate) }

lemma keeps_fresh (policy : Policy) (records : List Record) :
    Conn.fresh.Keeps (.opened policy records) ⟨false, false, false⟩ where
  follows := BufferedWriter.fresh_follows _ _
  held hf := absurd hf Bool.false_ne_true
  mine _ hj := absurd hj List.not_mem_nil
  known _ hack := absurd hack List.not_mem_nil
  acks _ hack := absurd hack List.not_mem_nil
  late hf := absurd hf Bool.false_ne_true
  refused hf := absurd hf Bool.false_ne_true

end Conn

structure Process.Holds (t : ι) (h : Duty) (w : Process ι) : Prop where
  sound : w.ledger.Sound
  policy : w.ledger.log.policy = .always
  keeps : (w.conns t).Keeps w.ledger h

lemma Process.act_sound (hs : w.ledger.Sound) (hp : w.ledger.log.policy = .always)
    (ha : Process.act site t a i w = some (r, w')) :
    w'.ledger.Sound ∧ w'.ledger.log.policy = .always := by
  rcases act_ledger ha with hl | ⟨call, hl⟩
  · rw [hl]
    exact ⟨hs, hp⟩
  · rw [hl]
    exact ⟨hs.call _ call, by rw [Ledger.call_log, run_policy, hp]⟩

lemma Process.Holds.keeps_of_conns {u : ι} {h : Duty} (hw : w.Holds u h)
    (ha : Process.act site t a i w = some (r, w')) (hconn : w'.conns u = w.conns u) :
    (w'.conns u).Keeps w'.ledger h := by
  rw [hconn]
  rcases act_ledger ha with hl | ⟨call, hl⟩
  · rw [hl]
    exact hw.keeps
  · rw [hl]
    exact hw.keeps.call _ hw.sound call

lemma Process.Holds.other {u : ι} {h : Duty} (hw : w.Holds u h) (hu : u ≠ t)
    (ha : Process.act site t a i w = some (r, w')) : w'.Holds u h := by
  obtain ⟨hs, hp⟩ := act_sound hw.sound hw.policy ha
  exact ⟨hs, hp, hw.keeps_of_conns ha (act_conns_of_ne ha hu)⟩

lemma Process.Holds.own {h : Duty} (hw : w.Holds t h) (hok : h.allows a)
    (ha : Process.act site t a i w = some (r, w')) : w'.Holds t (h.next a r) := by
  obtain ⟨hs, hp⟩ := act_sound hw.sound hw.policy ha
  refine ⟨hs, hp, ?_⟩
  have hc := hw.keeps
  cases act_cases ha with
  | store | startRewrite => exact hc
  | @latched record => exact hc.call site.logFaults hw.sound (.append record)
  | appended _ herr =>
    rw [setConn_self]
    exact hc.append _ hw.sound herr _
  | read => exact hc.unheld
  | dry | flush =>
    rw [Process.flush, setConn_self]
    exact hc.flush _ hok
  | write p =>
    rw [setConn_self]
    exact hc.write _ hok p
  | refused => exact hc.owe
  | returned =>
    rw [setConn_self]
    exact hc.returned hok
  | synced hpolicy => exact hc.sync _ hw.sound hpolicy i.synced
  | unsynced hpolicy => exact absurd hw.policy hpolicy
  | counters =>
    rw [setConn_self]
    exact hc.counters
  | aofErr =>
    rw [setConn_self]
    simp only [Duty.next, Option.isSome_map]
    exact hc.aofErr
  | beginRewrite | prepareRewrite | installRewrite | flushLog => exact hw.keeps_of_conns ha rfl

lemma Process.act_refused {h : Duty} (hr : h.refused = true) (hok : h.allows a)
    (ha : Process.act site t a i w = some (r, w')) : w'.base = w.base ∧ w'.ledger = w.ledger := by
  cases act_cases ha with
  | read | dry | refused | returned | counters | aofErr | write | flush => exact ⟨rfl, rfl⟩
  | _ => exact absurd (hr.symm.trans hok) Bool.noConfusion

/-- The last byte of the answer to a write has been handed over only if all that the write has
appended is on the disk, or the log has failed; and a log that has failed stays so, and no write
dispatched from then on touches the store or the log. -/
theorem always_acknowledges_after_sync (site : Site ι) {settings : Settings}
    (haof : settings.aof = true) (records : List Record) (s : Store) (fuel : ℕ) (roles : ι → Role)
    (inputs : ι → ℕ → Stimulus) (schedule : List ι) :
    let c :=
      (started settings .always records s fuel roles).after (Process.act site) inputs schedule
    (∀ t, ∀ ack ∈ (c.world.conns t).acks, ack.stop ≤ (c.world.conns t).out.file.length →
      c.world.ledger.log.err = none → ∀ i ∈ ack.records, c.world.ledger.Durable i) ∧
    ∀ t, let c' := c.step (Process.act site) inputs t
      (c.world.ledger.log.err ≠ none → c'.world.ledger.log.err ≠ none) ∧
      ((c.world.conns t).late = true → (c.world.conns t).writing = true →
        c'.world.base.store = c.world.base.store ∧ c'.world.ledger = c.world.ledger) := by
  intro c
  have hall (t : ι) : ∃ h, Heeds (fun _ _ => True) h (c.prog t) ∧ c.world.Holds t h :=
    Config.after_follows (fun n h a r w w' hw hok ha => ⟨trivial, hw.own hok ha⟩)
      (fun u n h a r w w' hu hw ha => hw.other (Ne.symm hu) ha) schedule _
        (heeds_role haof fuel (roles t))
      ⟨Ledger.opened_sound _ _, rfl, Conn.keeps_fresh _ _⟩
  refine ⟨fun t ack hack hstop he => ?_, fun t => ?_⟩
  · obtain ⟨h, -, hw⟩ := hall t
    rcases hw.keeps.acks ack hack he with hd | ⟨-, hlt⟩
    · exact hd
    · exact absurd hstop (Nat.not_le.2 hlt)
  · intro c'
    rcases c.step_cases (Process.act site) inputs t with ⟨hs, -⟩ | ⟨a, r, hm⟩
    · rw [show c' = c from hs]
      exact ⟨id, fun _ _ => ⟨rfl, rfl⟩⟩
    · refine ⟨fun he => ?_, fun hlate hwriting => ?_⟩
      · rcases Process.act_ledger hm.acts with hl | ⟨call, hl⟩
        · rw [hl]
          exact he
        · rw [hl]
          exact Ledger.latched_call he _ call
      · obtain ⟨h, hp, hw⟩ := hall t
        obtain ⟨k, hk, -⟩ := hm.prog
        rw [hk] at hp
        obtain ⟨hbase, hledger⟩ :=
          Process.act_refused (hw.keeps.refused hlate hwriting) hp.next.1 hm.acts
        exact ⟨congrArg World.store hbase, hledger⟩

theorem always_acknowledges_set :
    let c :=
      (started ⟨.asciiOnly, true, ⟨false, [], [], []⟩⟩ .always [] (configured true 0 .noEviction) 0
      fun _ : Unit => .client (ascii "*3\r\n$3\r\nSET\r\n$1\r\nk\r\n$1\r\nv\r\n")).after
        (Process.act (calmSite Unit))
      (fun _ _ => calmly 0) (List.replicate 30 ())
    (c.world.conns ()).out.file = ascii "+OK\r\n" ∧ c.world.ledger.log.err = none ∧
      (c.world.conns ()).acks.map Ack.stop = [5] ∧ (c.world.conns ()).acks.map Ack.records = [[0]] ∧
          c.world.ledger.Durable 0 := by
  intro c
  have hfile : (c.world.conns ()).out.file = ascii "+OK\r\n" := by decide +kernel
  have herr : c.world.ledger.log.err = none := by decide +kernel
  have hacks : (c.world.conns ()).acks = [⟨5, [0]⟩] := by rfl
  refine ⟨hfile, herr, by rw [hacks]; rfl, by rw [hacks]; rfl, ?_⟩
  refine (always_acknowledges_after_sync (calmSite Unit) rfl [] _ 0 _ _ _).1 ()
    ⟨5, [0]⟩ ?_ ?_ herr 0 (List.mem_singleton_self 0)
  · exact hacks ▸ List.mem_singleton_self _
  · exact hfile ▸ (by decide)

end Run

end RedisClone.Server
