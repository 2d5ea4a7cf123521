import RedisClone.Server.Wire

/-! How the stream of a connection is cut into pieces makes no difference to what the connection is
sent. -/

namespace RedisClone.Server

open Store Resp Aof Lib Lib.Program

section Feeding

variable {α β : Type}

def fed : (ℕ → ℕ) → Bytes → Wire α → Session α
  | _, _, .done b => .done b
  | pieces, pending, .act (.conn a) k => .act a fun r => fed pieces pending (k r)
  | pieces, pending, .act .flush k => fed pieces pending (k true)
  | pieces, pending, .act (.recv room) k =>
    fed (shift 1 pieces) (pending.drop (piece room (pieces 0) pending).length)
      (k (piece room (pieces 0) pending))

def unread : Session α → Session α
  | .done b => .done b
  | .act .read k => unread (k ())
  | .act a k => .act a fun r => unread (k r)

lemma unread_act {a : ConnAct} (ha : a ≠ .read) (k : a.Resp → Session α) :
    unread (.act a k) = .act a fun r => unread (k r) := by
  cases a with
  | read => exact absurd rfl ha
  | _ => rfl

lemma unread_bind (p : Session α) (f : α → Session β) :
    unread (p >>= f) = unread p >>= fun b => unread (f b) := by
  induction p with
  | done b => rfl
  | act a k ih =>
    by_cases ha : a = .read
    · subst ha
      exact ih ()
    · rw [act_bind, unread_act ha, unread_act ha, act_bind]
      exact congrArg (Program.act a) (funext ih)

lemma unread_of_only {p : Session α} (hp : Only (fun a : ConnAct => a ≠ .read) p) :
    unread p = p := by
  unfold Only at hp
  induction hp with
  | done _ => rfl
  | act ha _ ih =>
    rw [unread_act ha]
    exact congrArg (Program.act _) (funext fun r => ih r trivial)

lemma fed_onConn_bind (pieces : ℕ → ℕ) (pending : Bytes) (p : Session α) (f : α → Wire β) :
    fed pieces pending (onConn p >>= f) = p >>= fun b => fed pieces pending (f b) := by
  induction p with
  | done b => rfl
  | act a k ih => exact congrArg (Program.act a) (funext ih)

lemma fed_onConn (pieces : ℕ → ℕ) (pending : Bytes) (p : Session α) :
    fed pieces pending (onConn p) = p := by
  have h := fed_onConn_bind pieces pending p (fun b => (.done b : Wire α))
  rwa [Program.bind_done, show (fun b => fed pieces pending (.done b : Wire α)) =
    Program.done from rfl, Program.bind_done] at h

lemma piece_eq_nil {room size : ℕ} (hroom : 0 < room) {pending : Bytes}
    (h : piece room size pending = []) : pending = [] := by
  rcases List.take_eq_nil_iff.1 h with h | h
  · omega
  · exact h

lemma piece_append_drop (room size : ℕ) (pending : Bytes) :
    piece room size pending ++ pending.drop (piece room size pending).length = pending :=
  List.prefix_iff_eq_append.1 (List.take_prefix _ _)

lemma fed_flushBeforeRead (pieces : ℕ → ℕ) (pending : Bytes) (room : ℕ)
    (F : Option Bytes → Wire β) : fed pieces pending (flushBeforeRead room >>= F) =
      fed (shift 1 pieces) (pending.drop (piece room (pieces 0) pending).length)
        (F (some (piece room (pieces 0) pending))) := rfl

lemma fed_through {short : α → Prop} {f : Bytes → α} {F : Option α → Wire β}
    {feed : BufferedReader.Feed UInt8} {p : BufferedReader.Reading UInt8 α}
    (hp : Follows (S := Source UInt8) (fun _ _ => True)
      (fun h room => h.ended = false ∧ short (f h.src) ∧ 0 < room) BufferedReader.Feed.next
      (fun h b => b = f h.src ∧ (short b ↔ h.ended = true)) feed p) :
    ∀ (pieces : ℕ → ℕ) (pending : Bytes), (feed.ended = true → pending = []) →
      ∃ x y pieces', pending = x ++ y ∧ (short (f (feed.src ++ x)) → y = []) ∧
        fed pieces pending (p.through flushBeforeRead >>= F) =
        fed pieces' y (F (some (f (feed.src ++ x)))) := by
  induction hp with
  | @done h b hb =>
    intro pieces pending hend
    refine ⟨[], pending, pieces, rfl, fun hs => ?_, ?_⟩
    · rw [List.append_nil, ← hb.1] at hs
      exact hend (hb.2.1 hs)
    · rw [List.append_nil, ← hb.1]
      rfl
  | @act h room k hok _ ih =>
    intro pieces pending _
    obtain ⟨x, y, pieces', hxy, hy, hfed⟩ := ih (piece room (pieces 0) pending) trivial
      (shift 1 pieces) (pending.drop (piece room (pieces 0) pending).length) fun hended => by
        rw [piece_eq_nil hok.2.2 (List.isEmpty_iff.1 hended), List.drop_nil]
    refine ⟨piece room (pieces 0) pending ++ x, y, pieces', ?_, ?_, ?_⟩
    · rw [List.append_assoc, ← hxy, piece_append_drop]
    · rw [← List.append_assoc]
      exact hy
    · rw [Program.through, Program.bind_assoc, fed_flushBeforeRead, ← List.append_assoc]
      exact hfed

end Feeding

section Sessions

variable (settings : Settings) (fuel : ℕ)

abbrev Readless {α : Type} (p : Session α) : Prop := Only (fun a : ConnAct => a ≠ .read) p

lemma readless_hangUp (reply : Response) : Readless (hangUp reply) :=
  (only_writeCalls (fun _ => nofun) reply).bind fun _ => Only.act (S := connSig) (a := .flush) nofun
    fun _ => .done _

lemma readless_onStore {α : Type} (p : Prog α) : Readless (onStore p) :=
  Only.embed ((Obeys.any p).mono (fun _ _ => nofun) (fun _ _ h => h) fun _ h => h)

lemma readless_answer (b : Response) : Readless (Dispatched.ofSent <$> respond b) :=
  Only.map _ (only_respond (fun _ => nofun) b)

lemma readless_dispatchTo (args : List Bytes) : Readless (dispatchTo settings fuel args) := by
  refine only_perform nofun fun counters => (only_askErr settings nofun args).bind fun aofErr => ?_
  refine (only_askBegin settings nofun args).bind fun beginErr => ?_
  cases arrive settings ⟨aofErr, beginErr, counters.1, counters.2⟩ fuel args with
  | replied b => exact readless_answer b
  | handler p => exact (readless_onStore p).bind readless_answer
  | preflight fn p =>
    refine (readless_onStore p).bind fun r => ?_
    match r with
    | .running _ => exact .done _
    | .finished _ false => exact readless_answer errOOM
    | .finished _ true => exact (readless_onStore fn).bind fun b =>
        only_concludeWrite settings (fun _ => nofun) (fun _ => nofun) nofun b

lemma unread_hangUp (reply : Response) : unread (hangUp reply) = hangUp reply :=
  unread_of_only (readless_hangUp reply)

section Round

variable {settings fuel} {n : ℕ} {src rest : Bytes} {args : List Bytes} {e : ReadError}

lemma unread_serveFrom_error (h : readCommand src = .error e) :
    unread (serveFrom settings fuel (n + 1) src) = hangUp (farewell e) := by
  rw [serveFrom, h]
  exact unread_hangUp _

lemma unread_serveFrom_empty (h : readCommand src = .ok ([], rest)) :
    unread (serveFrom settings fuel (n + 1) src) = unread (serveFrom settings fuel n rest) := by
  rw [serveFrom, h]
  rfl

def goOn {S : Signature} (serve hang : Program S Bool) : Dispatched → Program S Bool
  | .replied => serve
  | .broken => hang
  | .stuck => .done false

lemma unread_serveFrom_command (hargs : args ≠ []) (h : readCommand src = .ok (args, rest)) :
    unread (serveFrom settings fuel (n + 1) src) =
      dispatchTo settings fuel args >>= goOn (unread (serveFrom settings fuel n rest))
        (hangUp []) := by
  obtain ⟨first, args, rfl⟩ := List.exists_cons_of_ne_nil hargs
  rw [serveFrom, h]
  have hdispatch := unread_of_only (readless_dispatchTo settings fuel (first :: args))
  change unread (dispatchTo settings fuel (first :: args) >>= goOn (serveFrom settings fuel n rest)
    (hangUp [])) = _
  rw [unread_bind, hdispatch]
  congr 1
  funext r
  cases r with
  | broken => exact unread_hangUp []
  | _ => rfl

lemma fed_command (pieces : ℕ → ℕ) (pending : Bytes) :
    fed pieces pending
      (onConn (dispatchTo settings fuel args) >>= goOn (serveWire settings fuel n rest)
        (onConn (hangUp []))) =
      dispatchTo settings fuel args >>= goOn (fed pieces pending (serveWire settings fuel n rest))
        (hangUp []) := by
  rw [fed_onConn_bind]
  congr 1
  funext r
  cases r with
  | broken => exact fed_onConn _ _ _
  | _ => rfl

end Round

lemma fed_serveWire (n : ℕ) : ∀ (buf : Bytes) (pieces : ℕ → ℕ) (pending : Bytes),
    fed pieces pending (serveWire settings fuel n buf) =
    unread (serveFrom settings fuel n (buf ++ pending)) := by
  induction n with
  | zero => exact fun _ _ _ => rfl
  | succ n ih =>
    intro buf pieces pending
    obtain ⟨x, y, pieces', rfl, hy, hfed⟩ :=
      fed_through (parses_readCommand buf) pieces pending nofun
    rw [serveWire, hfed, ← List.append_assoc]
    by_cases ht : Truncated (readCommand (buf ++ x))
    · obtain rfl := hy ht
      rw [List.append_nil]
      cases hc : readCommand (buf ++ x) with
      | error e =>
        rw [unread_serveFrom_error hc]
        exact fed_onConn _ _ _
      | ok p =>
        rw [hc] at ht
        exact absurd ht id
    · have hmore := readCommand_more ht y
      cases hc : readCommand (buf ++ x) with
      | error e =>
        rw [hc] at hmore
        rw [unread_serveFrom_error hmore]
        exact fed_onConn _ _ _
      | ok p =>
        obtain ⟨args, rest⟩ := p
        rw [hc] at hmore
        cases args with
        | nil =>
          rw [unread_serveFrom_empty hmore]
          exact ih rest pieces' y
        | cons first args =>
          rw [unread_serveFrom_command (List.cons_ne_nil _ _) hmore,
            ← ih rest pieces' y, ← fed_command]
          rfl

end Sessions

section Alike

def Conn.Intact (c : Conn) : Prop := c.out.Follows c.sent ∧ c.out.failed = false

structure Conn.Alike (c c' : Conn) : Prop where
  same : ∃ out, c' = { c with out := out }
  left : c.Intact
  right : c'.Intact

structure Process.Alike {ι : Type} (w w' : Process ι) : Prop where
  base : w'.base = w.base
  ledger : w'.ledger = w.ledger
  spawned : w'.spawned = w.spawned
  conns : ∀ t, (w.conns t).Alike (w'.conns t)

variable {ι : Type} [DecidableEq ι] {site : Site ι} {t : ι} {w w' : Process ι} {c c' : Conn}

omit [DecidableEq ι] in
lemma Conn.Intact.flush (h : c.Intact) (hconn : ∀ t n, site.connFaults t n = none) :
    Conn.Intact { c with out := c.out.flush (site.connFaults t) } :=
  ⟨BufferedWriter.flush_follows _ h.1, BufferedWriter.flush_failed _ (hconn t) h.2⟩

omit [DecidableEq ι] in
lemma Conn.Intact.write (h : c.Intact) (hconn : ∀ t n, site.connFaults t n = none) (p : Bytes) :
    Conn.Intact
    { c with out := c.out.write writeBufSize (site.connFaults t) p, sent := c.sent ++ p } :=
  ⟨BufferedWriter.write_follows _ _ p h.1, BufferedWriter.write_failed _ _ (hconn t) h.2 p⟩

lemma Process.Alike.setConn (h : w.Alike w') (hc : c.Alike c') :
    (w.setConn t c).Alike (w'.setConn t c') := by
  refine ⟨h.base, h.ledger, h.spawned, fun u => ?_⟩
  by_cases hu : u = t
  · subst hu
    rw [Process.setConn_self, Process.setConn_self]
    exact hc
  · rw [Process.setConn_of_ne _ hu, Process.setConn_of_ne _ hu]
    exact h.conns u

lemma Process.Alike.flush_left (h : w.Alike w') (hconn : ∀ t n, site.connFaults t n = none) :
    (w.flush site t).Alike w' := by
  refine ⟨h.base, h.ledger, h.spawned, fun u => ?_⟩
  by_cases hu : u = t
  · subst hu
    obtain ⟨out, ho⟩ := (h.conns u).same
    rw [Process.flush, Process.setConn_self]
    exact ⟨⟨out, ho⟩, (h.conns u).left.flush hconn, (h.conns u).right⟩
  · rw [Process.flush, Process.setConn_of_ne _ hu]
    exact h.conns u

lemma Process.Alike.flush (h : w.Alike w') (hconn : ∀ t n, site.connFaults t n = none) :
    (w.flush site t).Alike (w'.flush site t) := by
  obtain ⟨out, ho⟩ := (h.conns t).same
  exact h.setConn ⟨⟨_, by rw [ho]⟩, (h.conns t).left.flush hconn, (h.conns t).right.flush hconn⟩

lemma Process.Alike.propagate (h : w.Alike w') (a : Act) :
    (w.propagate site t a).Alike (w'.propagate site t a) := by
  have hc := h.conns t
  obtain ⟨out, ho⟩ := hc.same
  unfold Process.propagate
  split
  · rw [h.ledger]
    split_ifs
    · exact ⟨h.base, rfl, h.spawned, h.conns⟩
    · exact Process.Alike.setConn ⟨h.base, rfl, h.spawned, h.conns⟩
        ⟨⟨out, by rw [ho]⟩, hc.left, hc.right⟩
  · exact h

lemma Process.Alike.act {a : ConnAct} {i : Stimulus} {r : a.Resp} {w₁ : Process ι} (h : w.Alike w')
    (hconn : ∀ t n, site.connFaults t n = none) (ha : Process.act site t a i w = some (r, w₁)) :
    ∃ w₁', Process.act site t a i w' = some (r, w₁') ∧ w₁.Alike w₁' := by
  have hc := h.conns t
  obtain ⟨out, ho⟩ := hc.same
  cases a with
  | store a =>
    simp only [Process.act, h.base] at ha ⊢
    obtain ⟨done, hdone, he⟩ := Option.map_eq_some_iff.1 ha
    obtain ⟨rfl, rfl⟩ := Prod.mk.inj he
    refine ⟨_, by rw [hdone]; rfl, ?_⟩
    have hdone' : Process.Alike { w with base := done.2 } { w' with base := done.2 } :=
      ⟨rfl, h.ledger, h.spawned, h.conns⟩
    split_ifs
    · exact hdone'.propagate a
    · exact hdone'
  | startRewrite =>
    simp only [Process.act, h.spawned] at ha ⊢
    split_ifs at ha ⊢
    obtain ⟨-, rfl⟩ := Prod.mk.inj (Option.some.inj ha)
    exact ⟨_, rfl, h.base, h.ledger, rfl, h.conns⟩
  | read =>
    obtain ⟨-, rfl⟩ := Prod.mk.inj (Option.some.inj ha)
    refine ⟨_, rfl, ?_⟩
    split_ifs
    · exact h.flush hconn
    · exact h
  | flush =>
    obtain ⟨-, rfl⟩ := Prod.mk.inj (Option.some.inj ha)
    exact ⟨_, rfl, h.flush hconn⟩
  | write p =>
    obtain ⟨rfl, rfl⟩ := Prod.mk.inj (Option.some.inj ha)
    have hl := hc.left.write (t := t) hconn p
    have hr := hc.right.write (t := t) hconn p
    have hl' : ((w.conns t).out.write writeBufSize (site.connFaults t) p).failed = false := hl.2
    have hr' : ((w'.conns t).out.write writeBufSize (site.connFaults t) p).failed = false := hr.2
    simp only [Process.act, hl', hr']
    exact ⟨_, rfl, h.setConn ⟨⟨_, by rw [ho]⟩, hl, hr⟩⟩
  | returned reply =>
    obtain ⟨-, rfl⟩ := Prod.mk.inj (Option.some.inj ha)
    refine ⟨_, rfl, ?_⟩
    split_ifs
    · exact h
    · exact h.setConn ⟨⟨out, by rw [ho]⟩, hc.left, hc.right⟩
  | counters =>
    obtain ⟨rfl, rfl⟩ := Prod.mk.inj (Option.some.inj ha)
    exact ⟨_, rfl, h.setConn ⟨⟨out, by rw [ho, h.ledger]⟩, hc.left, hc.right⟩⟩
  | aofErr =>
    obtain ⟨rfl, rfl⟩ := Prod.mk.inj (Option.some.inj ha)
    simp only [Process.act, h.ledger]
    exact ⟨_, rfl, h.setConn ⟨⟨out, by rw [ho]⟩, hc.left, hc.right⟩⟩
  | beginRewrite =>
    obtain ⟨rfl, rfl⟩ := Prod.mk.inj (Option.some.inj ha)
    simp only [Process.act, h.ledger, h.spawned]
    exact ⟨_, rfl, h.base, rfl, rfl, h.conns⟩
  | syncIfAlways =>
    obtain ⟨-, rfl⟩ := Prod.mk.inj (Option.some.inj ha)
    simp only [Process.act, h.ledger]
    refine ⟨_, rfl, ?_⟩
    split_ifs
    · exact ⟨h.base, rfl, h.spawned, h.conns⟩
    · exact h
  | prepareRewrite | installRewrite | flushLog =>
    obtain ⟨-, rfl⟩ := Prod.mk.inj (Option.some.inj ha)
    simp only [Process.act, h.ledger]
    exact ⟨_, rfl, h.base, rfl, h.spawned, h.conns⟩

end Alike

def Role.steps (settings : Settings) (fuel rounds : ℕ) : Role → Session Bool
  | .client src => unread (serveFrom settings fuel rounds src)
  | role => role.program settings fuel

def atHand {ι : Type} (settings : Settings) (policy : Policy) (records : List Record) (s : Store)
    (fuel rounds : ℕ) (roles : ι → Role) : Running ι :=
  .start ⟨⟨s, .free ι⟩, .opened policy records, fun _ => .fresh, 0⟩ fun t =>
    (roles t).steps settings fuel rounds

lemma fed_role (settings : Settings) (fuel rounds : ℕ) (pieces : ℕ → ℕ) (role : Role) :
    fed pieces role.stream (role.wire settings fuel rounds) = role.steps settings fuel rounds := by
  cases role with
  | client src => exact fed_serveWire settings fuel rounds [] pieces src
  | _ => exact fed_onConn _ _ _

section Run

variable {ι : Type} [DecidableEq ι] {site : Site ι} {net : Network ι} {t : ι}

/-- The two servers have come equally far, but for the reads. -/
structure Shadows (net : Network ι) (c : Lib.Config wireSig ι Bool (Wired ι)) (d : Running ι) :
    Prop where
  prog : ∀ t, d.prog t = fed (shift (c.world.reads t) (net.pieces t)) (c.world.pending t) (c.prog t)
  taken : d.taken = c.world.taken
  process : c.world.process.Alike d.world

lemma Shadows.step {c c' : Lib.Config wireSig ι Bool (Wired ι)} {d : Running ι}
    {a : WireAct} {r : a.Resp} (hconn : ∀ t n, site.connFaults t n = none) (h : Shadows net c d)
    (hm : c.Moves (Wired.act site net) (fun _ _ => ()) t a r c') :
    ∃ more, c'.world.order = c.world.order ++ more ∧
    Shadows net c' (d.after (Process.act site) net.env more) := by
  obtain ⟨k, hk, hprog⟩ := hm.prog
  have hacts := hm.acts
  have ht := h.prog t
  rw [hk] at ht
  cases a with
  | conn a =>
    obtain ⟨done, hdone, he⟩ := Option.map_eq_some_iff.1 hacts
    obtain ⟨rfl, hw⟩ := Prod.mk.inj he
    obtain ⟨w', hw', halike⟩ := h.process.act hconn hdone
    have hd : d.Moves (Process.act site) net.env t a done.1 ⟨w', Function.update d.prog t
        (fed (shift (c.world.reads t) (net.pieces t)) (c.world.pending t) (k done.1)),
            Function.update d.taken t (d.taken t + 1)⟩ :=
      ⟨by rw [h.taken]; exact hw', ⟨_, ht, rfl⟩, rfl⟩
    refine ⟨[t], by rw [← hw], ?_⟩
    rw [show d.after (Process.act site) net.env [t] = _ from hd.step_eq]
    refine ⟨fun u => ?_, by rw [← hw, h.taken], by rw [← hw]; exact halike⟩
    rw [← hw, hprog]
    by_cases hu : u = t
    · subst hu
      simp only [Function.update_self]
    · simp only [Function.update_of_ne hu]
      exact h.prog u
  | flush =>
    obtain ⟨hr, hw⟩ := Prod.mk.inj (Option.some.inj hacts)
    have hflush := h.process.flush_left (t := t) hconn
    obtain rfl : r = true := by
      rw [← hr, (hflush.conns t).left.2]
      rfl
    refine ⟨[], by rw [← hw, List.append_nil], fun u => ?_, by rw [← hw]; exact h.taken, by
      rw [← hw]; exact hflush⟩
    rw [← hw, hprog]
    by_cases hu : u = t
    · subst hu
      rw [Function.update_self]
      exact ht
    · rw [Function.update_of_ne hu]
      exact h.prog u
  | recv room =>
    obtain ⟨rfl, hw⟩ := Prod.mk.inj (Option.some.inj hacts)
    refine ⟨[], by rw [← hw, List.append_nil], fun u => ?_, by rw [← hw]; exact h.taken, by
      rw [← hw]; exact h.process⟩
    rw [← hw, hprog]
    by_cases hu : u = t
    · subst hu
      simp only [Function.update_self]
      refine ht.trans ?_
      rw [fed, shift_shift, Nat.add_comm 1]
      simp only [shift_apply, Nat.zero_add]
    · simp only [Function.update_of_ne hu]
      exact h.prog u

lemma wired_shadows (settings : Settings) (policy : Policy) (records : List Record) (s : Store)
    (fuel rounds : ℕ) (roles : ι → Role) (hconn : ∀ t n, site.connFaults t n = none)
    (net : Network ι) (schedule : List ι) :
    let c := (wired settings policy records s fuel rounds roles).after (Wired.act site net)
      (fun _ _ => ()) schedule
    Shadows net c
      ((atHand settings policy records s fuel rounds roles).after (Process.act site) net.env
        c.world.order) := by
  refine Config.after_induction (Q := fun _ _ => True) (P := fun c =>
      Shadows net c
        ((atHand settings policy records s fuel rounds roles).after (Process.act site) net.env
          c.world.order))
    ?_ schedule _ ?_ (Config.Along.of_forall (fun _ _ => trivial) _ _)
  · intro c t a r c' hc _ hm
    obtain ⟨more, horder, hstep⟩ := hc.step hconn hm
    rw [horder, Config.after_append]
    exact hstep
  · have hfresh : Conn.fresh.Alike Conn.fresh :=
      ⟨⟨_, rfl⟩, ⟨BufferedWriter.fresh_follows _ _, rfl⟩, ⟨BufferedWriter.fresh_follows _ _, rfl⟩⟩
    exact ⟨fun t => (fed_role settings fuel rounds _ (roles t)).symm, rfl, rfl, rfl, rfl,
      fun _ => hfresh⟩

lemma ended_stays {d : Running ι} {env : ι → ℕ → Stimulus} {b : Bool} (h : d.prog t = .done b)
    (schedule : List ι) :
    ((d.after (Process.act site) env schedule).world.conns t) = d.world.conns t := by
  suffices hboth : (d.after (Process.act site) env schedule).prog t = .done b ∧
      (d.after (Process.act site) env schedule).world.conns t = d.world.conns t from hboth.2
  refine Config.after_induction (Q := fun _ _ => True)
    (P := fun d' => d'.prog t = .done b ∧ d'.world.conns t = d.world.conns t) ?_
    schedule d ⟨h, rfl⟩ (Config.Along.of_forall (fun _ _ => trivial) _ _)
  intro c u a r c' hc _ hm
  obtain ⟨k, hk, -⟩ := hm.prog
  have hu : t ≠ u := by
    rintro rfl
    rw [hc.1] at hk
    exact absurd hk nofun
  exact ⟨(hm.prog_of_ne hu).trans hc.1, (Process.act_conns_of_ne hm.acts hu).trans hc.2⟩

lemma order_subset (schedule : List ι) : ∀ c : Lib.Config wireSig ι Bool (Wired ι),
    (c.after (Wired.act site net) (fun _ _ => ()) schedule).world.order ⊆
      c.world.order ++ schedule := by
  induction schedule with
  | nil =>
    intro c
    rw [List.append_nil]
    exact List.Subset.refl _
  | cons t ts ih =>
    intro c
    refine List.Subset.trans (ih (c.step (Wired.act site net) (fun _ _ => ()) t)) ?_
    have hstep :
        (c.step (Wired.act site net) (fun _ _ => ()) t).world.order ⊆ c.world.order ++ [t] := by
      rcases c.step_cases (Wired.act site net) (fun _ _ => ()) t with ⟨he, -⟩ | ⟨a, r, hm⟩
      · rw [he]
        exact List.subset_append_left _ _
      · have hacts := hm.acts
        cases a with
        | conn a =>
          obtain ⟨done, -, he⟩ := Option.map_eq_some_iff.1 hacts
          rw [← (Prod.mk.inj he).2]
          exact List.Subset.refl _
        | flush | recv =>
          rw [← (Prod.mk.inj (Option.some.inj hacts)).2]
          exact List.subset_append_left _ _
    rw [show c.world.order ++ t :: ts = c.world.order ++ [t] ++ ts by rw [List.append_assoc]; rfl]
    exact List.append_subset.2
      ⟨List.Subset.trans hstep (List.subset_append_left _ _), List.subset_append_right _ _⟩

omit [DecidableEq ι] in
lemma prefix_of_all_eq {o o' : List ι} (h : ∀ u ∈ o, u = t) (h' : ∀ u ∈ o', u = t) :
    o <+: o' ∨ o' <+: o := by
  have hprefix {m n : ℕ} (hle : m ≤ n) : List.replicate m t <+: List.replicate n t := by
    rw [List.prefix_iff_eq_take, List.length_replicate, List.take_replicate, min_eq_left hle]
  rw [List.eq_replicate_of_mem h, List.eq_replicate_of_mem h']
  exact (le_total o.length o'.length).imp hprefix hprefix

abbrev served (settings : Settings) (policy : Policy) (records : List Record) (s : Store)
    (fuel rounds : ℕ) (roles : ι → Role) (site : Site ι) (env : ι → ℕ → Stimulus)
    (pieces : ι → ℕ → ℕ) (schedule : List ι) : Lib.Config wireSig ι Bool (Wired ι) :=
  (wired settings policy records s fuel rounds roles).after (Wired.act site ⟨env, pieces⟩)
    (fun _ _ => ()) schedule

section Served

variable {settings : Settings} {policy : Policy} {records : List Record} {s : Store}
  {fuel rounds : ℕ} {roles : ι → Role} {env : ι → ℕ → Stimulus} {pieces pieces' : ι → ℕ → ℕ}
    {schedule schedule' : List ι}

lemma served_received (u : ι) :
    (served settings policy records s fuel rounds roles site env pieces schedule).world.received
      u ++
    (served settings policy records s fuel rounds roles site env pieces schedule).world.pending u =
    (roles u).stream := by
  refine Config.after_induction (Q := fun _ _ => True)
    (P := fun c : Lib.Config wireSig ι Bool (Wired ι) => c.world.received u ++ c.world.pending u =
      (roles u).stream) ?_ schedule _ rfl
    (Config.Along.of_forall (fun _ _ => trivial) _ _)
  intro c t a r c' hc _ hm
  have hacts := hm.acts
  cases a with
  | conn a =>
    obtain ⟨done, -, he⟩ := Option.map_eq_some_iff.1 hacts
    rw [← (Prod.mk.inj he).2]
    exact hc
  | flush =>
    rw [← (Prod.mk.inj (Option.some.inj hacts)).2]
    exact hc
  | recv room =>
    rw [← (Prod.mk.inj (Option.some.inj hacts)).2]
    by_cases hu : u = t
    · subst hu
      simp only [Function.update_self]
      rw [List.append_assoc, piece_append_drop]
      exact hc
    · simp only [Function.update_of_ne hu]
      exact hc

lemma served_written (hconn : ∀ u n, site.connFaults u n = none) {src : Bytes}
    (hrole : roles t = .client src) (hpath : OneLine site.path)
    (hend : (served settings policy records s fuel rounds roles site env pieces schedule).result t =
      some true) {order : List ι}
      (horder :
        (served settings policy records s fuel rounds roles site env pieces
        schedule).world.order <+: order) :
    ((served settings policy records s fuel rounds roles site env pieces
      schedule).world.process.conns t).out.file =
      (((atHand settings policy records s fuel rounds roles).after (Process.act site) env
        order).world.conns t).sent := by
  have hprog := Config.result_eq_some.1 hend
  obtain ⟨h, htalks, hcarries⟩ := wired_talks ⟨env, pieces⟩ settings policy records s fuel rounds
    roles hrole hpath (hconn t) schedule
  rw [hprog] at htalks
  have hshadows := wired_shadows settings policy records s fuel rounds roles hconn
    ⟨env, pieces⟩ schedule
  obtain ⟨more, rfl⟩ := horder
  have hdone := hshadows.prog t
  rw [hprog] at hdone
  obtain ⟨out, hsame⟩ := (hshadows.process.conns t).same
  rw [hcarries.out.file_eq (htalks.result rfl).1, ← hcarries.out.sent, Config.after_append,
    ended_stays hdone, hsame]

end Served

theorem replies_not_withheld (settings : Settings) (policy : Policy) (records : List Record)
    (s : Store) (fuel rounds : ℕ) (roles : ι → Role) {src : Bytes} (hrole : roles t = .client src)
    (hpath : OneLine site.path) (hconn : ∀ u n, site.connFaults u n = none)
    (env : ι → ℕ → Stimulus) :
    let run := served settings policy records s fuel rounds roles site env
    let written := fun c : Lib.Config wireSig ι Bool (Wired ι) => (c.world.process.conns t).out.file
    (∀ pieces schedule room k, (run pieces schedule).prog t = .act (.recv room) k →
      (run pieces schedule).world.received t ++ (run pieces schedule).world.pending t = src ∧
        settings.CaughtUp ((run pieces schedule).world.received t)
          (written (run pieces schedule))) ∧
    ∀ pieces pieces' schedule schedule', (run pieces schedule).result t = some true →
    (run pieces' schedule').result t = some true →
      ((run pieces schedule).world.order <+: (run pieces' schedule').world.order ∨
        ∀ u ∈ schedule ++ schedule', u = t) →
        written (run pieces schedule) = written (run pieces' schedule') := by
  intro run written
  constructor
  · intro pieces schedule room k hk
    obtain ⟨h, htalks, hcarries⟩ := wired_talks ⟨env, pieces⟩ settings policy records s fuel rounds
      roles hrole hpath (hconn t) schedule
    change
      (served settings policy records s fuel rounds roles site env pieces schedule).prog t = _ at hk
    rw [hk] at htalks
    obtain ⟨hflushed, hup⟩ := htalks.next.1
    refine ⟨(served_received t).trans (congrArg Role.stream hrole), ?_⟩
    rw [show written (run pieces schedule) = h.stream.sent from hcarries.out.file_eq hflushed]
    rw [show (run pieces schedule).world.received t = h.got from hcarries.got]
    exact hup
  · intro pieces pieces' schedule schedule' hend hend' horder
    have hcomparable : (run pieces schedule).world.order <+: (run pieces' schedule').world.order ∨
        (run pieces' schedule').world.order <+: (run pieces schedule).world.order := by
      rcases horder with horder | hlone
      · exact .inl horder
      · refine prefix_of_all_eq (fun u hu => hlone u ?_) fun u hu => hlone u ?_
        · exact List.mem_append_left _ (order_subset schedule _ hu)
        · exact List.mem_append_right _ (order_subset schedule' _ hu)
    rcases hcomparable with hle | hle
    · exact (served_written hconn hrole hpath hend hle).trans
        (served_written hconn hrole hpath hend' (List.prefix_refl _)).symm
    · exact (served_written hconn hrole hpath hend (List.prefix_refl _)).trans
        (served_written hconn hrole hpath hend' hle).symm

end Run

def pingTwice (_ : Unit) : Role := .client (ascii "*1\r\n$4\r\nPING\r\n*1\r\n$4\r\nPI")

def pinged (size : ℕ) : Lib.Config wireSig Unit Bool (Wired Unit) :=
  served unlogged .always [] Store.new 0 4 pingTwice (calmSite Unit) (fun _ _ => calmly 0)
    (fun _ _ => size) (List.replicate 40 ())

theorem replies_not_withheld_pinged :
    (pinged 2).result () = some true ∧ (pinged 99).result () = some true ∧
      ((pinged 2).world.process.conns ()).out.file = ascii "+PONG\r\n" ∧
      ((pinged 2).world.process.conns ()).out.file =
      ((pinged 99).world.process.conns ()).out.file := by
  have hend : (pinged 2).result () = some true := by decide +kernel
  have hend' : (pinged 99).result () = some true := by decide +kernel
  refine ⟨hend, hend', by decide +kernel, ?_⟩
  exact (replies_not_withheld (t := ()) unlogged .always [] Store.new 0 4 pingTwice rfl
    (by decide : OneLine (calmSite Unit).path) (fun _ _ => rfl) fun _ _ => calmly 0).2 _ _ _ _ hend
      hend' (.inr fun _ _ => rfl)

end RedisClone.Server
