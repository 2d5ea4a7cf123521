import RedisClone.Resp.Grammar
import RedisClone.Server.Readback
import RedisClone.Server.System
import RedisClone.Store.Standing

namespace RedisClone.Server

open Store Resp Lib Lib.Program

def lasting (T : ℤ) : Limits where
  bulk b := b.length ≤ maxBulkLength
  count n := n < maxArrayLength
  deadline d := stampable d = true ∧ T < floorMilli d
  count_le h hn := h.trans_lt hn

lemma lasting_stampable {T d : ℤ} (h : (lasting T).deadline d) : stampable d = true := h.1

lemma lasting_lt {T d : ℤ} (h : (lasting T).deadline d) : T < floorMilli d := h.2

def advance (h : Stand) : (a : ConnAct) → a.Resp → Stand
  | .store a, r => h.next a r
  | .startRewrite, _ => { h with copying := .reading allShards [] }
  | .prepareRewrite snapshot, _ => { h with copying := .ready snapshot }
  | .installRewrite, _ => { h with copying := .idle }
  | _, _ => h

def permits (T : ℤ) (h : Stand) : ConnAct → Prop
  | .store a => h.allows T a ∧ (lasting T).Asks a
  | .startRewrite => h.copying = .idle
  | .prepareRewrite snapshot => h.copying = .reading [] snapshot
  | .installRewrite => ∃ snapshot, h.copying = .ready snapshot
  | _ => True

def Expected (T : ℤ) : (a : ConnAct) → a.Resp → Prop
  | .store a, r => Early T a r ∧ (lasting T).Answers a r
  | _, _ => True

abbrev Serves (T : ℤ) {α : Type} (D : Stand → α → Prop) (h : Stand) (p : Session α) : Prop :=
  Follows (S := connSig) (Expected T) (permits T) advance D h p

section Sessions

variable {T : ℤ} {α β : Type} {D : Stand → α → Prop} {h h' : Stand}

lemma serves_act {a : ConnAct} {f : a.Resp → Session α} (ha : permits T h a)
    (hf : ∀ r, Serves T D (advance h a r) (f r)) :
    Serves T D h (perform a >>= f) := Follows.act ha fun r _ => hf r

lemma serves_onStore {E : Stand → β → Prop} {E' : β → Prop} {p : Prog β} (hp : Commits T E h p)
    (hp' : (lasting T).Proper E' p) : Serves T (fun h b => E h b ∧ E' b) h (onStore p) := by
  unfold onStore
  refine Follows.embed ?_ ?_ ?_ (hp.and hp')
  · exact fun _ _ hr => hr
  · exact fun _ _ ha => ha
  · exact fun _ _ _ => rfl

def ConnAct.outer : ConnAct → Prop
  | .store _ | .startRewrite | .prepareRewrite _ | .installRewrite => False
  | _ => True

lemma permits_outer {a : ConnAct} (ha : a.outer) : permits T h a := by
  cases a with
  | store | startRewrite | prepareRewrite | installRewrite => exact absurd ha id
  | _ => exact trivial

lemma advance_outer {a : ConnAct} (ha : a.outer) (r : a.Resp) : advance h a r = h := by
  cases a with
  | store | startRewrite | prepareRewrite | installRewrite => exact absurd ha id
  | _ => rfl

lemma serves_outer {p : Session α} (hp : Only ConnAct.outer p) : Serves T (fun g _ => g = h) h p :=
  Follows.of_within (fun _ ha => permits_outer ha) (fun _ r ha => advance_outer ha r)
    (hp.mono (fun _ ha => ha) (fun _ _ _ => trivial) fun _ _ => trivial)

variable (settings : Settings)

lemma outer_answer (b : Response) : Only ConnAct.outer (Dispatched.ofSent <$> respond b) :=
  Only.map _ (only_respond (fun _ => trivial) b)

lemma outer_concludeWrite (b : Response) : Only ConnAct.outer (concludeWrite settings b) :=
  only_concludeWrite settings (fun _ => trivial) (fun _ => trivial) trivial b

abbrev Dispatches (T : ℤ) (p : Session Dispatched) : Prop :=
  Serves T (fun g r => r ≠ .stuck → g = .idle) .idle p

lemma dispatches_outer {p : Session Dispatched} (hp : Only ConnAct.outer p) : Dispatches T p :=
  (serves_outer hp).imp fun _ _ hg _ => hg

lemma brings_write {name : Bytes} {cmd : Command} (hc : commands name = some cmd)
    (hw : cmd.writes = true) (around : Surroundings) (args : List Bytes) :
    Brings T .idle .idle (cmd.fn settings around args) := by
  rcases write_program hc hw settings around args with ⟨-, b, hb, -⟩ | ⟨o, -, ho⟩
  · rw [hb]
    exact .done rfl
  · rw [ho]
    exact (brings_op o).map _

lemma dispatches_conclude (around : Surroundings) (fuel : ℕ) {request : List Bytes}
    (hfit : Fits (lasting T) request.tail) :
    Dispatches T (conclude settings (arrive settings around fuel request)) := by
  have hone : (lasting T).count 1 := (by decide : 1 < maxArrayLength)
  cases ha : arrive settings around fuel request with
  | replied b => exact dispatches_outer (outer_answer b)
  | handler p =>
    cases arrive_cases ha with
    | @handler first args cmd hc _ hw =>
      have hquiet : Only Quiet (cmd.fn settings around args) := read_quiet hc hw
      refine (serves_onStore (brings_quiet hquiet) (proper_of_quiet hquiet)).bind fun g b hg => ?_
      rw [hg.1]
      exact dispatches_outer (outer_answer b)
  | preflight fn p =>
    cases arrive_cases ha with
    | preflight hc har hw =>
      refine (serves_onStore (evicting_enforceMemoryLimit fuel)
        (Limits.proper_enforceMemoryLimit fuel hone)).bind fun g r hg => ?_
      match r, hg with
      | .running _, _ => exact .done fun hne => absurd rfl hne
      | .finished _ false, hg =>
        rw [hg.1 fun _ => Enforced.noConfusion]
        exact dispatches_outer (outer_answer errOOM)
      | .finished _ true, hg =>
        rw [hg.1 fun _ => Enforced.noConfusion]
        refine (serves_onStore (brings_write settings hc hw around _)
          (proper_write hc hw har hfit)).bind fun g b hg => ?_
        rw [hg.1]
        exact dispatches_outer (outer_concludeWrite settings b)

lemma dispatches_dispatchTo (fuel : ℕ) {args : List Bytes} (hfit : Fits (lasting T) args.tail) :
    Dispatches T (dispatchTo settings fuel args) := by
  have hask : Only ConnAct.outer (askErr settings args) := only_askErr settings trivial args
  have hbegin : Only ConnAct.outer (askBegin settings args) := only_askBegin settings trivial args
  refine serves_act (a := .counters) trivial fun counters => (serves_outer hask).bind
    fun g aofErr hg => ?_
  subst hg
  refine (serves_outer hbegin).bind fun g beginErr hg => ?_
  subst hg
  exact dispatches_conclude settings _ fuel hfit

def Ended (h : Stand) (ended : Bool) : Prop := ended = true → h = .idle

lemma serves_serveFrom (fuel n : ℕ) :
    ∀ src : Bytes, Serves T Ended .idle (serveFrom settings fuel n src) := by
  have hflush : Serves T Ended .idle (perform .flush >>= fun _ => (pure true : Session Bool)) :=
    serves_act (a := .flush) trivial fun _ => .done fun _ => rfl
  induction n with
  | zero => exact fun _ => .done nofun
  | succ n ih =>
    intro src
    refine serves_act (a := .read) trivial fun _ => ?_
    cases hread : readCommand src with
    | error e =>
      refine (serves_outer (only_writeCalls (fun _ => trivial) _)).bind fun g _ hg => ?_
      rw [hg]
      exact hflush
    | ok cmd =>
      obtain ⟨args, rest⟩ := cmd
      cases args with
      | nil => exact ih rest
      | cons first args =>
        have hfit : Fits (lasting T) (first :: args).tail :=
          WithinLimits.fits (readCommand_withinLimits hread (List.cons_ne_nil _ _))
            (fun _ hb => hb) fun _ hn => hn
        refine (dispatches_dispatchTo settings fuel hfit).bind fun g r hg => ?_
        cases r with
        | replied =>
          rw [hg Dispatched.noConfusion]
          exact ih rest
        | broken =>
          rw [hg Dispatched.noConfusion]
          exact hflush
        | stuck => exact .done nofun

lemma serves_role (fuel : ℕ) (role : Role) : Serves T Ended .idle (role.program settings fuel) := by
  cases role with
  | client src => exact serves_serveFrom settings fuel _ src
  | rewriter =>
    refine Follows.map _ (serves_act (a := .startRewrite) rfl fun _ => ?_)
    refine (serves_onStore commits_aofSnapshot Limits.proper_aofSnapshot).bind fun g snapshot hg =>
      ?_
    rw [hg.1]
    exact serves_act (a := .prepareRewrite snapshot) rfl fun _ =>
      Follows.act (S := connSig) (a := .installRewrite) ⟨snapshot, rfl⟩ fun _ _ => .done fun _ =>
        rfl
  | expirer =>
    exact Follows.map _
      ((serves_onStore brings_activeExpireCycle (Limits.proper_expireRounds _ _ _)).imp
        fun _ _ hg _ => hg.1)
  | syncer =>
    exact Follows.map _
      ((serves_outer (Only.call (S := connSig) (a := .flushLog) trivial)).imp fun _ _ hg _ => hg)

def Role.isClient : Role → Bool
  | .client _ => true
  | _ => false

def ConnAct.background (a : ConnAct) : Prop := a ≠ .store .lockDurableMutation

lemma background_role (fuel : ℕ) {role : Role} (h : role.isClient = false) :
    Only ConnAct.background (role.program settings fuel) := by
  cases role with
  | client src => exact absurd h Bool.true_eq_false.mp
  | rewriter =>
    have hsnapshot : Only (fun a => ConnAct.background (.store a)) aofSnapshot :=
      within_aofSnapshot nofun nofun nofun
    have hcall (a : ConnAct) (ha : a.background) : Only ConnAct.background (perform a) :=
      Only.call ha
    refine Only.map _
      ((hcall .startRewrite nofun).bind fun _ => Only.bind hsnapshot.embed fun snapshot => ?_)
    exact (hcall (.prepareRewrite snapshot) nofun).bind fun _ => hcall .installRewrite nofun
  | expirer =>
    have hcycle : Only (fun a => ConnAct.background (.store a)) activeExpireCycle :=
      within_activeExpireCycle nofun nofun nofun
    exact Only.map _ hcycle.embed
  | syncer => exact Only.map _ (Only.call (S := connSig) (a := .flushLog) nofun)

end Sessions

end RedisClone.Server
