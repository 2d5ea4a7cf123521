import RedisClone.Server.Lifecycle

namespace RedisClone.Server

open Store Aof Lib Lib.Program

section Hands

inductive Hand
  | waiting
  | copying
  | installing
  | ended
  deriving DecidableEq, Repr

def Hand.busy : Hand → Bool
  | .copying | .installing => true
  | _ => false

def Hand.advance (h : Hand) : (a : ConnAct) → a.Resp → Hand
  | .startRewrite, _ => .copying
  | .prepareRewrite _, _ => .installing
  | .installRewrite, _ => .ended
  | _, _ => h

/-- What a goroutine may do next. Only the commands of clients begin a rewrite or add to the
journal. -/
def Role.allows (role : Role) (h : Hand) : ConnAct → Prop
  | .startRewrite => role.isRewriter = true ∧ h = .waiting
  | .prepareRewrite _ => h = .copying
  | .installRewrite => h = .installing
  | .beginRewrite | .store (.propagate _) => role.isClient = true ∧ h = .waiting
  | _ => h = if role.isRewriter = true then .copying else .waiting

def Role.concludes (role : Role) (h : Hand) (_ : Bool) : Prop := role.isRewriter = true → h = .ended

abbrev Behaves (role : Role) (h : Hand) (p : Session Bool) : Prop :=
  Follows (S := connSig) (fun _ _ => True) role.allows Hand.advance role.concludes h p

def Silent (a : Act) : Prop := ∀ record, a ≠ .propagate record

def ConnAct.handling : ConnAct → Prop
  | .startRewrite | .prepareRewrite _ | .installRewrite => False
  | _ => True

lemma only_onStore {P : ConnAct → Prop} (hP : ∀ a, P (.store a)) {α : Type} (p : Prog α) :
    Only (S := connSig) P (onStore p) :=
  Only.embed ((Obeys.any p).mono (fun a _ => hP a) (fun _ _ h => h) fun _ h => h)

variable (settings : Settings) (fuel : ℕ)

lemma handling_conclude (phase : DispatchState) :
    Only (S := connSig) ConnAct.handling (conclude settings phase) := by
  have hanswer (b : Response) :
      Only (S := connSig) ConnAct.handling (Dispatched.ofSent <$> respond b) :=
    Only.map _ (only_respond (fun _ => trivial) b)
  have hstore {α : Type} (p : Prog α) : Only (S := connSig) ConnAct.handling (onStore p) :=
    only_onStore (fun _ => trivial) p
  cases phase with
  | replied b => exact hanswer b
  | handler p => exact (hstore p).bind hanswer
  | preflight fn p =>
    refine (hstore p).bind fun enforced => ?_
    cases enforced with
    | running evicted => exact .done _
    | finished evicted fits =>
      cases fits with
      | false => exact hanswer errOOM
      | true => exact (hstore fn).bind fun b =>
          only_concludeWrite settings (fun _ => trivial) (fun _ => trivial) trivial b

lemma handling_serveFrom (n : ℕ) :
    ∀ src, Only (S := connSig) ConnAct.handling (serveFrom settings fuel n src) := by
  have hflush :
      Only (S := connSig) ConnAct.handling
          (perform .flush >>= fun _ => (pure true : Session Bool)) :=
    only_perform trivial fun _ => .done _
  have hdispatch (args : List Bytes) :
      Only (S := connSig) ConnAct.handling (dispatchTo settings fuel args) :=
    only_perform trivial fun _ => (only_askErr settings trivial args).bind fun _ =>
      (only_askBegin settings trivial args).bind fun _ => handling_conclude settings _
  induction n with
  | zero => exact fun _ => .done _
  | succ n ih =>
    intro src
    refine only_perform trivial fun _ => ?_
    cases Resp.readCommand src with
    | error e => exact (only_writeCalls (fun _ => trivial) _).bind fun _ => hflush
    | ok cmd =>
      obtain ⟨args, rest⟩ := cmd
      cases args with
      | nil => exact ih rest
      | cons first args =>
        refine (hdispatch (first :: args)).bind fun r => ?_
        cases r with
        | replied => exact ih rest
        | broken => exact hflush
        | stuck => exact .done _

lemma Role.allows_store {role : Role} {h : Hand} {a : Act} (ha : Silent a)
    (hh : h = if role.isRewriter = true then .copying else .waiting) :
    role.allows h (.store a) := by
  cases a with
  | propagate record => exact absurd rfl (ha record)
  | _ => exact hh

lemma behaves_onStore {role : Role} {h : Hand}
    (hh : h = if role.isRewriter = true then .copying else .waiting) {α : Type} {p : Prog α}
    (hp : Only Silent p) :
    Follows (S := connSig) (fun _ _ => True) role.allows Hand.advance (fun h' _ => h' = h)
      h (onStore p) :=
  (Follows.embed_of_obeys (fun _ _ _ => trivial) (fun _ ha => Role.allows_store ha hh)
    (fun _ _ _ => rfl) hp).imp fun _ _ h => h.1

lemma behaves_role (role : Role) : Behaves role .waiting (role.program settings fuel) := by
  cases role with
  | client src =>
    refine Follows.imp (Follows.of_within (P := ConnAct.handling) ?_ ?_ ?_) fun _ _ _ =>
      Bool.noConfusion
    · intro a ha
      cases a with
      | startRewrite | prepareRewrite | installRewrite => exact absurd ha id
      | beginRewrite => exact ⟨rfl, rfl⟩
      | store a =>
        cases a with
        | propagate record => exact ⟨rfl, rfl⟩
        | _ => exact rfl
      | _ => exact rfl
    · intro a r ha
      cases a with
      | startRewrite | prepareRewrite | installRewrite => exact absurd ha id
      | _ => rfl
    · exact (handling_serveFrom settings fuel _ src).mono (fun _ ha => ha) (fun _ _ _ => trivial)
        fun _ _ => trivial
  | rewriter =>
    have hsnapshot : Only Silent aofSnapshot :=
      within_aofSnapshot (fun _ => Act.noConfusion) (fun _ _ => Act.noConfusion) fun _ _ _ =>
        Act.noConfusion
    refine Follows.map _
      (.act ⟨rfl, rfl⟩ fun _ _ => (behaves_onStore rfl hsnapshot).bind fun h snapshot hh => ?_)
    subst hh
    exact .act rfl fun _ _ => .act rfl fun _ _ => .done fun _ => rfl
  | expirer =>
    have hcycle : Only Silent activeExpireCycle :=
      within_activeExpireCycle (fun _ => Act.noConfusion) (fun _ => Act.noConfusion)
        fun _ _ _ _ _ => Act.noConfusion
    exact Follows.map _ ((behaves_onStore rfl hcycle).imp fun _ _ _ => Bool.noConfusion)
  | syncer => exact Follows.map _ (.act rfl fun _ _ => .done Bool.noConfusion)

lemma Role.not_allows_ended (role : Role) (a : ConnAct) : ¬ role.allows .ended a := by
  have hgoing : Hand.ended ≠ if role.isRewriter = true then .copying else .waiting := by
    split_ifs <;> exact Hand.noConfusion
  cases a with
  | startRewrite | beginRewrite => exact fun h => Hand.noConfusion h.2
  | prepareRewrite | installRewrite => exact Hand.noConfusion
  | store act =>
    cases act with
    | propagate record => exact fun h => Hand.noConfusion h.2
    | _ => exact hgoing
  | _ => exact hgoing

lemma Role.not_client {role : Role} (h : role.isRewriter = true) : role.isClient ≠ true := by
  cases role with
  | rewriter => exact Bool.false_ne_true
  | _ => exact absurd h Bool.false_ne_true

lemma Role.advance_ne_waiting {role : Role} (hrole : role.isRewriter = true) {h : Hand}
    {a : ConnAct} (ha : role.allows h a) (r : a.Resp) : h.advance a r ≠ .waiting := by
  have hgoing (hh : h = if role.isRewriter = true then .copying else .waiting) : h ≠ .waiting := by
    rw [hh, if_pos hrole]
    exact Hand.noConfusion
  cases a with
  | startRewrite | prepareRewrite | installRewrite => exact Hand.noConfusion
  | beginRewrite => exact absurd ha.1 (not_client hrole)
  | store act =>
    cases act with
    | propagate record => exact absurd ha.1 (not_client hrole)
    | _ => exact hgoing ha
  | _ => exact hgoing ha

end Hands

section Log

variable (faults : Faults) {l : Log}

lemma syncLocked_rewriting (synced fsync : Bool) :
    (l.syncLocked faults synced fsync).2.tmp = l.tmp ∧
    (l.syncLocked faults synced fsync).2.rewriting = l.rewriting := by
  simp only [Log.syncLocked]
  split
  · exact ⟨rfl, rfl⟩
  · split_ifs <;> exact ⟨rfl, rfl⟩

lemma run_rewriting {call : LogCall} (hc : call.ofRewrite = false) :
    (call.run faults l).tmp = l.tmp ∧ (call.run faults l).rewriting = l.rewriting := by
  cases call with
  | append args =>
    simp only [LogCall.run, Log.append]
    split
    · exact ⟨rfl, rfl⟩
    · split_ifs <;> exact ⟨rfl, rfl⟩
  | flush => exact syncLocked_rewriting faults _ _
  | sync synced => exact syncLocked_rewriting faults _ _
  | beginRewrite | prepareRewrite | installRewrite => exact absurd hc Bool.noConfusion

lemma installRewrite_rewriting (i : Log.Install) (l : Log) :
    (l.installRewrite i).2.tmp = none ∧
    ((l.installRewrite i).2.rewriting = true → l.tmp = none ∧ l.rewriting = true) := by
  cases ht : l.tmp with
  | none =>
    simp only [Log.installRewrite, ht]
    exact ⟨trivial, fun h => ⟨trivial, h⟩⟩
  | some tmp =>
    have hstops : (l.installRewrite i).2.tmp = none ∧ (l.installRewrite i).2.rewriting = false := by
      cases hr : l.rewriting with
      | false =>
        simp only [Log.installRewrite, ht, hr, if_true]
        exact ⟨trivial, trivial⟩
      | true =>
        cases he : l.err with
        | some fault =>
          simp only [Log.installRewrite, ht, hr, he, Bool.true_eq_false, if_false]
          exact ⟨rfl, rfl⟩
        | none =>
          simp only [Log.installRewrite, ht, hr, he, Bool.true_eq_false, if_false]
          split_ifs <;> exact ⟨rfl, rfl⟩
    exact ⟨hstops.1, fun h => absurd (hstops.2.symm.trans h) Bool.false_ne_true⟩

end Log

namespace Service

variable {ι : Type} [DecidableEq ι] {roles : ι → Role} {site : Site ι} {stimuli : ι → ℕ → Stimulus}
  {v : Service ι}

structure Behaving (roles : ι → Role) (hands : ι → Hand) (c : Running ι) : Prop where
  keeps : ∀ t, Behaves (roles t) (hands t) (c.prog t)
  unstarted : ∀ t, (roles t).isRewriter = true → hands t = .waiting → c.taken t = 0

/-- `rewriteWG` counts the rewrites that have been begun and have not returned; `flying` are those
whose goroutine has run. Without one there is no temporary file, and the log is not rewriting. -/
structure Accounted (roles : ι → Role) (hands : ι → Hand) (flying : List ι) (v : Service ι) :
    Prop where
  behaving : Behaving roles hands v.goroutines
  nodup : flying.Nodup
  busy : ∀ t, t ∈ flying ↔ (hands t).busy = true
  rewriters : ∀ t ∈ flying, (roles t).isRewriter = true
  rewriteWG : v.rewriteWG = v.goroutines.world.spawned + flying.length
  tmp : v.ledger.log.tmp.isSome = true → ∃ t, hands t = .installing
  rewriting : v.ledger.log.rewriting = true →
    v.goroutines.world.spawned ≠ 0 ∨ (∃ t, hands t = .copying) ∨ v.ledger.log.tmp.isSome = true

variable {hands : ι → Hand} {flying : List ι}

omit [DecidableEq ι] in
lemma Accounted.withLedger (h : v.Accounted roles hands flying) {l : Ledger}
    (htmp : l.log.tmp = v.ledger.log.tmp) (hrewriting : l.log.rewriting = v.ledger.log.rewriting) :
    (v.withLedger l).Accounted roles hands flying := by
  refine ⟨⟨h.behaving.keeps, h.behaving.unstarted⟩, h.nodup, h.busy, h.rewriters, h.rewriteWG,
    fun ht => h.tmp ?_, fun hr => ?_⟩
  · exact htmp ▸ ht
  · exact (h.rewriting (hrewriting ▸ hr)).imp_right fun hr => hr.imp_right fun ht => htmp.symm ▸ ht

section Moves

variable {t : ι} {a : ConnAct} {r : a.Resp} {c : Running ι}

lemma Accounted.moves (h : v.Accounted roles hands flying)
    (hm : v.goroutines.Moves (Process.act site) stimuli t a r c) :
    (roles t).allows (hands t) a ∧ Behaves (roles t) ((hands t).advance a r) (c.prog t) ∧
      Behaving roles (Function.update hands t ((hands t).advance a r)) c := by
  obtain ⟨k, hk, hprog⟩ := hm.prog
  have hown := h.behaving.keeps t
  rw [hk] at hown
  obtain ⟨hallows, hrest⟩ := hown.next
  have hnext : Behaves (roles t) ((hands t).advance a r) (c.prog t) := by
    rw [hprog, Function.update_self]
    exact hrest r trivial
  refine ⟨hallows, hnext, fun u => ?_, fun u hrole => ?_⟩
  · by_cases hu : u = t
    · subst hu
      rwa [Function.update_self]
    · rw [Function.update_of_ne hu, hm.prog_of_ne hu]
      exact h.behaving.keeps u
  · by_cases hu : u = t
    · subst hu
      rw [Function.update_self]
      exact fun hwaiting => absurd hwaiting (Role.advance_ne_waiting hrole hallows r)
    · rw [Function.update_of_ne hu, hm.taken_of_ne hu]
      exact h.behaving.unstarted u hrole

lemma Accounted.unreturned (h : v.Accounted roles hands flying)
    (hm : v.goroutines.Moves (Process.act site) stimuli t a r c)
    (hgoing : (hands t).advance a r ≠ .ended) : (v.moved roles t c).rewriteWG =
      v.rewriteWG + if c.world.spawned = v.goroutines.world.spawned + 1 then 1 else 0 := by
  have hreturned :
      ¬ ((roles t).isRewriter = true ∧ v.goroutines.result t = none ∧
          (c.result t).isSome = true) := by
    rintro ⟨hrole, -, hresult⟩
    obtain ⟨b, hb⟩ := Option.isSome_iff_exists.1 hresult
    have hown := (h.moves hm).2.1
    rw [Config.result_eq_some.1 hb] at hown
    exact hgoing (hown.result hrole)
  rw [moved, if_neg hreturned, Nat.sub_zero]

lemma act_aside {w w' : Process ι} {x : Stimulus} (ha : a.handling) (hb : a ≠ .beginRewrite)
    (hact : Process.act site t a x w = some (r, w')) :
    w'.spawned = w.spawned ∧ w'.ledger.log.tmp = w.ledger.log.tmp ∧
    w'.ledger.log.rewriting = w.ledger.log.rewriting := by
  have hcall {call : LogCall} (hc : call.ofRewrite = false) :
    (w.ledger.call site.logFaults call).log.tmp = w.ledger.log.tmp ∧
      (w.ledger.call site.logFaults call).log.rewriting = w.ledger.log.rewriting := by
    rw [Ledger.call_log]
    exact run_rewriting site.logFaults hc
  cases Process.act_cases hact with
  | startRewrite | prepareRewrite | installRewrite => exact absurd ha id
  | beginRewrite => exact absurd rfl hb
  | latched | appended | synced | flushLog => exact ⟨rfl, hcall rfl⟩
  | _ => exact ⟨rfl, rfl, rfl⟩

omit [DecidableEq ι] in
lemma Accounted.of_moved {roles : ι → Role} {hands : ι → Hand} {flying : List ι} {v : Service ι}
    {t : ι} {c : Running ι} (behaving : Behaving roles hands c) (nodup : flying.Nodup)
    (busy : ∀ u, u ∈ flying ↔ (hands u).busy = true)
    (rewriters : ∀ u ∈ flying, (roles u).isRewriter = true)
    (rewriteWG : (v.moved roles t c).rewriteWG = c.world.spawned + flying.length)
    (tmp : c.world.ledger.log.tmp.isSome = true → ∃ u, hands u = .installing)
    (rewriting : c.world.ledger.log.rewriting = true →
      c.world.spawned ≠ 0 ∨ (∃ u, hands u = .copying) ∨ c.world.ledger.log.tmp.isSome = true) :
    (v.moved roles t c).Accounted roles hands flying :=
      ⟨behaving, nodup, busy, rewriters, rewriteWG, tmp, rewriting⟩

lemma Accounted.aside (h : v.Accounted roles hands flying)
    (hm : v.goroutines.Moves (Process.act site) stimuli t a r c)
    (ha : a.handling) (hb : a ≠ .beginRewrite) :
    (v.moved roles t c).Accounted roles hands flying := by
  obtain ⟨hallows, -, hbehaving⟩ := h.moves hm
  obtain ⟨hspawned, htmp, hrewriting⟩ := act_aside ha hb hm.acts
  have hsame : (hands t).advance a r = hands t := by
    cases a with
    | startRewrite | prepareRewrite | installRewrite => exact absurd ha id
    | _ => rfl
  have hgoing : hands t ≠ .ended := fun hended => Role.not_allows_ended _ _ (hended ▸ hallows)
  have hcount := h.unreturned hm (hsame.symm ▸ hgoing)
  rw [hsame, Function.update_eq_self] at hbehaving
  refine .of_moved hbehaving h.nodup h.busy h.rewriters ?_ ?_ ?_
  · rw [hcount, hspawned, if_neg (Nat.succ_ne_self _).symm]
    exact h.rewriteWG
  · rw [htmp]
    exact h.tmp
  · rw [htmp, hrewriting, hspawned]
    exact h.rewriting

lemma beginRewrite_cases (l : Log) : (∃ err, l.beginRewrite = (some err, l)) ∨
    l.beginRewrite = (none, { l with rewriting := true, rewriteTail := [] }) := by
  simp only [Log.beginRewrite]
  split
  · exact .inl ⟨_, rfl⟩
  · split_ifs
    · exact .inl ⟨_, rfl⟩
    · exact .inr rfl

lemma Accounted.begin (h : v.Accounted roles hands flying) {r : Option Bytes}
    (hm : v.goroutines.Moves (Process.act site) stimuli t .beginRewrite r c) :
    (v.moved roles t c).Accounted roles hands flying := by
  obtain ⟨hallows, -, hbehaving⟩ := h.moves hm
  have hsame : (hands t).advance .beginRewrite r = hands t := rfl
  have hcount := h.unreturned hm (by rw [hsame, hallows.2]; exact Hand.noConfusion)
  rw [hsame, Function.update_eq_self] at hbehaving
  have hworld := hm.acts
  simp only [Process.act, Option.some.injEq, Prod.mk.injEq] at hworld
  have hlog : c.world.ledger.log = v.ledger.log.beginRewrite.2 := by
    rw [← hworld.2]
    exact Ledger.call_log site.logFaults _ _
  have hspawned : c.world.spawned = if v.ledger.log.beginRewrite.1.isSome then
    v.goroutines.world.spawned else v.goroutines.world.spawned + 1 := by rw [← hworld.2]
  refine .of_moved hbehaving h.nodup h.busy h.rewriters ?_ ?_ ?_
  all_goals rcases beginRewrite_cases v.ledger.log with ⟨err, hb⟩ | hb <;> rw [hb] at hspawned hlog
  · rw [hcount, hspawned, Option.isSome_some, if_pos rfl, if_neg (Nat.succ_ne_self _).symm]
    exact h.rewriteWG
  · rw [hcount, hspawned, Option.isSome_none, if_neg Bool.false_ne_true, if_pos rfl, h.rewriteWG]
    omega
  · rw [hlog]
    exact h.tmp
  · rw [hlog]
    exact h.tmp
  · rw [hlog, hspawned, Option.isSome_some, if_pos rfl]
    exact h.rewriting
  · rw [hspawned, Option.isSome_none, if_neg Bool.false_ne_true]
    exact fun _ => .inl (Nat.succ_ne_zero _)

lemma Accounted.start (h : v.Accounted roles hands flying) {r : Unit}
    (hm : v.goroutines.Moves (Process.act site) stimuli t .startRewrite r c) :
    (v.moved roles t c).Accounted roles (Function.update hands t .copying) (t :: flying) := by
  obtain ⟨hallows, -, hbehaving⟩ := h.moves hm
  have hcount := h.unreturned hm Hand.noConfusion
  have hworld := hm.acts
  simp only [Process.act] at hworld
  split_ifs at hworld with hzero
  obtain ⟨-, hworld⟩ := Prod.mk.inj (Option.some.inj hworld)
  have hspawned : c.world.spawned + 1 = v.goroutines.world.spawned := by
    rw [← hworld]
    exact Nat.sub_one_add_one hzero
  have hledger : c.world.ledger = v.ledger := by rw [← hworld]
  have hnot : t ∉ flying := by
    rw [h.busy t, hallows.2]
    exact Bool.false_ne_true
  refine .of_moved hbehaving (List.nodup_cons.2 ⟨hnot, h.nodup⟩) (fun u => ?_) ?_ ?_ ?_ ?_
  · by_cases hu : u = t
    · subst hu
      rw [Function.update_self]
      exact iff_of_true List.mem_cons_self rfl
    · rw [Function.update_of_ne hu, List.mem_cons, or_iff_right hu]
      exact h.busy u
  · exact List.forall_mem_cons.2 ⟨hallows.1, h.rewriters⟩
  · rw [hcount, if_neg (by omega), h.rewriteWG, List.length_cons]
    omega
  · rw [hledger]
    intro htmp
    obtain ⟨u, hu⟩ := h.tmp htmp
    refine ⟨u, ?_⟩
    rw [Function.update_of_ne, hu]
    rintro rfl
    exact Hand.noConfusion (hallows.2.symm.trans hu)
  · exact fun _ => .inr (.inl ⟨t, Function.update_self ..⟩)

lemma Accounted.prepare (h : v.Accounted roles hands flying) {snapshot : List Record} {r : Unit}
    (hm : v.goroutines.Moves (Process.act site) stimuli t (.prepareRewrite snapshot) r c) :
    (v.moved roles t c).Accounted roles (Function.update hands t .installing) flying := by
  obtain ⟨hallows, -, hbehaving⟩ := h.moves hm
  have hcount := h.unreturned hm Hand.noConfusion
  have hworld := hm.acts
  simp only [Process.act, Option.some.injEq, Prod.mk.injEq, true_and] at hworld
  have hspawned : c.world.spawned = v.goroutines.world.spawned := by rw [← hworld]
  refine .of_moved hbehaving h.nodup (fun u => ?_) h.rewriters ?_ ?_ ?_
  · by_cases hu : u = t
    · subst hu
      rw [Function.update_self, h.busy u, show hands u = .copying from hallows]
      exact Iff.rfl
    · rw [Function.update_of_ne hu]
      exact h.busy u
  · rw [hcount, hspawned, if_neg (Nat.succ_ne_self _).symm]
    exact h.rewriteWG
  · exact fun _ => ⟨t, Function.update_self ..⟩
  · have hlog :
      c.world.ledger.log = (v.ledger.log.prepareRewrite (stimuli t (v.goroutines.taken t)).created
        (stimuli t (v.goroutines.taken t)).tmpFaults snapshot).2 := by
      rw [← hworld]
      exact Ledger.call_log site.logFaults _ _
    rcases Log.prepareRewrite_cases (stimuli t (v.goroutines.taken t)).created
      (stimuli t (v.goroutines.taken t)).tmpFaults snapshot v.ledger.log with ⟨err, hp⟩ | hp
    · rw [hlog, hp]
      exact fun hr => absurd hr Bool.false_ne_true
    · rw [hlog, hp]
      exact fun _ => .inr (.inr rfl)

lemma Accounted.install (h : v.Accounted roles hands flying) {r : Unit}
    (hm : v.goroutines.Moves (Process.act site) stimuli t .installRewrite r c) :
    (v.moved roles t c).Accounted roles (Function.update hands t .ended) (flying.erase t) := by
  obtain ⟨hallows, hown, hbehaving⟩ := h.moves hm
  have hfly : t ∈ flying := by
    rw [h.busy t, show hands t = .installing from hallows]
    rfl
  have hworld := hm.acts
  simp only [Process.act, Option.some.injEq, Prod.mk.injEq, true_and] at hworld
  have hspawned : c.world.spawned = v.goroutines.world.spawned := by rw [← hworld]
  have hlog : c.world.ledger.log =
      (v.ledger.log.installRewrite (stimuli t (v.goroutines.taken t)).install).2 := by
    rw [← hworld]
    exact Ledger.call_log site.logFaults _ _
  have hreturned : (roles t).isRewriter = true ∧ v.goroutines.result t = none ∧
      (c.result t).isSome = true := by
    refine ⟨h.rewriters t hfly, ?_, ?_⟩
    · obtain ⟨k, hk, -⟩ := hm.prog
      simp only [Config.result, hk]
    · cases hp : c.prog t with
      | done b =>
        rw [Config.result_eq_some.2 hp]
        rfl
      | act a k =>
        rw [hp] at hown
        exact absurd hown.next.1 (Role.not_allows_ended _ _)
  obtain ⟨htmp, hstops⟩ :=
    installRewrite_rewriting (stimuli t (v.goroutines.taken t)).install v.ledger.log
  refine .of_moved hbehaving (h.nodup.erase t) (fun u => ?_)
    (fun u hu => h.rewriters u (List.mem_of_mem_erase hu)) ?_ ?_ ?_
  · by_cases hu : u = t
    · subst hu
      rw [Function.update_self]
      exact iff_of_false h.nodup.not_mem_erase Bool.false_ne_true
    · rw [Function.update_of_ne hu, List.mem_erase_of_ne hu]
      exact h.busy u
  · rw [moved, if_pos hreturned, hspawned, if_neg (Nat.succ_ne_self _).symm, h.rewriteWG,
      List.length_erase_of_mem hfly]
    have hpos := List.length_pos_of_mem hfly
    dsimp only
    omega
  · rw [hlog, htmp]
    exact fun hnone => absurd hnone Bool.false_ne_true
  · rw [hlog, hspawned]
    intro hr
    obtain ⟨hnone, hwas⟩ := hstops hr
    rcases h.rewriting hwas with hs | ⟨u, hu⟩ | ht
    · exact .inl hs
    · refine .inr (.inl ⟨u, ?_⟩)
      rw [Function.update_of_ne, hu]
      rintro rfl
      exact Hand.noConfusion (hu.symm.trans hallows)
    · rw [hnone] at ht
      exact absurd ht Bool.false_ne_true

lemma Accounted.run (h : v.Accounted roles hands flying)
    (hm : v.goroutines.Moves (Process.act site) stimuli t a r c) :
    ∃ hands' flying', (v.moved roles t c).Accounted roles hands' flying' := by
  cases a with
  | beginRewrite => exact ⟨_, _, h.begin hm⟩
  | startRewrite => exact ⟨_, _, h.start hm⟩
  | prepareRewrite snapshot => exact ⟨_, _, h.prepare hm⟩
  | installRewrite => exact ⟨_, _, h.install hm⟩
  | _ => exact ⟨_, _, h.aside hm trivial ConnAct.noConfusion⟩

end Moves

end Service

end RedisClone.Server
