import RedisClone.Lib.CommitPoint
import RedisClone.Store.Serializable

/-! Calls that update one key at once. `Increment` and `Append` read the entry in one section and
write it in another; without a journal there is no gate to keep other writers out in between. -/

namespace RedisClone.Store

open Lib Lib.Decimal Lib.Program

inductive Update
  | increment (delta : Int64)
  | append (suffix : Bytes)
  | set (val : Bytes)
  | del
  | expire (ttl : ℤ)
  deriving DecidableEq, Repr

def Update.op (key : Key) : Update → Op
  | .increment delta => .increment key delta
  | .append suffix => .append key suffix
  | .set val => .set key val
  | .del => .del [key]
  | .expire ttl => .expire key ttl

def Update.rereads : Update → Bool
  | .increment _ | .append _ => true
  | _ => false

def Act.stable : Act → Prop
  | .now | .lockDurableMutation | .unlockDurableMutation | .lockShard _ | .unlockShard _
  | .propagate _ => True
  | _ => False

def Act.writes : Act → Option (List Key)
  | .set key _ _ => some [key]
  | .del keys _ => some keys
  | .expireAt key _ _ => some [key]
  | _ => none

def keySections (key : Key) : Sections sig where
  stable := Act.stable
  looks a := a = .lookup key
  writes a := a.writes = some [key]

section Programs

variable {T : ℤ} {R : Prop} {α : Type} {key : Key}

abbrev Updates (T : ℤ) (key : Key) (R : Prop) (st : Stage) (p : Prog α) : Prop :=
  Staged (keySections key) (Early T) R st p

lemma updates_stable {st : Stage} {a : Act} {f : a.Resp → Prog α} (hst : st ≠ .looked)
    (ha : a.stable) (hf : ∀ r, Early T a r → Updates T key R st (f r)) :
    Updates T key R st (invoke a >>= f) :=
  Staged.stable (K := keySections key) hst ha hf

lemma updates_write {st : Stage} {a : Act} {f : a.Resp → Prog α} (hst : st ≠ .settled)
    (ha : a.writes = some [key]) (hf : ∀ r, Updates T key R .settled (f r)) :
    Updates T key R st (invoke a >>= f) :=
  Staged.writes (K := keySections key) hst ha fun r _ => hf r

lemma updates_look (hR : R) (st : Option Entry → Stage) {f : Option Entry → Prog α}
    (hst : ∀ e, st e ≠ .fresh) (hf : ∀ e, Early T (.lookup key) e → Updates T key R (st e) (f e)) :
    Updates T key R .fresh (invoke (.lookup key) >>= f) :=
  Staged.looks (K := keySections key) hR rfl st (fun e _ => hst e) hf

lemma updates_return (b : α) :
    Updates T key R .settled (invoke .unlockDurableMutation >>= fun _ => (pure b : Prog α)) :=
  updates_stable Stage.noConfusion trivial fun _ _ => .done

lemma updates_of_stable {β : Type} {st : Stage} {p : Prog β} {f : β → Prog α} (hst : st ≠ .looked)
    (hp : Only Act.stable p) (hf : ∀ b, Updates T key R st (f b)) :
    Updates T key R st (p >>= f) := by
  unfold Only at hp
  induction hp with
  | done _ => exact hf _
  | act ha _ ih => exact .stable hst ha fun r _ => ih r trivial

lemma stable_lockAll (ids : List ShardId) : Only Act.stable (lockAll ids) := by
  induction ids with
  | nil => exact .done ()
  | cons i ids ih => exact Only.act (S := sig) trivial fun _ => ih

lemma stable_unlockAll (ids : List ShardId) : Only Act.stable (unlockAll ids) := by
  induction ids with
  | nil => exact .done ()
  | cons i ids ih => exact Only.act (S := sig) trivial fun _ => ih

lemma stable_lockWriteShards (keys : List Key) : Only Act.stable (lockWriteShards keys) :=
  (stable_lockAll _).bind fun _ => .done _

lemma updates_setLocked {st : Stage} (hst : st ≠ .settled) (key : Key) (val : Bytes)
    (expiresAt : Time) {f : Unit → Prog α} (hf : ∀ b, Updates T key R .settled (f b)) :
    Updates T key R st (setLocked key val expiresAt >>= f) :=
  updates_write hst rfl fun _ => updates_stable (a := .propagate _) Stage.noConfusion trivial
    fun _ _ => hf ()

lemma updates_set (key : Key) (val : Bytes) : Updates T key R .fresh (set key val) := by
  refine updates_stable Stage.noConfusion trivial fun _ _ => updates_setLocked Stage.noConfusion key
    val none fun _ => ?_
  exact updates_return ()

lemma updates_del (key : Key) : Updates T key R .fresh (del [key]) := by
  have hrest (n : ℕ) (ids : List ShardId) :
      Updates T key R .settled (invoke .unlockDurableMutation >>= fun _ =>
      unlockWriteShards ids >>= fun _ => (pure n : Prog ℕ)) :=
    updates_stable Stage.noConfusion trivial fun _ _ =>
      updates_of_stable Stage.noConfusion (stable_unlockAll _) fun _ => .done
  refine updates_stable Stage.noConfusion trivial fun now _ =>
    updates_stable Stage.noConfusion trivial fun _ _ => ?_
  refine updates_of_stable Stage.noConfusion (stable_lockWriteShards _) fun ids => ?_
  refine updates_write Stage.noConfusion rfl fun r => ?_
  by_cases hr : r.2 = []
  · simpa [hr] using hrest r.1 ids
  · simpa [hr] using updates_stable (a := .propagate (cmdDEL :: r.2)) Stage.noConfusion trivial
      fun _ _ => hrest r.1 ids

lemma updates_expire (key : Key) (d : ℤ) : Updates T key R .fresh (expire key d) := by
  have hrest (b : Bool) :
      Updates T key R .settled (invoke (.unlockShard (shardIndex key)) >>= fun _ =>
      invoke .unlockDurableMutation >>= fun _ => (pure b : Prog Bool)) :=
    updates_stable Stage.noConfusion trivial fun _ _ => updates_return b
  refine updates_stable Stage.noConfusion trivial fun now _ =>
    updates_stable Stage.noConfusion trivial fun _ _ => ?_
  refine updates_stable Stage.noConfusion trivial fun _ _ =>
    updates_stable Stage.noConfusion trivial fun _ _ => ?_
  refine updates_write Stage.noConfusion rfl fun answer => ?_
  cases answer with
  | missing => exact hrest false
  | collected =>
    exact updates_stable (a := .propagate [cmdDEL, key]) Stage.noConfusion trivial
      fun _ _ => hrest false
  | deleted =>
    exact updates_stable (a := .propagate [cmdDEL, key]) Stage.noConfusion trivial
      fun _ _ => hrest true
  | kept d =>
    exact updates_stable (a := .propagate [cmdPEXPIREAT, key, unixMillis d]) Stage.noConfusion
      trivial fun _ _ => hrest true

lemma deleteIfExpired_undue {now : ℤ} (hn : now ≤ T) {e : Option Entry}
    (he : ∀ x ∈ e, x.expired T = false) : deleteIfExpired key now e = .done e := by
  cases e with
  | none => rfl
  | some e =>
    have hx : e.expired now = false := by
      rw [← Bool.not_eq_true]
      intro hx
      have hT : e.item.expired T = true := Keyspace.expired_mono hn hx
      exact Bool.noConfusion ((he e rfl).symm.trans hT)
    simp only [deleteIfExpired, hx, Bool.false_eq_true, if_false]
    rfl

lemma updates_increment (hR : R) (key : Key) (delta : Int64) :
    Updates T key R .fresh (increment key delta) := by
  refine updates_stable Stage.noConfusion trivial fun now hn =>
    updates_stable Stage.noConfusion trivial fun _ _ => ?_
  -- what it has read decides whether there will be a write at all
  let st (e : Option Entry) : Stage :=
    if (counterValue e).all fun n => sumOverflows n delta.toInt then .settled else .looked
  refine updates_look hR st (fun e => ?_) fun e he => ?_
  · simp only [st]
    split_ifs <;> exact Stage.noConfusion
  · rw [deleteIfExpired_undue hn he]
    simp only [st, done_bind]
    cases hc : counterValue e with
    | none => exact updates_return none
    | some n =>
      simp only [Option.all_some]
      split_ifs with ho
      · exact updates_return none
      · exact updates_setLocked Stage.noConfusion key _ _ fun _ => updates_return _

lemma updates_append (hR : R) (key : Key) (suffix : Bytes) :
    Updates T key R .fresh (append key suffix) := by
  refine updates_stable Stage.noConfusion trivial fun now hn =>
    updates_stable Stage.noConfusion trivial fun _ _ => ?_
  refine updates_look hR (fun _ => .looked) (fun _ => Stage.noConfusion) fun e he => ?_
  rw [deleteIfExpired_undue hn he]
  exact updates_setLocked Stage.noConfusion key _ _ fun _ => updates_return _

lemma updates_program (key : Key) (u : Update) :
    Updates T key (u.rereads = true) .fresh (Call.op (u.op key)).program := by
  refine Staged.map Reply.answer ?_
  cases u with
  | increment delta => exact Staged.map _ (updates_increment rfl key delta)
  | append suffix => exact Staged.map _ (updates_append rfl key suffix)
  | set val => exact Staged.map _ (updates_set key val)
  | del => exact Staged.map _ (updates_del key)
  | expire d => exact Staged.map _ (updates_expire key d)

end Programs

section Sections

variable {T : ℤ} {key : Key} {a : Act} {i : Input} {r : a.Resp} {w w' : Image}

lemma stable_spec (a : Act) (ha : a.stable) (i : Input) (r : a.Resp) (w w' : Image)
    (hw : w.journal = none) (h : ActSpec a i r w w') :
    w' = w ∧ ∀ v : Image, v.journal = none → ActSpec a i r v v := by
  have hpropagate (record : Record) (v : Image) (hv : v.journal = none) :
      v.propagate record = v := by
    cases v
    simp only at hv
    simp only [Image.propagate, hv, Option.map_none]
  cases a with
  | now =>
    obtain ⟨rfl, rfl⟩ := actSpec_now.1 h
    exact ⟨rfl, fun _ _ => ⟨rfl, rfl⟩⟩
  | propagate record =>
    exact ⟨(actSpec_propagate.1 h).trans (hpropagate record w hw), fun v hv =>
      actSpec_propagate.2 (hpropagate record v hv).symm⟩
  | lockDurableMutation | unlockDurableMutation | lockShard | unlockShard =>
    exact ⟨h, fun _ _ => rfl⟩
  | _ => exact absurd ha id

lemma looks_spec (a : Act) (ha : a = .lookup key) (i : Input) (r : a.Resp) (w w' : Image)
    (h : ActSpec a i r w w') : w' = w := by
  subst ha
  exact (actSpec_lookup.1 h).2

lemma journal_none (hw : w.journal = none) (h : ActSpec a i r w w') : w'.journal = none := by
  have hj := h.journal_isSome
  rw [hw] at hj
  exact Option.not_isSome_iff_eq_none.1 (by rw [hj]; exact Bool.false_ne_true)

lemma writes_frame (ha : a.writes = some [key]) (h : ActSpec a i r w w') :
    w'.journal = w.journal ∧ ∀ key', key' ≠ key → w'.keyspace key' = w.keyspace key' := by
  cases a with
  | set key' val expiresAt =>
    obtain rfl := actSpec_set.1 h
    obtain rfl := List.singleton_inj.1 (Option.some.inj ha)
    exact ⟨rfl, fun k hk => Function.update_of_ne hk _ _⟩
  | del keys now =>
    obtain ⟨-, rfl⟩ := actSpec_del.1 h
    obtain rfl := Option.some.inj ha
    exact ⟨rfl, fun k hk => Function.update_of_ne hk _ _⟩
  | expireAt key' deadline now =>
    obtain ⟨-, rfl⟩ := actSpec_expireAt.1 h
    obtain rfl := List.singleton_inj.1 (Option.some.inj ha)
    refine ⟨rfl, fun k hk => ?_⟩
    simp only [Keyspace.expireKey]
    split
    · rfl
    · split_ifs
      · exact Function.update_of_ne hk _ _
      · split
        · exact Function.update_of_ne hk _ _
        · split_ifs <;> exact Function.update_of_ne hk _ _
  | _ => exact absurd ha.symm (Option.some_ne_none _)

lemma image_unchanged (ha : a.stable ∨ a = .lookup key ∨ a.writes = some [key])
    (hw : w.journal = none) (h : ActSpec a i r w w') (hk : w'.keyspace key = w.keyspace key) :
    w' = w := by
  rcases ha with ha | ha | ha
  · exact (stable_spec a ha i r w w' hw h).1
  · exact looks_spec a ha i r w w' h
  · obtain ⟨hj, hf⟩ := writes_frame ha h
    have hks : w'.keyspace = w.keyspace := by
      funext key'
      by_cases he : key' = key
      · rw [he, hk]
      · exact hf key' he
    cases w
    cases w'
    simp only at hj hks
    rw [hj, hks]

end Sections

section Order

variable {ι : Type} (key : Key) (updates : ι → Update) (inputs : ι → ℕ → Input)

def between (c : Threads ι Reply) (u : ι) : Bool :=
  (updates u).rereads && match c.prog u with
    | .act a _ => a.writes.isSome
    | .done _ => false

/-- The step leaves the entry alone if another thread is between its reading and its writing. -/
def Undisturbed [DecidableEq ι] (c : Threads ι Reply) (t : ι) : Prop :=
  ∀ u, u ≠ t → between updates c u = true →
    (c.step World.act inputs t).world.store.view key = c.world.store.view key

instance [DecidableEq ι] [Fintype ι] (c : Threads ι Reply) (t : ι) :
    Decidable (Undisturbed key updates inputs c t) := by
  unfold Undisturbed
  infer_instance

def Update.program (u : Update) : Prog Reply := (Call.op (u.op key)).program

variable (T : ℤ) (w₀ : Image)

structure InEffectOrder (c : Threads ι Reply) : Prop where
  wellFormed : WellFormed c.world.store
  journal : c.world.store.journal = none
  committed : ∃ order, Committed ActSpec inputs (fun t => (updates t).program key)
    (keySections key) (Early T) (fun t => (updates t).rereads = true) (fun w => w.keyspace.Lively T)
      (fun w => w.journal = none)
    (fun w : World ι => w.store.image) w₀ c order

variable {key updates inputs T w₀} [DecidableEq ι] {c c' : Threads ι Reply} {t : ι}
  {a : Act} {r : a.Resp}

lemma InEffectOrder.step (hclock : ∀ t n, (inputs t n).time ≤ T)
    (hc : InEffectOrder key updates inputs T w₀ c) (hl : c.world.store.view.Lively T)
    (hq : Undisturbed key updates inputs c t) (hm : c.Moves World.act inputs t a r c') :
    InEffectOrder key updates inputs T w₀ c' := by
  have ha := World.act_spec hc.wellFormed hm.acts
  have hj' : c'.world.store.image.journal = none := journal_none hc.journal ha.image
  obtain ⟨order, ho⟩ := hc.committed
  refine ⟨ha.wellFormed, hj',
    (ho.step hm stable_spec looks_spec ha.image (ha.image.early hl (hclock t _)) hl
    hc.journal hj' fun u hu _ hr hs => ?_).elim (fun h => ⟨_, h⟩) fun h => ⟨_, h⟩⟩
  obtain ⟨b, k, hk, hb⟩ := hs.of_looked
  have hbetween : between updates c u = true := by
    have hw : b.writes = some [key] := hb
    simp only [between, hr, hk, hw, Option.isSome_some, Bool.and_self]
  refine image_unchanged (ho.acts hm) hc.journal ha.image ?_
  have hsame := hq u hu hbetween
  rw [hm.step_eq] at hsame
  exact hsame

lemma inEffectOrder_after (hclock : ∀ t n, (inputs t n).time ≤ T) (maxMemory : ℤ)
    (policy : EvictionPolicy) (schedule : List ι)
    (hlive : (booted false maxMemory policy fun t => (updates t).program key).Along World.act inputs
      (fun c _ => c.world.store.undue T = true) schedule)
    (hund : (booted false maxMemory policy fun t => (updates t).program key).Along World.act inputs
      (Undisturbed key updates inputs) schedule) :
    InEffectOrder key updates inputs T (configured false maxMemory policy).image
      ((booted false maxMemory policy fun t => (updates t).program key).after World.act inputs
        schedule) := by
  refine Config.after_induction
    (fun _ _ _ _ _ hc hq hm => hc.step hclock (undue_lively hq.1) hq.2 hm) schedule _ ?_
    (hlive.and hund)
  exact ⟨configured_wellFormed false maxMemory policy, rfl, [], .start rfl fun t =>
    updates_program key (updates t)⟩

end Order

section Counting

variable {ι : Type} {key : Key}

def counterItem : ℕ → Option Item
  | 0 => none
  | n + 1 => some ⟨formatInt (n + 1), none⟩

lemma itemCounter_counterItem (n : ℕ) :
    Keyspace.itemCounter (counterItem n) = if inInt64 n then some (n : ℤ) else none := by
  cases n with
  | zero => rfl
  | succ n => exact_mod_cast parseInt64_formatInt (n + 1)

lemma incrementEffect_counterItem {ks : Keyspace} {n : ℕ} (hk : ks key = counterItem n) {now m : ℤ}
    (h : (ks.incrementEffect key 1 now).answer = some m) :
    (ks.incrementEffect key 1 now).keyspace key = counterItem (n + 1) := by
  have hcollect : ks.collect key now = ks := by
    have hx : (ks key).any (·.expired now) = false := by
      rw [hk]
      cases n <;> rfl
    simp only [Keyspace.collect, hx, Bool.false_eq_true, if_false]
  have hone : (1 : Int64).toInt = 1 := by decide
  have hdeadline : Keyspace.itemDeadline (counterItem n) = none := by cases n <;> rfl
  simp only [Keyspace.incrementEffect, hcollect, hk, itemCounter_counterItem, hdeadline] at h ⊢
  by_cases hin : inInt64 n = true
  · simp only [hin, if_true] at h ⊢
    split_ifs at h ⊢ with ho
    have hsum : inInt64 (n + 1) = true := by
      rw [sumOverflows_iff hin, not_not, hone] at ho
      exact ho
    simp only [hone, wrap64_of_inInt64 hsum, Keyspace.put, Function.update_self, counterItem]
  · simp only [hin] at h
    exact absurd h.symm (Option.some_ne_none m)

lemma increment_counts {s : Store} (hs : WellFormed s) {n : ℕ} (hv : s.view key = counterItem n)
    {inputs : ℕ → Input} {m : ℤ}
    (h : (exec (Op.increment key 1).program inputs s).1 = .number (some m)) :
    (exec (Op.increment key 1).program inputs s).2.2.view key = counterItem (n + 1) := by
  obtain ⟨ha, hi⟩ := Op.program_effect _ (exec_image (Op.increment key 1).program inputs s hs)
  have hview : (exec (Op.increment key 1).program inputs s).2.2.view = _ :=
    congrArg Image.keyspace hi
  rw [h] at ha
  rw [hview]
  exact incrementEffect_counterItem hv (Answer.number.inj ha).symm

lemma serially_counts (inputs : ι → ℕ → Input) (ts : List ι) : ∀ {s : Store} {n : ℕ}, WellFormed s →
    s.view key = counterItem n →
    (∀ q ∈ (serially (fun _ => (Op.increment key 1).program) inputs ts s).1, ∃ m,
      q.2 = .number (some m)) →
    (serially (fun _ => (Op.increment key 1).program) inputs ts s).2.view key =
    counterItem (n + ts.length) := by
  induction ts with
  | nil => exact fun _ hv _ => hv
  | cons t ts ih =>
    intro s n hs hv h
    obtain ⟨m, hm⟩ := h _ List.mem_cons_self
    have hrest := ih (exec_wellFormed _ _ _ hs) (increment_counts hs hv hm) fun q hq =>
      h q (List.mem_cons_of_mem _ hq)
    rwa [Nat.add_assoc, Nat.add_comm 1] at hrest

end Counting

section Runs

variable {ι : Type} [DecidableEq ι]

/-- The replies and the entry of the key are those of the same calls made one after another. -/
def Serializes (key : Key) (updates : ι → Update) (inputs : ι → ℕ → Input) (s₀ : Store)
    (c : Threads ι Reply) : Prop :=
  ∃ order : List ι, order.Nodup ∧ (∀ t, t ∈ order) ∧
    let serial := serially (fun t => ((updates t).op key).program) inputs order s₀
    (∀ q ∈ serial.1, c.result q.1 = some (.answer q.2)) ∧ serial.2.view key = c.world.store.view key

lemma update_watches (key : Key) (u : Update) : (Call.op (u.op key)).watches = false := by
  cases u <;> rfl

lemma serializes_of_ran {key : Key} {updates : ι → Update} {inputs : ι → ℕ → Input}
    {T : ℤ} {s₀ : Store} {c : Threads ι Reply} (hclock : ∀ t n, (inputs t n).time ≤ T)
    (hs₀ : WellFormed s₀) {order : List ι} (hn : order.Nodup) (hall : ∀ t, t ∈ order)
    (hdone : ∀ t, ∃ reply, c.prog t = .done reply)
    (h :
      Serially
      (fun t w w' => w.keyspace.Lively T ∧ Alone ActSpec inputs (fun t => (updates t).program key) c
      t w w') s₀.image order c.world.store.image) : Serializes key updates inputs s₀ c := by
  obtain ⟨victims, -, himage, hagree⟩ :=
    serially_agrees hclock (fun t _ => ⟨update_watches key (updates t), hdone t⟩) h hs₀ hn
  refine ⟨order, hn, hall, fun q hq => ?_, congrFun (congrArg Image.keyspace himage) key⟩
  obtain ⟨reply, hr, ha⟩ := hagree q hq
  cases reply with
  | answer a =>
    obtain rfl : a = q.2 := ha
    exact hr
  | expired n m => exact absurd ha id
  | enforced e => exact absurd ha id

lemma update_answers (journalled : Bool) (maxMemory : ℤ) (policy : EvictionPolicy) (key : Key)
    (updates : ι → Update) (inputs : ι → ℕ → Input) (schedule : List ι) (t : ι) {reply : Reply}
    (h :
      ((booted journalled maxMemory policy fun t => (updates t).program key).after World.act inputs
      schedule).prog t = .done reply) : ∃ a, reply = .answer a := by
  obtain ⟨-, hp⟩ := Config.after_obeys (S := sig) (D := fun reply => ∃ a, reply = Reply.answer a)
    (C := fun _ _ => True) (fun _ => True) (fun _ _ _ _ _ _ _ _ _ _ => ⟨trivial, trivial⟩) schedule
    (booted journalled maxMemory policy fun t => (updates t).program key) trivial
    (fun t => Obeys.map Reply.answer
      ((Obeys.any _).mono (fun _ h => h) (fun _ _ h => h) fun a _ => ⟨a, rfl⟩))
    (.of_forall (fun _ _ _ _ => trivial) schedule _)
  have hd := hp t
  rw [h] at hd
  exact hd.result

/-- Calls on one key that run at once. With a journal they come down to one order of them; without
one they do if nobody changes the entry between the two sections of an `Increment` or `Append`. -/
theorem updates_serialize_when_undisturbed (journalled : Bool) (maxMemory : ℤ)
    (policy : EvictionPolicy) (key : Key) (updates : ι → Update) (inputs : ι → ℕ → Input)
    (schedule : List ι) (T : ℤ) (hclock : ∀ t n, (inputs t n).time ≤ T)
    (hlive : (booted journalled maxMemory policy fun t => (updates t).program key).Along World.act
      inputs (fun c _ => c.world.store.undue T = true) schedule)
    (hund : journalled = true ∨
      (booted journalled maxMemory policy fun t => (updates t).program key).Along World.act inputs
      (Undisturbed key updates inputs) schedule) :
    let c := (booted journalled maxMemory policy fun t => (updates t).program key).after World.act
      inputs schedule
    (∀ t, (c.result t).isSome = true) →
      Serializes key updates inputs (configured journalled maxMemory policy) c ∧
        ((∀ t, updates t = .increment 1) →
        (∀ t, ∃ n, c.result t = some (.answer (.number (some n)))) →
          ∀ threads : List ι, threads.Nodup → (∀ t, t ∈ threads) →
            c.world.store.view key = counterItem threads.length) := by
  intro c hdone
  have hs₀ := configured_wellFormed journalled maxMemory policy
  have hprog (t : ι) : ∃ reply, c.prog t = .done reply := by
    obtain ⟨reply, hr⟩ := Option.isSome_iff_exists.1 (hdone t)
    exact ⟨reply, Config.result_eq_some.1 hr⟩
  have hser : Serializes key updates inputs (configured journalled maxMemory policy) c := by
    cases journalled with
    | true =>
      have hc : InCommitOrder T (fun t => .op ((updates t).op key)) inputs
          (configured true maxMemory policy).image c :=
        inCommitOrder_after hclock maxMemory policy schedule hlive
      have hops (t : ι) : ∃ a, c.result t = some (.answer a) := by
        obtain ⟨reply, hr⟩ := hprog t
        obtain ⟨a, rfl⟩ := update_answers true maxMemory policy key updates inputs schedule t hr
        exact ⟨a, Config.result_eq_some.2 hr⟩
      obtain ⟨hn, -, hrest, hran⟩ := hc.complete fun t => by
        obtain ⟨a, ha⟩ := hops t
        rw [ha]
        rfl
      refine serializes_of_ran hclock hs₀ hn (fun t => ?_) hprog hran
      by_contra hm
      obtain ⟨a, ha⟩ := hops t
      rcases hrest t hm with hw | hr
      · rw [update_watches] at hw
        exact Bool.noConfusion hw
      · rw [ha] at hr
        exact Reply.noConfusion (Option.some.inj hr)
    | false =>
      have hc := inEffectOrder_after hclock maxMemory policy schedule hlive
        (hund.resolve_left Bool.false_ne_true)
      obtain ⟨order, ho⟩ := hc.committed
      refine serializes_of_ran hclock hs₀ ho.nodup (fun t => ?_) hprog
        (ho.ran.imp fun t _ w w' h => ⟨h.1, h.2.2⟩)
      obtain ⟨reply, hr⟩ := hprog t
      exact ho.mem_of_done hr
  refine ⟨hser, fun hinc hok threads hn hall => ?_⟩
  obtain ⟨order, hno, hao, hagree, hview⟩ := hser
  have hlen : order.length = threads.length :=
    ((List.perm_ext_iff_of_nodup hno hn).2 fun t => ⟨fun _ => hall t, fun _ => hao t⟩).length_eq
  have hprogs : (fun t => ((updates t).op key).program) = fun _ =>
      (Op.increment key 1).program := by
    funext t
    rw [hinc t]
    rfl
  rw [hprogs] at hagree hview
  have hempty : (configured journalled maxMemory policy).view key = counterItem 0 := by
    cases journalled <;> rfl
  have hcount := serially_counts inputs order hs₀ hempty fun q hq => ?_
  · rw [← hview, hcount, hlen, Nat.zero_add]
  · obtain ⟨m, hm⟩ := hok q.1
    exact ⟨m, Reply.answer.inj (Option.some.inj ((hagree q hq).symm.trans hm))⟩

end Runs

def oneAfterAnother : List (Fin 2) := turns 2 [0, 0, 1, 0, 0, 0, 0, 1, 1, 1, 1, 1]

theorem updates_serialize_oneAfterAnother :
    let c :=
      (booted false 0 .noEviction fun _ : Fin 2 => (Update.increment 1).program (ascii "n")).after
        World.act
      (fun _ _ => ⟨7, .stored⟩) oneAfterAnother
    (∀ t, (c.result t).isSome = true) ∧
      Serializes (ascii "n") (fun _ => .increment 1) (fun _ _ => ⟨7, .stored⟩)
          (configured false 0 .noEviction) c :=
  ⟨by decide +kernel,
    (updates_serialize_when_undisturbed false 0 .noEviction (ascii "n") (fun _ => .increment 1)
    (fun _ _ => ⟨7, .stored⟩) oneAfterAnother 7 (fun _ _ => le_refl 7) (by decide +kernel)
      (.inr (by decide +kernel))
    (by decide +kernel)).1⟩

def bothReadFirst : List (Fin 2) := turns 2 [0, 0, 0, 1, 1, 1, 0, 0, 0, 1, 1, 1]

/-- Without a journal both increments answer one, and one is what they leave: one of them is
lost. -/
theorem increment_lost_bothReadFirst :
    let c₀ := booted false 0 .noEviction fun _ : Fin 2 => (Update.increment 1).program (ascii "n")
    let c := c₀.after World.act (fun _ _ => ⟨7, .stored⟩) bothReadFirst
    c₀.Along World.act (fun _ _ => ⟨7, .stored⟩) (fun c _ => c.world.store.undue 7 = true)
      bothReadFirst ∧ (∀ t, c.result t = some (.answer (.number (some 1)))) ∧
      c.world.store.view (ascii "n") = some ⟨ascii "1", none⟩ ∧
      ¬ Serializes (ascii "n") (fun _ => .increment 1) (fun _ _ => ⟨7, .stored⟩)
        (configured false 0 .noEviction) c := by
  intro c₀ c
  refine ⟨by decide +kernel, by decide +kernel, by decide +kernel, ?_⟩
  rintro ⟨order, hn, hall, -, hview⟩
  have hlen : order.length = 2 :=
    ((List.perm_ext_iff_of_nodup hn (List.nodup_finRange 2)).2 fun t =>
      ⟨fun _ => List.mem_finRange t, fun _ => hall t⟩).length_eq
  obtain ⟨t, u, rfl⟩ := List.length_eq_two.1 hlen
  have hno : ∀ t u : Fin 2,
    (serially (fun _ => (Op.increment (ascii "n") 1).program) (fun _ _ => ⟨7, .stored⟩) [t, u]
      (configured false 0 .noEviction)).2.view (ascii "n") ≠ some ⟨ascii "1", none⟩ := by
    decide +kernel
  exact hno t u (hview.trans (by decide +kernel))

end RedisClone.Store
