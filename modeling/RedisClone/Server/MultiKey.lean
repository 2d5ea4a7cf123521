import RedisClone.Server.Handlers
import RedisClone.Store.LockRule
import RedisClone.Store.Records

namespace RedisClone.Server

open Store Resp Lib Lib.Program

inductive Writer
  | del (keys : List Key)
  | mset (pairs : List (Key × Bytes))
  deriving DecidableEq, Repr

inductive Reader
  | exists_ (keys : List Key)
  | mget (keys : List Key)
  deriving DecidableEq, Repr

def Writer.program : Writer → Prog Response
  | .del keys => Server.del keys
  | .mset pairs => do
    Store.mset pairs
    return ok

def Reader.program : Reader → Prog Response
  | .exists_ keys => Server.exists_ keys
  | .mget keys => Server.mget keys

def Writer.effect : Writer → Keyspace → Keyspace
  | .del keys, ks => ks.removeAll keys
  | .mset pairs, ks => ks.putAll pairs

def Writer.writes : Writer → Act → Bool
  | .del keys, .del keys' _ => decide (keys' = keys)
  | .mset pairs, .mset pairs' => decide (pairs' = pairs)
  | _, _ => false

def Reader.keys : Reader → List Key
  | .exists_ keys | .mget keys => keys

def Reader.shows : Reader → Option Item → Option Bytes
  | .exists_ _, it => it.map fun _ => []
  | .mget _, it => it.map Item.val

def Reader.reply : Reader → List (Option Bytes) → Response
  | .exists_ _, seen => [.integer (seen.countP Option.isSome : ℕ)]
  | .mget keys, seen => .arrayHeader keys.length :: seen.map bulkOrNull

def Reader.read : Reader → ℕ → ℕ
  | .exists_ _, taken => taken - 1
  | .mget _, taken => taken / 2

def Reader.place : Reader → ℕ → ℕ
  | .exists_ _, j => j + 1
  | .mget _, j => 2 * j + 1

lemma Reader.place_lt (r : Reader) (j m : ℕ) : r.place j < m ↔ j < r.read m := by
  cases r <;> simp only [Reader.place, Reader.read] <;> omega

section Reading

def SeesAt (view : ℕ → Keyspace) : ActionSpec sig Input ℕ
  | .now, i, r, k, k' => r = i.time ∧ k' = k + 1
  | .lookup key, _, r, k, k' => r.map Entry.item = view k key ∧ k' = k + 1
  | .getRead key now, _, r, k, k' => r = (view k).readAnswer key now ∧ k' = k + 1
  | _, _, _, k, k' => k' = k + 1

lemma seesAt_of_spec {view : ℕ → Keyspace} {k : ℕ} {a : Act} {i : Input} {r : a.Resp} {w w' : Image}
    (hk : view k = w.keyspace) (h : ActSpec a i r w w') : SeesAt view a i r k (k + 1) := by
  cases a with
  | now => exact ⟨h.1, rfl⟩
  | lookup key => exact ⟨hk ▸ h.1, rfl⟩
  | getRead key now => exact ⟨hk ▸ h.1, rfl⟩
  | _ => exact rfl

lemma SeesAt.next {view : ℕ → Keyspace} {a : Act} {i : Input} {r : a.Resp} {k k' : ℕ}
    (h : SeesAt view a i r k k') : k' = k + 1 := by
  cases a with
  | now | lookup | getRead => exact h.2
  | _ => exact h

lemma SeesAt.congr {view view' : ℕ → Keyspace} {a : Act} {i : Input} {r : a.Resp} {k k' : ℕ}
    (hk : view k = view' k) (h : SeesAt view a i r k k') : SeesAt view' a i r k k' := by
  cases a with
  | lookup | getRead => exact ⟨hk ▸ h.1, h.2⟩
  | _ => exact h

variable {α : Type} {view : ℕ → Keyspace} {inputs : ℕ → Input} {k k' n : ℕ}

lemma reaches_seesAt_le {p q : Prog α} (h : Reaches (SeesAt view) p inputs k n q k') :
    k' = k + n := by
  induction h with
  | refl => rfl
  | head ha _ ih =>
    rw [ih, ha.next]
    omega

lemma reaches_congr_view (view' : ℕ → Keyspace) {p q : Prog α}
    (h : Reaches (SeesAt view) p inputs k n q k') (hv : ∀ j < k', view j = view' j) :
    Reaches (SeesAt view') p inputs k n q k' := by
  induction h with
  | refl => exact .refl _ _ _
  | head ha hr ih =>
    have hle := reaches_seesAt_le hr
    have hnext := ha.next
    exact .head (ha.congr (hv _ (by omega))) (ih hv)

def Undue (ks : Keyspace) (inputs : ℕ → Input) : Prop :=
  ∀ key it, ks key = some it → ∀ n, it.expired (inputs n).time = false

lemma Undue.shift {ks : Keyspace} (h : Undue ks inputs) (m : ℕ) : Undue ks (shift m inputs) :=
  fun key it hk n => h key it hk (n + m)

lemma runs_countExisting {now : ℤ}
    (hnow : ∀ j key it, view j key = some it → it.expired now = false) (keys : List Key) :
    ∀ {inputs : ℕ → Input} {k n k' acc m : ℕ}, Runs (SeesAt view) (countExisting now keys acc)
      inputs k n m k' →
      m = acc + (keys.mapIdx fun j key => (view (k + j) key).map fun _ => ([] : Bytes)).countP
        Option.isSome := by
  induction keys with
  | nil =>
    intro inputs k n k' acc m h
    simpa using (runs_done.1 h).2.1
  | cons key keys ih =>
    intro inputs k n k' acc m h
    obtain ⟨r, k₁, n₁, ⟨hr, rfl⟩, hrest, -⟩ := runs_act.1 h
    have hidx (j : ℕ) : k + 1 + j = k + (j + 1) := by omega
    cases r with
    | none =>
      have hm := ih hrest
      simp only [hidx] at hm
      simp [hm, List.mapIdx_cons, ← hr]
    | some e =>
      have he : e.expired now = false := hnow k key e.item hr.symm
      have hcount : Runs (SeesAt view)
        (countExisting now keys (if e.expired now then acc else acc + 1)) (shift 1 inputs)
        (k + 1) n₁ m k' := hrest
      rw [he] at hcount
      have hm := ih hcount
      simp only [hidx] at hm
      simp [hm, List.mapIdx_cons, ← hr]
      omega

lemma runs_mgetValues (keys : List Key) : ∀ {inputs : ℕ → Input} {k n k' : ℕ} {values : Response},
    (∀ j, Undue (view j) inputs) → Runs (SeesAt view) (mgetValues keys) inputs k n values k' →
      values = (keys.mapIdx fun j key => (view (k + (2 * j + 1)) key).map Item.val).map
        bulkOrNull := by
  induction keys with
  | nil =>
    intro inputs k n k' values _ h
    simpa using (runs_done.1 h).2.1
  | cons key keys ih =>
    intro inputs k n k' values hu h
    obtain ⟨now, k₁, n₁, ⟨rfl, rfl⟩, hget, -⟩ := runs_act.1 h
    obtain ⟨r, k₂, n₂, ⟨hr, rfl⟩, hrest, -⟩ := runs_act.1 hget
    have hidx (j : ℕ) : k + 1 + 1 + (2 * j + 1) = k + (2 * (j + 1) + 1) := by omega
    have htail (v : Option Bytes) (hv : (view (k + 1) key).map Item.val = v)
        (hrun : Runs (SeesAt view)
          (mgetValues keys >>= fun rest => (pure (bulkOrNull v :: rest) : Prog Response))
          (shift 1 (shift 1 inputs)) (k + 1 + 1) n₂ values k') :
        values = ((key :: keys).mapIdx fun j key => (view (k + (2 * j + 1)) key).map Item.val).map
            bulkOrNull := by
      obtain ⟨rest, k₃, m, m', hvalues, hdone, -⟩ := runs_bind.1 hrun
      obtain ⟨-, rfl, -⟩ := runs_done.1 hdone
      have hm := ih (fun j => ((hu j).shift 1).shift 1) hvalues
      simp only [hidx] at hm
      simp [hm, List.mapIdx_cons, hv]
    cases hk : view (k + 1) key with
    | none =>
      rw [Keyspace.readAnswer, hk] at hr
      subst hr
      exact htail none (by rw [hk]; rfl) hrest
    | some it =>
      rw [Keyspace.readAnswer, hk] at hr
      simp only [hu (k + 1) key it hk 0, Bool.false_eq_true, if_false] at hr
      subst hr
      exact htail (some it.val) (by rw [hk]; rfl) hrest

lemma Reader.runs (r : Reader) {b : Response} (hu : ∀ j, Undue (view j) inputs)
    (h : Runs (SeesAt view) r.program inputs 0 n b k') :
    b = r.reply (r.keys.mapIdx fun j key => r.shows (view (r.place j) key)) := by
  cases r with
  | exists_ keys =>
    obtain ⟨m, k₁, n₁, n₂, hcount, hdone, -⟩ := runs_bind.1 h
    obtain ⟨-, rfl, -⟩ := runs_done.1 hdone
    obtain ⟨now, k₂, n₃, ⟨rfl, rfl⟩, hkeys, -⟩ := runs_act.1 hcount
    have hm := runs_countExisting (fun j key it hk => hu j key it hk 0) keys hkeys
    simp only [Nat.zero_add, Nat.add_comm 1] at hm
    simp only [Reader.reply, Reader.keys, Reader.shows, Reader.place, hm]
  | mget keys =>
    obtain ⟨values, k₁, n₁, n₂, hvalues, hdone, -⟩ := runs_bind.1 h
    obtain ⟨-, rfl, -⟩ := runs_done.1 hdone
    have hm := runs_mgetValues keys hu hvalues
    simp only [Nat.zero_add] at hm
    simp only [Reader.reply, Reader.keys, Reader.shows, Reader.place, hm]

lemma mapIdx_switch {A B : Type} (f g : A → B) (l : List A) : ∀ m : ℕ,
    (l.mapIdx fun j a => if j < m then f a else g a) = (l.take m).map f ++ (l.drop m).map g := by
  induction l with
  | nil => simp
  | cons a l ih =>
    intro m
    cases m with
    | zero => simpa [List.mapIdx_cons] using ih 0
    | succ m => simpa [List.mapIdx_cons] using ih m

end Reading

section Halves

def Reader.mixed (r : Reader) (ks ks' : Keyspace) (m : ℕ) : Response :=
  r.reply ((r.keys.take m).map (fun key => r.shows (ks key)) ++ (r.keys.drop m).map
    fun key => r.shows (ks' key))

def Reader.unhalved (r : Reader) (ks ks' : Keyspace) (m : ℕ) : Prop :=
  (∀ key ∈ r.keys.take m, r.shows (ks key) = r.shows (ks' key)) ∨
    ∀ key ∈ r.keys.drop m, r.shows (ks key) = r.shows (ks' key)

instance (r : Reader) (ks ks' : Keyspace) (m : ℕ) : Decidable (r.unhalved ks ks' m) :=
  inferInstanceAs (Decidable (_ ∨ _))

lemma Reader.runs_switch (r : Reader) {ks ks' : Keyspace} {inputs : ℕ → Input}
    {m n k' : ℕ} {b : Response} (hu : Undue ks inputs) (hu' : Undue ks' inputs)
    (h : Runs (SeesAt fun j => if j < m then ks else ks') r.program inputs 0 n b k') :
    b = r.mixed ks ks' (r.read m) := by
  have hboth (j : ℕ) : Undue (if j < m then ks else ks') inputs := by split_ifs <;> assumption
  have hb := r.runs hboth h
  have hsplit (j : ℕ) (key : Key) : r.shows ((if r.place j < m then ks else ks') key) =
      if j < r.read m then r.shows (ks key) else r.shows (ks' key) := by
    simp only [← r.place_lt]
    split_ifs <;> rfl
  simp only [hsplit] at hb
  rw [hb, mapIdx_switch (fun key => r.shows (ks key)) fun key => r.shows (ks' key)]
  rfl

lemma countP_eq_iff {A : Type} {f g : A → Bool} (hfg : ∀ a, f a = true → g a = true) (l : List A) :
    l.countP f = l.countP g ↔ ∀ a ∈ l, f a = g a := by
  induction l with
  | nil => simp
  | cons a l ih =>
    have hle : l.countP f ≤ l.countP g := List.countP_mono_left fun a _ => hfg a
    simp only [List.countP_cons, List.forall_mem_cons, ← ih]
    cases hf : f a with
    | true => simp [hfg a hf]
    | false =>
      cases hg : g a with
      | false => simp
      | true => simp; omega

lemma Reader.reply_append_left (r : Reader) {seen seen₁ seen₂ : List (Option Bytes)} :
    r.reply (seen ++ seen₁) = r.reply (seen ++ seen₂) ↔ r.reply seen₁ = r.reply seen₂ := by
  cases r <;> simp [Reader.reply]

lemma Reader.reply_append_right (r : Reader) {seen seen₁ seen₂ : List (Option Bytes)} :
    r.reply (seen₁ ++ seen) = r.reply (seen₂ ++ seen) ↔ r.reply seen₁ = r.reply seen₂ := by
  cases r <;> simp [Reader.reply]

lemma bulkOrNull_injective : Function.Injective bulkOrNull := by
  intro v v' h
  cases v <;> cases v' <;> simp_all [bulkOrNull]

def OneWay (ks ks' : Keyspace) : Prop :=
  (∀ key, (ks key).isSome = true → (ks' key).isSome = true) ∨ ∀ key, (ks' key).isSome = true →
    (ks key).isSome = true

lemma Reader.reply_eq_iff (r : Reader) {ks ks' : Keyspace} (h : OneWay ks ks') (keys : List Key) :
    r.reply (keys.map fun key => r.shows (ks key)) =
    r.reply (keys.map fun key => r.shows (ks' key)) ↔
      ∀ key ∈ keys, r.shows (ks key) = r.shows (ks' key) := by
  cases r with
  | mget _ =>
    simp only [Reader.reply, List.cons.injEq, true_and, bulkOrNull_injective.list_map.eq_iff]
    exact List.map_inj_left
  | exists_ _ =>
    have hcount (ks : Keyspace) :
      (keys.map fun key => (ks key).map fun _ => ([] : Bytes)).countP Option.isSome =
        keys.countP fun key => (ks key).isSome := by
      simp [List.countP_map, Function.comp_def]
    have hshows (it it' : Option Item) : (it.map fun _ => ([] : Bytes)) = (it'.map fun _ => []) ↔
        it.isSome = it'.isSome := by
      cases it <;> cases it' <;> simp
    simp only [Reader.reply, Reader.shows, hcount, hshows, List.cons.injEq, and_true,
      WriteCall.integer.injEq, Nat.cast_inj]
    rcases h with h | h
    · exact countP_eq_iff h keys
    · rw [eq_comm, countP_eq_iff h keys]
      simp only [eq_comm]

lemma Reader.mixed_iff (r : Reader) {ks ks' : Keyspace} (h : OneWay ks ks') (m : ℕ) :
    (r.mixed ks ks' m = r.reply (r.keys.map fun key => r.shows (ks key)) ∨
      r.mixed ks ks' m = r.reply (r.keys.map fun key => r.shows (ks' key))) ↔
      r.unhalved ks ks' m := by
  have hsplit (ks : Keyspace) : (r.keys.map fun key => r.shows (ks key)) =
      (r.keys.take m).map (fun key => r.shows (ks key)) ++ (r.keys.drop m).map fun key =>
          r.shows (ks key) := by
    rw [← List.map_append, List.take_append_drop]
  have h' : OneWay ks' ks := h.symm
  rw [hsplit ks, hsplit ks', Reader.mixed, r.reply_append_left, r.reply_append_right,
    r.reply_eq_iff h', r.reply_eq_iff h, Reader.unhalved, or_comm]
  simp only [eq_comm]

end Halves

section Steps

variable {w : Writer} {r : Reader}

lemma undue_effect {ks : Keyspace} {inputs : ℕ → Input} (h : Undue ks inputs) :
    Undue (w.effect ks) inputs := by
  intro key it hk n
  cases w with
  | del keys => exact h key it (Keyspace.of_removeAll hk) n
  | mset pairs =>
    rcases Keyspace.of_putAll hk with ⟨val, -, rfl⟩ | hk
    · rfl
    · exact h key it hk n

lemma oneWay_effect (w : Writer) (ks : Keyspace) : OneWay ks (w.effect ks) := by
  cases w with
  | del keys =>
    refine .inr fun key hk => ?_
    obtain ⟨it, hi⟩ := Option.isSome_iff_exists.1 hk
    rw [Keyspace.of_removeAll hi]
    rfl
  | mset pairs => exact .inl fun key => Keyspace.isSome_putAll pairs

def Writer.rule (w : Writer) (written : Bool) (a : Act) (written' : Bool) : Prop :=
  (a.plumbing = true ∧ written' = written) ∨ (w.writes a = true ∧ written = false ∧ written' = true)

lemma Writer.carries (w : Writer) : Carries (S := sig) w.rule false true w.program := by
  have hP : Plumbed fun a => a.plumbing = true := ⟨fun _ h => h⟩
  have hplain {α : Type} {written : Bool} {p : Prog α}
      (hp : Only (S := sig) (fun a => Act.plumbing a = true) p) :
        Carries (S := sig) w.rule written written p := .only (fun _ ha => .inl ⟨ha, rfl⟩) hp
  cases w with
  | del keys =>
    refine Carries.bind ?_ fun n => .done _
    refine (hplain (hP.last (a := .now) rfl)).bind fun now => ?_
    refine (hplain (hP.last (a := .lockDurableMutation) rfl)).bind fun _ =>
      (hplain (hP.lockWriteShards keys)).bind fun ids => ?_
    refine Carries.act (S := sig) (a := .del keys now) (.inr ⟨decide_eq_true rfl, rfl, rfl⟩)
      fun removed => hplain ?_
    have hrest :
        Only (S := sig) (fun a => Act.plumbing a = true) (invoke .unlockDurableMutation >>= fun _ =>
        unlockWriteShards ids >>= fun _ => (pure removed.1 : Prog ℕ)) :=
      hP.act (a := .unlockDurableMutation) rfl fun _ => (hP.unlockAll _).bind fun _ => .done _
    have hlog : Only (S := sig) (fun a => Act.plumbing a = true)
        (invoke (.propagate (cmdDEL :: removed.2)) >>= fun _ => invoke .unlockDurableMutation >>=
            fun _ => unlockWriteShards ids >>= fun _ => (pure removed.1 : Prog ℕ)) :=
      hP.act (a := .propagate _) rfl fun _ => hrest
    by_cases hr : removed.2 = []
    · simpa [hr] using hrest
    · simpa [hr] using hlog
  | mset pairs =>
    refine Carries.bind ?_ fun n => .done _
    refine (hplain (hP.last (a := .lockDurableMutation) rfl)).bind fun _ =>
      (hplain (hP.lockWriteShards _)).bind fun ids => ?_
    refine Carries.act (S := sig) (a := .mset pairs) (.inr ⟨decide_eq_true rfl, rfl, rfl⟩)
      fun _ => hplain ?_
    exact hP.act (a := .propagate _) rfl fun _ => hP.act (a := .unlockDurableMutation) rfl
      fun _ => hP.unlockAll _

lemma keyspace_of_plumbing {a : Act} {i : Input} {x : a.Resp} {im im' : Image}
    (ha : a.plumbing = true) (h : ActSpec a i x im im') : im'.keyspace = im.keyspace := by
  cases a with
  | propagate record =>
    obtain rfl := actSpec_propagate.1 h
    rfl
  | now | config | lockDurableMutation | unlockDurableMutation | lockShard | unlockShard =>
    rw [ActSpec.unchanged rfl h]
  | _ => cases ha

lemma Writer.keyspace_of_writes {a : Act} {i : Input} {x : a.Resp} {im im' : Image}
    (ha : w.writes a = true) (h : ActSpec a i x im im') : im'.keyspace = w.effect im.keyspace := by
  cases w with
  | del keys =>
    cases a with
    | del keys' now =>
      obtain rfl := of_decide_eq_true ha
      obtain ⟨-, rfl⟩ := actSpec_del.1 h
      rfl
    | _ => cases ha
  | mset pairs =>
    cases a with
    | mset pairs' =>
      obtain rfl := of_decide_eq_true ha
      obtain rfl := actSpec_mset.1 h
      rfl
    | _ => cases ha

lemma Writer.runs {α : Type} {p : Prog α} {written written' : Bool}
    (hp : Carries (S := sig) w.rule written written' p) (hend : written' = true) :
    ∀ {inputs : ℕ → Input} {im im' : Image} {n : ℕ} {b : α}, Runs ActSpec p inputs im n b im' →
      im'.keyspace = if written then im.keyspace else w.effect im.keyspace := by
  induction hp with
  | done a =>
    intro inputs im im' n b h
    obtain ⟨-, -, rfl⟩ := runs_done.1 h
    simp [hend]
  | step ha _ ih =>
    intro inputs im im' n b h
    obtain ⟨x, im₁, m, hact, hrest, -⟩ := runs_act.1 h
    have hk := ih x hend hrest
    rcases ha with ⟨ha, rfl⟩ | ⟨ha, rfl, rfl⟩
    · rwa [keyspace_of_plumbing ha hact] at hk
    · rw [hk, w.keyspace_of_writes ha hact]
      rfl

lemma Reader.quiet (r : Reader) : Only Quiet r.program := by
  cases r with
  | exists_ keys => exact (quiet_exists keys).bind fun _ => .done _
  | mget keys =>
    exact (composes_mgetValues (composes_only Quiet) fun key _ => quiet_get key).bind fun _ => .done _

lemma keyspace_of_quiet {a : Act} {inputs : ℕ → Input} {n : ℕ} {x : a.Resp} {im im' : Image}
    (hu : Undue im.keyspace inputs) (ha : Quiet a) (h : ActSpec a (inputs n) x im im') :
    im'.keyspace = im.keyspace := by
  cases a with
  | getCollect key =>
    obtain rfl := actSpec_getCollect.1 h
    refine if_neg ?_
    cases hk : im.keyspace key with
    | none => simp
    | some it => simpa using hu key it hk n
  | now | getRead | lookup | shardLive | config | stats | shardUsed => rw [ActSpec.unchanged rfl h]
  | _ => exact absurd ha id

lemma seesAt_of_runs {α : Type} {p : Prog α} {ks : Keyspace} (hp : Only Quiet p) :
    ∀ {inputs : ℕ → Input} {im im' : Image} {n k : ℕ} {b : α}, im.keyspace = ks → Undue ks inputs →
      Runs ActSpec p inputs im n b im' → Runs (SeesAt fun _ => ks) p inputs k n b (k + n) := by
  unfold Only at hp
  induction hp with
  | done _ =>
    intro inputs im im' n k b _ _ h
    obtain ⟨rfl, rfl, -⟩ := runs_done.1 h
    exact .refl _ _ _
  | act ha _ ih =>
    intro inputs im im' n k b hks hu h
    obtain ⟨x, im₁, m, hact, hrest, rfl⟩ := runs_act.1 h
    have hk := keyspace_of_quiet (hks ▸ hu) ha hact
    have htail := ih x trivial (hk.trans hks) (hu.shift 1) hrest (k := k + 1)
    rw [Nat.add_right_comm] at htail
    exact .head (seesAt_of_spec hks.symm hact) htail

end Steps

section Run

variable {w : Writer} {r : Reader} {inputs : Fin 2 → ℕ → Input}

/-- Where a run of the two stands: the keyspace, whether the writer has written, and what the
reader has come across. -/
structure Stands (w : Writer) (r : Reader) (inputs : Fin 2 → ℕ → Input) (ks : Keyspace)
    (view : ℕ → Keyspace) (written : Bool) (c : Threads (Fin 2) Response) : Prop where
  wellFormed : WellFormed c.world.store
  keyspace : c.world.store.view = ks
  writer : Carries (S := sig) w.rule written true (c.prog 0)
  quiet : Only Quiet (c.prog 1)
  reads : Reaches (SeesAt view) r.program (inputs 1) 0 (c.taken 1) (c.prog 1) (c.taken 1)

variable {ks : Keyspace} {view : ℕ → Keyspace} {written : Bool} {c c' : Threads (Fin 2) Response}
  {a : Act} {x : a.Resp}

lemma Stands.reader (h : Stands w r inputs ks view written c) (hu : Undue ks (inputs 1))
    (hview : view (c.taken 1) = ks) (hm : c.Moves World.act inputs 1 a x c') :
    Stands w r inputs ks view written c' := by
  obtain ⟨k, hk, hprog⟩ := hm.prog
  have ha := World.act_spec h.wellFormed hm.acts
  have hq := h.quiet
  rw [hk] at hq
  have hkeys : c'.world.store.view = c.world.store.view :=
    keyspace_of_quiet (h.keyspace ▸ hu : Undue c.world.store.view (inputs 1))
      (Obeys.next hq).1 ha.image
  have hr := h.reads
  rw [hk] at hr
  refine ⟨ha.wellFormed, hkeys.trans h.keyspace, hm.prog_of_ne (u := 0)
    (by decide) ▸ h.writer, ?_, ?_⟩
  · rw [hprog, Function.update_self]
    exact (Obeys.next hq).2 x trivial
  · rw [hprog, hm.taken, Function.update_self, Function.update_self]
    exact hr.tail (seesAt_of_spec (hview.trans h.keyspace.symm) ha.image)

lemma Stands.writes (h : Stands w r inputs ks view written c)
    (hm : c.Moves World.act inputs 0 a x c') :
    (w.writes a = false ∧ Stands w r inputs ks view written c') ∨
      (w.writes a = true ∧ written = false ∧ Stands w r inputs (w.effect ks) view true c') := by
  obtain ⟨k, hk, hprog⟩ := hm.prog
  have ha := World.act_spec h.wellFormed hm.acts
  have hw := h.writer
  rw [hk] at hw
  obtain ⟨written', hrule, hrest⟩ := hw.next
  have hwriter : Carries (S := sig) w.rule written' true (c'.prog 0) := by
    rw [hprog, Function.update_self]
    exact hrest x
  have hquiet : Only Quiet (c'.prog 1) := hm.prog_of_ne (u := 1) (by decide) ▸ h.quiet
  have hreads : Reaches (SeesAt view) r.program (inputs 1) 0 (c'.taken 1) (c'.prog 1)
      (c'.taken 1) := by
    rw [hm.prog_of_ne (by decide), hm.taken_of_ne (by decide)]
    exact h.reads
  rcases hrule with ⟨hp, rfl⟩ | ⟨hp, rfl, rfl⟩
  · refine .inl ⟨?_, ha.wellFormed, (keyspace_of_plumbing hp ha.image).trans h.keyspace, hwriter,
      hquiet, hreads⟩
    cases w <;> cases a <;> first | rfl | cases hp
  · refine .inr ⟨hp, rfl, ha.wellFormed, ?_, hwriter, hquiet, hreads⟩
    rw [← h.keyspace]
    exact w.keyspace_of_writes hp ha.image

/-- When the writer writes, it leaves alone all that the reader has read so far, or all that it
has still to read. -/
def Unhalved (w : Writer) (r : Reader) (inputs : Fin 2 → ℕ → Input) (c : Threads (Fin 2) Response)
    (t : Fin 2) : Prop :=
  t = 0 → ∀ a ∈ c.next World.act inputs 0, w.writes a = true →
    r.unhalved c.world.store.view (w.effect c.world.store.view) (r.read (c.taken 1))

lemma unhalved_of_not_writes {t : Fin 2}
    (h : ∀ a, t = 0 → c.next World.act inputs 0 = some a → w.writes a = false) :
    Unhalved w r inputs c t := by
  intro ht a ha hw
  rw [h a ht ha] at hw
  cases hw

lemma Stands.step (h : Stands w r inputs ks view written c) (hu : Undue ks (inputs 1))
    (hview : view (c.taken 1) = ks) (t : Fin 2) :
    (Stands w r inputs ks view written (c.step World.act inputs t) ∧ Unhalved w r inputs c t) ∨
      (t = 0 ∧ written = false ∧
      Stands w r inputs (w.effect ks) view true (c.step World.act inputs t) ∧
        (c.step World.act inputs t).taken 1 = c.taken 1 ∧
        (Unhalved w r inputs c t ↔ r.unhalved ks (w.effect ks) (r.read (c.taken 1)))) := by
  rcases c.step_cases World.act inputs t with ⟨hs, hn⟩ | ⟨a, x, hm⟩
  · rw [hs]
    refine .inl ⟨h, unhalved_of_not_writes ?_⟩
    rintro a rfl ha
    rw [hn] at ha
    cases ha
  have ht : t = 0 ∨ t = 1 := by omega
  rcases ht with rfl | rfl
  · rcases h.writes hm with ⟨hw, h'⟩ | ⟨hw, rfl, h'⟩
    · refine .inl ⟨h', unhalved_of_not_writes fun a' _ ha' => ?_⟩
      rw [hm.next] at ha'
      rwa [← Option.some.inj ha']
    · refine .inr ⟨rfl, rfl, h', hm.taken_of_ne (by decide), fun hq => ?_, fun hq _ _ _ _ => ?_⟩
      · exact h.keyspace ▸ hq rfl a hm.next hw
      · rwa [h.keyspace]
  · exact .inl ⟨h.reader hu hview hm, unhalved_of_not_writes fun a' ht _ => absurd ht (by decide)⟩

lemma taken_le_step (t u : Fin 2) : c.taken u ≤ (c.step World.act inputs t).taken u := by
  rcases c.step_cases World.act inputs t with ⟨hs, -⟩ | ⟨a, x, hm⟩
  · rw [hs]
  · rw [hm.taken, Function.update_apply]
    split_ifs with hu
    · rw [hu]
      omega
    · rfl

lemma Stands.after_written (hu : Undue ks (inputs 1)) (schedule : List (Fin 2)) :
    ∀ {c : Threads (Fin 2) Response}, Stands w r inputs ks view true c →
    (∀ j, c.taken 1 ≤ j → view j = ks) →
      Stands w r inputs ks view true (c.after World.act inputs schedule) ∧
        c.Along World.act inputs (Unhalved w r inputs) schedule := by
  induction schedule with
  | nil => exact fun h _ => ⟨h, trivial⟩
  | cons t ts ih =>
    intro c h hview
    rcases h.step hu (hview _ le_rfl) t with ⟨h', hq⟩ | ⟨-, hwritten, -⟩
    · obtain ⟨hend, hrest⟩ := ih h' fun j hj => hview j ((taken_le_step t 1).trans hj)
      exact ⟨hend, hq, hrest⟩
    · cases hwritten

lemma Stands.after_unwritten (hu : Undue ks (inputs 1)) (schedule : List (Fin 2)) :
    ∀ {c : Threads (Fin 2) Response}, Stands w r inputs ks (fun _ => ks) false c →
      Stands w r inputs ks (fun _ => ks) false (c.after World.act inputs schedule) ∨
        ∃ m, Stands w r inputs (w.effect ks) (fun j => if j < m then ks else w.effect ks) true
            (c.after World.act inputs schedule) ∧
          (c.Along World.act inputs (Unhalved w r inputs) schedule ↔
            r.unhalved ks (w.effect ks) (r.read m)) := by
  induction schedule with
  | nil => exact fun h => .inl h
  | cons t ts ih =>
    intro c h
    rcases h.step hu rfl t with ⟨h', hq⟩ | ⟨-, -, h', htaken, hq⟩
    · rcases ih h' with hend | ⟨m, hend, hiff⟩
      · exact .inl hend
      · refine .inr ⟨m, hend, ?_⟩
        rw [← hiff]
        exact and_iff_right hq
    · -- what the reader has read so far it has read before the change
      have hreads :=
        reaches_congr_view (fun j => if j < c.taken 1 then ks else w.effect ks) h'.reads
        fun j hj => (if_pos (htaken ▸ hj)).symm
      obtain ⟨hend, hrest⟩ := Stands.after_written (undue_effect hu) ts
        ⟨h'.wellFormed, h'.keyspace, h'.writer, h'.quiet, hreads⟩ fun j hj => if_neg (by omega)
      refine .inr ⟨c.taken 1, hend, ?_⟩
      rw [← hq]
      exact and_iff_left hrest

lemma Stands.start (w : Writer) (r : Reader) (inputs : Fin 2 → ℕ → Input) {s : Store}
    (hs : WellFormed s) :
    Stands w r inputs s.view (fun _ => s.view) false
      (.start ⟨s, .free _⟩ ![w.program, r.program]) :=
  ⟨hs, rfl, w.carries, r.quiet, .refl _ _ _⟩

lemma Reader.exec_reply (r : Reader) {s : Store} {inputs : ℕ → Input} (hs : WellFormed s)
    (hu : Undue s.view inputs) :
    (exec r.program inputs s).1 = r.reply (r.keys.map fun key => r.shows (s.view key)) := by
  have hruns := seesAt_of_runs (k := 0) r.quiet rfl hu (exec_image r.program inputs s hs)
  have hall :=
    mapIdx_switch (fun key => r.shows (s.view key)) (fun key => r.shows (s.view key)) r.keys 0
  simp only [ite_self, List.take_zero, List.map_nil, List.nil_append, List.drop_zero] at hall
  rw [r.runs (fun _ => hu) hruns]
  exact congrArg r.reply hall

lemma Writer.exec_view (w : Writer) {s : Store} {inputs : ℕ → Input} (hs : WellFormed s) :
    (exec w.program inputs s).2.2.view = w.effect s.view :=
  w.runs w.carries rfl (exec_image w.program inputs s hs)

/-- What a reader replies is the reply of a moment before the writer or after it, exactly when
the writer has not come between a key it changes that was read and one that was still to be read. -/
theorem reader_sees_moment_iff (w : Writer) (r : Reader) (inputs : Fin 2 → ℕ → Input) (s : Store)
    (hs : WellFormed s) (hu : Undue s.view (inputs 1)) (schedule : List (Fin 2))
    (done reply : Response) :
    let c : Threads (Fin 2) Response := .start ⟨s, .free _⟩ ![w.program, r.program]
    (c.after World.act inputs schedule).result 0 = some done →
    (c.after World.act inputs schedule).result 1 = some reply →
    ((reply = (exec r.program (inputs 1) s).1 ∨
        reply = (exec r.program (inputs 1) (exec w.program (inputs 0) s).2.2).1) ↔
      c.Along World.act inputs (Unhalved w r inputs) schedule) := by
  intro c hdone hreply
  rw [Config.result_eq_some] at hdone hreply
  have hu' : Undue (w.effect s.view) (inputs 1) := undue_effect hu
  have hafter :=
    r.exec_reply (exec_wellFormed w.program (inputs 0) s hs) ((w.exec_view hs).symm ▸ hu')
  rw [w.exec_view hs] at hafter
  rw [r.exec_reply hs hu, hafter]
  rcases (Stands.start w r inputs hs).after_unwritten hu schedule with hend | ⟨m, hend, hiff⟩
  · -- the writer is not done before it has written
    have hw := hend.writer
    rw [hdone] at hw
    cases hw
  · have hreads := hend.reads
    rw [hreply] at hreads
    rw [hiff, r.runs_switch hu hu' hreads, r.mixed_iff (oneWay_effect w s.view)]

def clockAtZero : Fin 2 → ℕ → Input := fun _ _ => ⟨0, .stored⟩

def twoKeys : Store :=
  (exec (Writer.mset [([97], [49]), ([98], [50])]).program (clockAtZero 0) Store.new).2.2

def deletedWhileCounted : Threads (Fin 2) Response :=
  .start
    ⟨twoKeys, .free _⟩ ![(Writer.del [[97], [98]]).program, (Reader.exists_ [[97], [98]]).program]

lemma wellFormed_twoKeys : WellFormed twoKeys := exec_wellFormed _ _ _ new_wellFormed

lemma undue_twoKeys : Undue twoKeys.view (clockAtZero 1) := by
  rw [twoKeys, Writer.exec_view _ new_wellFormed]
  exact undue_effect fun key it hk => by cases hk

theorem reader_sees_moment_afterDel :
    let schedule : List (Fin 2) := [1, 0, 0, 0, 0, 0, 0, 0, 0, 0, 1, 1]
    WellFormed twoKeys ∧ Undue twoKeys.view (clockAtZero 1) ∧
      (deletedWhileCounted.after World.act clockAtZero schedule).result 0 = some [.integer 2] ∧
      (deletedWhileCounted.after World.act clockAtZero schedule).result 1 = some [.integer 0] ∧
      deletedWhileCounted.Along World.act clockAtZero
        (Unhalved (.del [[97], [98]]) (.exists_ [[97], [98]]) clockAtZero) schedule := by
  intro schedule
  have hdone : (deletedWhileCounted.after World.act clockAtZero schedule).result 0 =
    some [.integer 2] := by decide +kernel
  have hreply : (deletedWhileCounted.after World.act clockAtZero schedule).result 1 =
    some [.integer 0] := by decide +kernel
  refine ⟨wellFormed_twoKeys, undue_twoKeys, hdone, hreply, ?_⟩
  exact (reader_sees_moment_iff (.del [[97], [98]]) (.exists_ [[97], [98]]) clockAtZero twoKeys
    wellFormed_twoKeys undue_twoKeys schedule _ _ hdone hreply).1 (.inr (by decide +kernel))

/-- The count is of one key, though there were two before the deletion and none after it. -/
theorem del_seen_halfway :
    let schedule : List (Fin 2) := [1, 1, 0, 0, 0, 0, 0, 0, 0, 0, 0, 1]
    (deletedWhileCounted.after World.act clockAtZero schedule).result 0 = some [.integer 2] ∧
      (deletedWhileCounted.after World.act clockAtZero schedule).result 1 = some [.integer 1] ∧
      (exec (Reader.exists_ [[97], [98]]).program (clockAtZero 1) twoKeys).1 = [.integer 2] ∧
      (exec (Reader.exists_ [[97], [98]]).program (clockAtZero 1)
        (exec (Writer.del [[97], [98]]).program (clockAtZero 0) twoKeys).2.2).1 = [.integer 0] := by
  decide +kernel

end Run

end RedisClone.Server
