import RedisClone.Store.Footprint
import RedisClone.Lib.WeightedMap

namespace RedisClone.Store

open Lib Lib.Program

/-- How many entries a section takes out because their deadline has passed. The `delete` meant here
is the one an operation makes when it has found its key expired. -/
def Act.lapsed (a : Act) (i : Input) (s : Store) : ℕ :=
  match a with
  | .getCollect key => if (s.lookup key).any (·.expired i.time) then 1 else 0
  | .delete key => if (s.lookup key).isSome then 1 else 0
  | .del keys time => (delSection time keys s).1.2.length - (delSection time keys s).1.1
  | .expireAt key _ time => if (s.lookup key).any (·.expired time) then 1 else 0
  | .expireShard j time n scanned =>
    (s.shards j).data.keys.length -
      ((s.expireShardSection j time n scanned i.order).2.shards j).data.keys.length
  | _ => 0

def Act.overlooked (a : Act) (i : Input) (s : Store) : ℕ :=
  match a with
  | .expireShard _ _ _ _ => 0
  | a => a.lapsed i s

def Act.sampled (a : Act) (i : Input) (s : Store) : ℕ :=
  match a with
  | .expireShard j time n scanned => (Act.expireShard j time n scanned).lapsed i s
  | _ => 0

def Act.isGetRead : Act → Bool
  | .getRead _ _ => true
  | _ => false

namespace Call

def isGet : Call → Bool
  | .op (.get _) => true
  | _ => false

def lapsed (inputs : ℕ → Input) (s : Store) : Call → ℕ
  | .enforceMemoryLimit _ => 0
  | c => tally (S := sig) perform Act.lapsed c.program inputs s

def overlooked (inputs : ℕ → Input) (s : Store) : Call → ℕ
  | .enforceMemoryLimit _ => 0
  | c => tally (S := sig) perform Act.overlooked c.program inputs s

def stale (inputs : ℕ → Input) (s : Store) : Call → ℕ
  | .op (.get key) => if (s.lookup key).any (·.expired (inputs 0).time) then 1 else 0
  | _ => 0

end Call

def Reply.isValue : Reply → Bool
  | .answer (.value (some _)) => true
  | _ => false

/-- A store, and what has happened to it: the Gets made, those that returned a value, and the
entries removed because their deadline had passed. -/
structure Account where
  store : Store
  gets : ℕ
  values : ℕ
  lapsed : ℕ

def Account.call (a : Account) (c : Call × (ℕ → Input)) : Account :=
  let done := exec c.1.program c.2 a.store
  { store := done.2.2
    gets := a.gets + c.1.isGet.toNat
    values := a.values + done.1.isValue.toNat
    lapsed := a.lapsed + c.1.lapsed c.2 a.store }

def Account.after (a : Account) (calls : List (Call × (ℕ → Input))) : Account :=
  calls.foldl Account.call a

structure Account.Balanced (a : Account) : Prop where
  gets : a.store.stats.keyspaceHits + a.store.stats.keyspaceMisses = a.gets
  values : a.store.stats.keyspaceHits = a.values
  expired : a.store.stats.expiredKeys = a.lapsed

/-- No Get finds its key expired, and none but the sampler takes out an expired entry. -/
def Account.Clean (a : Account) : List (Call × (ℕ → Input)) → Prop
  | [] => True
  | c :: calls =>
    (c.1.stale c.2 a.store = 0 ∧ c.1.overlooked c.2 a.store = 0) ∧ (a.call c).Clean calls

section Sections

lemma Shard.expireKeys_length (now : ℤ) (n : ℕ) (keys : List Key) :
    ∀ (sh : Shard) (scanned expired : ℕ),
    (Shard.expireKeys now n keys sh scanned expired).1.data.keys.length +
      (Shard.expireKeys now n keys sh scanned expired).2.2 = sh.data.keys.length + expired := by
  induction keys with
  | nil => exact fun _ _ _ => rfl
  | cons key keys ih =>
    intro sh scanned expired
    simp only [Shard.expireKeys]
    split_ifs with hn
    · rfl
    · cases he : sh.data.lookup key with
      | none => exact ih _ _ _
      | some e =>
        simp only
        split_ifs
        · have hmem : key ∈ sh.data := AList.lookup_isSome.1 (by rw [he]; rfl)
          rw [ih, ← WeightedMap.length_erase hmem]
          dsimp only
          omega
        · exact ih _ _ _

lemma perform_expiredKeys (a : Act) (i : Input) (s : Store) :
    (perform a i s).2.stats.expiredKeys = s.stats.expiredKeys + a.sampled i s := by
  cases a with
  | expireShard j time n scanned =>
    have hlen := Shard.expireKeys_length time n (i.order.keys (s.shards j).expiring.keys)
      (s.shards j) scanned 0
    simp only [perform, expireShardSection, Act.sampled, Act.lapsed, updateShard,
      Function.update_self]
    omega
  | getRead key time =>
    simp only [perform, getReadSection, Act.sampled]
    split
    · rfl
    · split_ifs <;> rfl
  | getCollect key => exact congrArg Stats.expiredKeys (getCollectSection_settings s key i.time).2.2
  | expireAt key deadline time =>
    exact congrArg Stats.expiredKeys (expireAtSection_settings s key deadline time).2.2
  | del keys time => exact congrArg Stats.expiredKeys (delSection_settings time keys s).2.2
  | mset pairs => exact congrArg Stats.expiredKeys (msetSection_settings pairs s).2.2
  | _ => rfl

lemma Act.lapsed_eq (a : Act) (i : Input) (s : Store) :
    a.lapsed i s = a.sampled i s + a.overlooked i s := by
  cases a <;> simp only [Act.sampled, Act.overlooked, Nat.zero_add, Nat.add_zero]

lemma perform_lookups {a : Act} (ha : a.isGetRead = false) (i : Input) (s : Store) :
    (perform a i s).2.stats.keyspaceHits = s.stats.keyspaceHits ∧
    (perform a i s).2.stats.keyspaceMisses = s.stats.keyspaceMisses := by
  have hstats {s' : Store} (h : s'.stats = s.stats) : s'.stats.keyspaceHits = s.stats.keyspaceHits ∧
      s'.stats.keyspaceMisses = s.stats.keyspaceMisses := by
    rw [h]
    exact ⟨rfl, rfl⟩
  cases a with
  | getRead key time => cases ha
  | getCollect key => exact hstats (getCollectSection_settings s key i.time).2.2
  | expireAt key deadline time => exact hstats (expireAtSection_settings s key deadline time).2.2
  | del keys time => exact hstats (delSection_settings time keys s).2.2
  | mset pairs => exact hstats (msetSection_settings pairs s).2.2
  | _ => exact ⟨rfl, rfl⟩

end Sections

section Calls

variable (inputs : ℕ → Input) (s : Store)

lemma exec_get_stats (key : Key) :
    let done := exec (get key) inputs s
    done.2.2.stats.keyspaceHits = s.stats.keyspaceHits + done.1.isSome.toNat ∧
      done.2.2.stats.keyspaceMisses + done.1.isSome.toNat + (Call.op (.get key)).stale inputs s =
      s.stats.keyspaceMisses + 1 := by
  intro done
  cases he : s.lookup key with
  | none =>
    have hdone :
        done = (none, 2, { s with stats.keyspaceMisses := s.stats.keyspaceMisses + 1 }) := by
      simp only [done, get, exec, invoke, call, act_bind, done_bind, run_act, perform,
        getReadSection, he, pure_eq, run_done]
    simp [hdone, Call.stale, he]
  | some e =>
    cases hx : e.expired (inputs 0).time with
    | false =>
      have hdone : done =
        (some e.val, 2, { s.updateShard (shardIndex key) ((s.readShard key).touch s.clock key) with
          stats.keyspaceHits := s.stats.keyspaceHits + 1 }) := by
        simp only [done, get, exec, invoke, call, act_bind, done_bind, run_act, perform,
          getReadSection, he, hx, Bool.false_eq_true, if_false, pure_eq, run_done]
      simp [hdone, Call.stale, he, hx, updateShard]
    | true =>
      have hdone : done = (none, 3, s.getCollectSection key (inputs 2).time) := by
        simp only [done, get, exec, invoke, call, act_bind, done_bind, run_act, perform,
          getReadSection, he, hx, if_true, shift_apply, pure_eq, run_done]
      have hstats : (s.getCollectSection key (inputs 2).time).stats = s.stats := by
        simp only [getCollectSection, he]
        split_ifs <;> rfl
      simp [hdone, Call.stale, he, hx, hstats]

lemma Op.no_getRead {o : Op} (ho : ∀ key, o ≠ .get key) :
    Only (fun a : Act => a.isGetRead = false) o.program := by
  refine Obeys.mono (fun a h => ?_) (fun _ _ h => h) (fun _ h => h) (Op.touches_program o)
  cases h with
  | plumbing h => cases a <;> first | rfl | cases h
  | getRead key time => exact absurd rfl (ho key)
  | _ => rfl

lemma Call.no_getRead {c : Call} (hc : c.isGet = false) :
    Only (fun a : Act => a.isGetRead = false) c.program := by
  cases c with
  | op o =>
    refine Only.map _ (Op.no_getRead ?_)
    rintro key rfl
    cases hc
  | activeExpireCycle => exact Only.map _ (within_activeExpireCycle rfl rfl fun _ _ _ _ => rfl)
  | enforceMemoryLimit fuel =>
    have hP : Plumbed fun a => a.isGetRead = false :=
      ⟨fun a ha => by cases a <;> first | rfl | cases ha⟩
    exact Only.map _ (hP.enforceMemoryLimit (fun _ => rfl) (fun _ _ => rfl) (fun _ => rfl) rfl fuel)

lemma call_isValue {c : Call} (hc : c.isGet = false) :
    (exec c.program inputs s).1.isValue = false := by
  cases c with
  | op o =>
    cases o with
    | get key => cases hc
    | _ =>
      simp only [Call.program, Op.program, exec_map]
      rfl
  | _ =>
    simp only [Call.program, exec_map]
    rfl

lemma Call.stale_eq_zero {c : Call} (hc : c.isGet = false) : c.stale inputs s = 0 := by
  cases c with
  | op o =>
    cases o with
    | get key => cases hc
    | _ => rfl
  | _ => rfl

lemma call_lookups (c : Call) :
    (exec c.program inputs s).2.2.stats.keyspaceHits = s.stats.keyspaceHits +
      (exec c.program inputs s).1.isValue.toNat ∧ (exec c.program inputs s).2.2.stats.keyspaceHits +
        (exec c.program inputs s).2.2.stats.keyspaceMisses + c.stale inputs s =
        s.stats.keyspaceHits + s.stats.keyspaceMisses + c.isGet.toNat := by
  cases hc : c.isGet with
  | false =>
    have hkeep {f : Stats → ℕ}
        (h : ∀ {a : Act}, a.isGetRead = false → ∀ i s, f (perform a i s).2.stats = f s.stats) :
        f (exec c.program inputs s).2.2.stats = f s.stats :=
      run_constant (S := sig) perform (f := fun s : Store => f s.stats) (fun a i s ha => h ha i s)
        (Call.no_getRead hc) inputs s
    rw [hkeep (f := Stats.keyspaceHits) fun ha i s => (perform_lookups ha i s).1,
      hkeep (f := Stats.keyspaceMisses) fun ha i s => (perform_lookups ha i s).2,
        call_isValue inputs s hc, Call.stale_eq_zero inputs s hc]
    exact ⟨rfl, rfl⟩
  | true =>
    obtain ⟨key, rfl⟩ : ∃ key, c = .op (.get key) := by
      cases c with
      | op o =>
        cases o with
        | get key => exact ⟨key, rfl⟩
        | _ => cases hc
      | _ => cases hc
    obtain ⟨hhits, hmisses⟩ := exec_get_stats inputs s key
    simp only [Call.program, Op.program, exec_map] at hhits hmisses ⊢
    have hvalue (r : Option Bytes) : (Reply.answer (.value r)).isValue = r.isSome := by
      cases r <;> rfl
    rw [hvalue, hhits]
    exact ⟨rfl, by simp only [Bool.toNat_true]; omega⟩

lemma enforce_expiredKeys (fuel : ℕ) :
    (exec (Call.enforceMemoryLimit fuel).program inputs s).2.2.stats.expiredKeys =
    s.stats.expiredKeys := by
  have hP : Plumbed fun a => ∀ i s, a.sampled i s = 0 :=
    ⟨fun a ha i s => by cases a <;> first | rfl | cases ha⟩
  have hp := hP.enforceMemoryLimit (Q := fun _ _ => True) (fun _ _ _ => rfl) (fun _ _ _ _ => rfl)
    (fun _ _ _ => rfl) (fun _ _ => rfl) fuel
  refine run_constant (S := sig) perform (f := fun s : Store => s.stats.expiredKeys)
    (fun a i s ha => ?_) (Only.map _ hp) inputs s
  rw [perform_expiredKeys, ha]
  rfl

lemma call_expired (c : Call) :
    (exec c.program inputs s).2.2.stats.expiredKeys + c.overlooked inputs s =
    s.stats.expiredKeys + c.lapsed inputs s := by
  have htally {p : Prog Reply} :
    (exec p inputs s).2.2.stats.expiredKeys + tally (S := sig) perform Act.overlooked p inputs s =
      s.stats.expiredKeys + tally (S := sig) perform Act.lapsed p inputs s := by
    have hcount : (exec p inputs s).2.2.stats.expiredKeys = s.stats.expiredKeys + tally
        (S := sig) perform Act.sampled p inputs s :=
      run_tally (S := sig) perform Act.sampled (f := fun s : Store => s.stats.expiredKeys)
        (fun a i s _ => perform_expiredKeys a i s) (Obeys.any p) inputs s
    have hlapsed : Act.lapsed = fun a i s => a.sampled i s + a.overlooked i s := by
      funext a i s
      exact a.lapsed_eq i s
    rw [hlapsed, tally_add (S := sig) perform Act.sampled Act.overlooked, hcount]
    omega
  cases c with
  | op o => exact htally
  | activeExpireCycle => exact htally
  | enforceMemoryLimit fuel => exact enforce_expiredKeys inputs s fuel

end Calls

section Runs

variable {a : Account}

structure Account.Lacks (a : Account) (lookups expired : ℕ) : Prop where
  gets : a.store.stats.keyspaceHits + a.store.stats.keyspaceMisses + lookups = a.gets
  values : a.store.stats.keyspaceHits = a.values
  expired : a.store.stats.expiredKeys + expired = a.lapsed

lemma Account.Lacks.call {m n : ℕ} (h : a.Lacks m n) (c : Call × (ℕ → Input)) :
    (a.call c).Lacks (m + c.1.stale c.2 a.store) (n + c.1.overlooked c.2 a.store) := by
  obtain ⟨hvalue, hget⟩ := call_lookups c.2 a.store c.1
  have hexpired := call_expired c.2 a.store c.1
  obtain ⟨h₁, h₂, h₃⟩ := h
  refine ⟨?_, ?_, ?_⟩ <;> simp only [Account.call] <;> omega

lemma Account.Lacks.balanced_iff {m n : ℕ} (h : a.Lacks m n) : a.Balanced ↔ m = 0 ∧ n = 0 := by
  obtain ⟨h₁, h₂, h₃⟩ := h
  refine ⟨fun hb => ?_, fun hz => ⟨?_, h₂, ?_⟩⟩
  · have hg := hb.gets
    have he := hb.expired
    omega
  · omega
  · omega

lemma Account.Lacks.after (calls : List (Call × (ℕ → Input))) :
    ∀ {a : Account} {m n : ℕ}, a.Lacks m n →
    ((a.after calls).Balanced ↔ (m = 0 ∧ n = 0) ∧ a.Clean calls) := by
  induction calls with
  | nil => exact fun h => h.balanced_iff.trans (and_iff_left trivial).symm
  | cons c calls ih =>
    intro a m n h
    refine (ih (h.call c)).trans ?_
    simp only [Account.Clean]
    constructor
    · rintro ⟨hz, hrest⟩
      exact ⟨by omega, by omega, hrest⟩
    · rintro ⟨hz, hc, hrest⟩
      exact ⟨by omega, hrest⟩

lemma Account.values_after (calls : List (Call × (ℕ → Input))) :
    ∀ {a : Account}, a.store.stats.keyspaceHits = a.values →
    (a.after calls).store.stats.keyspaceHits = (a.after calls).values := by
  induction calls with
  | nil => exact fun h => h
  | cons c calls ih =>
    intro a h
    refine ih ?_
    simp only [Account.call, (call_lookups c.2 a.store c.1).1, h]

end Runs

def Account.opened (journalled : Bool) (maxMemory : ℤ) (policy : EvictionPolicy) : Account :=
  ⟨configured journalled maxMemory policy, 0, 0, 0⟩

/-- The hits are always those Gets that returned a value. The rest of the account balances as long
as no Get finds its key expired and none but the sampler takes out an expired entry, and only as
long. -/
theorem info_counters_balance_iff (journalled : Bool) (maxMemory : ℤ) (policy : EvictionPolicy)
    (calls : List (Call × (ℕ → Input))) :
    let a := (Account.opened journalled maxMemory policy).after calls
    a.store.stats.keyspaceHits = a.values ∧
    (a.Balanced ↔ (Account.opened journalled maxMemory policy).Clean calls) := by
  have hopened : (Account.opened journalled maxMemory policy).Lacks 0 0 := by
    cases journalled <;> exact ⟨rfl, rfl, rfl⟩
  exact ⟨Account.values_after calls hopened.values, (hopened.after calls).trans
    (and_iff_right ⟨rfl, rfl⟩)⟩

/-- A key with a deadline, and a Get after it: no hit, no miss, and nothing counted as expired. -/
theorem info_counters_miss_lazyExpiry :
    let calls : List (Call × (ℕ → Input)) :=
      [(.op (.setWithTTL (ascii "k") (ascii "v") 5), clockAt 10),
        (.op (.get (ascii "k")), clockAt 20)]
    let a := (Account.opened false 0 .noEviction).after calls
    a.gets = 1 ∧ a.lapsed = 1 ∧ a.store.stats = ⟨0, 0, 0, 0⟩ ∧ ¬a.Balanced := by
  have hgets :
    ((Account.opened false 0 .noEviction).after
      [(.op (.setWithTTL (ascii "k") (ascii "v") 5), clockAt 10),
        (.op (.get (ascii "k")), clockAt 20)]).gets = 1 := by decide +kernel
  have hstats :
    ((Account.opened false 0 .noEviction).after
      [(.op (.setWithTTL (ascii "k") (ascii "v") 5), clockAt 10),
        (.op (.get (ascii "k")), clockAt 20)]).store.stats = ⟨0, 0, 0, 0⟩ := by decide +kernel
  refine ⟨hgets, by decide +kernel, hstats, fun h => ?_⟩
  have hlookups := h.gets
  rw [hgets, hstats] at hlookups
  exact absurd hlookups (by decide)

end RedisClone.Store
