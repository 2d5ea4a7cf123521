import RedisClone.Store.CommitRule
import RedisClone.Store.CommitOrder

/-! The store of a process whose threads keep to the rule on commits: the keyspace is ahead of the
journal by at most one change, and whoever has made that one holds `commitMu`. -/

namespace RedisClone.Store

open Lib Lib.Program

def Act.made : (a : Act) → a.Resp → Option Mutation
  | .set key val expiresAt, _ => some (.put key val expiresAt)
  | .delete key, _ => some (.remove [key])
  | .mset pairs, _ => some (.putAll pairs)
  | .del _ _, r => if r.2 = [] then none else some (.remove r.2)
  | .expireAt key _ _, r => (Keyspace.expireMutations key r).head?
  | _, _ => none

def Act.leaves (due : Option Mutation) : (a : Act) → a.Resp → Option Mutation
  | .propagate _, _ => none
  | a, r => (a.made r).or due

section Made

variable {T : ℤ} {h : Stand} {a : Act} {r : a.Resp}

lemma Stand.allows_made (hok : h.allows T a) {m : Mutation} (hm : a.made r = some m) :
    h.gate = true ∧ h.due = none := by
  cases a with
  | set | delete => exact hok
  | mset | del | expireAt => exact ⟨hok.1, hok.2.1⟩
  | _ => exact absurd hm nofun

lemma Act.leaves_of_made {m : Mutation} (hm : a.made r = some m) (due : Option Mutation) :
    a.leaves due r = some m := by
  cases a with
  | set | delete | mset | del | expireAt => exact congrArg (Option.or · due) hm
  | _ => exact absurd hm nofun

lemma Act.leaves_of_not_made (hm : a.made r = none) (ha : ∀ record, a ≠ .propagate record)
    (due : Option Mutation) : a.leaves due r = due := by
  cases a with
  | propagate record => exact absurd rfl (ha record)
  | _ => exact (congrArg (Option.or · due) hm).trans (Option.none_or)

lemma Stand.next_due (hok : h.allows T a) : (h.next a r).due = a.leaves h.due r := by
  cases a with
  | set | delete | mset => rfl
  | del | expireAt =>
    rw [Act.leaves, hok.2.1, Option.or_none]
    · rfl
    · exact nofun
  | shardSnapshot i time =>
    obtain ⟨-, todo, records, hc⟩ := hok
    simp only [Stand.next, hc]
    rfl
  | _ => rfl

lemma Stand.next_gate (hlock : a ≠ .lockDurableMutation) (hunlock : a ≠ .unlockDurableMutation) :
    (h.next a r).gate = h.gate := by
  cases a with
  | lockDurableMutation => exact absurd rfl hlock
  | unlockDurableMutation => exact absurd rfl hunlock
  | shardSnapshot i time =>
    simp only [Stand.next]
    split <;> rfl
  | _ => rfl

lemma Stand.next_shards (hlock : ∀ i, a ≠ .lockShard i) (hunlock : ∀ i, a ≠ .unlockShard i) :
    (h.next a r).shards = h.shards := by
  cases a with
  | lockShard i => exact absurd rfl (hlock i)
  | unlockShard i => exact absurd rfl (hunlock i)
  | shardSnapshot i time =>
    simp only [Stand.next]
    split <;> rfl
  | _ => rfl

lemma Stand.next_copying (hread : ∀ i time, a ≠ .shardSnapshot i time) :
    (h.next a r).copying = h.copying := by
  cases a with
  | shardSnapshot i time => exact absurd rfl (hread i time)
  | _ => rfl

lemma ActSpec.rounded {i : Input} {w w' : Image} (hs : ActSpec a i r w w')
    (hl : w.keyspace.Lively T) (hi : i.time ≤ T) (hok : h.allows T a) :
    w'.keyspace.rounded = mutations.replay (a.made r).toList w.keyspace.rounded := by
  rw [replay_mutations]
  cases a with
  | propagate record =>
    obtain rfl := actSpec_propagate.1 hs
    rfl
  | getCollect key =>
    obtain rfl := actSpec_getCollect.1 hs
    exact congrArg Keyspace.rounded (hl.collect hi key)
  | set key val expiresAt =>
    obtain rfl := actSpec_set.1 hs
    exact Keyspace.rounded_put _ _ _ _
  | delete key =>
    obtain rfl := actSpec_delete.1 hs
    exact Keyspace.rounded_remove _ _
  | mset pairs =>
    obtain rfl := actSpec_mset.1 hs
    exact Keyspace.rounded_putAll _ _
  | del keys time =>
    obtain ⟨rfl, rfl⟩ := actSpec_del.1 hs
    have hd := w.keyspace.delEffect_applied keys time
    simp only [Keyspace.delEffect] at hd
    simp only [Act.made]
    rw [← hd]
    split_ifs <;> rfl
  | expireAt key deadline time =>
    obtain ⟨rfl, rfl⟩ := actSpec_expireAt.1 hs
    have he := w.keyspace.expireEffect_applied key deadline time
    simp only [Keyspace.expireEffect] at he
    simp only [Act.made]
    rw [← he]
    cases (w.keyspace.expireKey key deadline time).1 <;> rfl
  | expireShard j time n scanned =>
    obtain ⟨hc, -⟩ := actSpec_expireShard.1 hs
    exact congrArg Keyspace.rounded (hl.collected hok hc)
  | _ =>
    obtain rfl := ActSpec.unchanged rfl hs
    rfl

end Made

def Mutation.Covered (shards : Finset ShardId) : Mutation → Prop
  | .put _ _ _ | .remove [_] => True
  | .putAll pairs => ∀ p ∈ pairs, shardIndex p.1 ∈ shards
  | .remove keys => ∀ key ∈ keys, shardIndex key ∈ shards
  | .touch key _ => shardIndex key ∈ shards

lemma Mutation.covered_remove {shards : Finset ShardId} {keys : List Key}
    (h : ∀ key ∈ keys, shardIndex key ∈ shards) : (Mutation.remove keys).Covered shards := by
  match keys, h with
  | [], h => exact h
  | [_], _ => exact trivial
  | _ :: _ :: _, h => exact h

lemma Mutation.Covered.mono {shards shards' : Finset ShardId} (hs : shards ⊆ shards') {m : Mutation}
    (h : m.Covered shards) : m.Covered shards' := by
  match m, h with
  | .put _ _ _, _ | .remove [_], _ => exact trivial
  | .putAll _, h => exact fun p hp => hs (h p hp)
  | .remove [], h => exact fun key hk => hs (h key hk)
  | .remove (_ :: _ :: _), h => exact fun key hk => hs (h key hk)
  | .touch _ _, h => exact hs h

lemma Mutation.Covered.alone {shards : Finset ShardId} {m : Mutation} (h : m.Covered shards)
    {k : Key} (hk : shardIndex k ∉ shards) : m.change k = .keep ∨ Logbook.Alone mutations m k := by
  have hsingle (P : Key → Change Item ℤ) (key : Key)
      (hP : m.change = fun k => if k = key then P k else .keep) : m.change k = .keep ∨
          Logbook.Alone mutations m k := by
    by_cases he : k = key
    · refine .inr fun k' hk' => ?_
      rw [mutations_change, hP]
      exact if_neg (he ▸ hk')
    · exact .inl (by rw [hP]; exact if_neg he)
  match m, h with
  | .put key val expiresAt, _ => exact hsingle _ key rfl
  | .touch key d, _ => exact hsingle _ key rfl
  | .remove [key], _ =>
    refine hsingle (fun _ => .assign none) key (funext fun k => ?_)
    simp only [Mutation.change, List.mem_singleton]
  | .remove [], _ => exact .inl rfl
  | .remove (key :: key' :: keys), h => exact .inl (if_neg fun hm => hk (h k hm))
  | .putAll pairs, h =>
    left
    suffices hfold : ∀ c : Change Item ℤ, pairs.foldl
      (fun c p => if k = p.1 then .assign (some ⟨p.2, none⟩) else c) c = c from hfold .keep
    have hne : ∀ p ∈ pairs, k ≠ p.1 := fun p hp he => hk (he ▸ h p hp)
    clear hsingle h
    induction pairs with
    | nil => exact fun _ => rfl
    | cons p pairs ih =>
      intro c
      rw [List.foldl_cons, if_neg (hne p List.mem_cons_self)]
      exact ih (fun q hq => hne q (List.mem_cons_of_mem p hq)) c

lemma Stand.covered_made {T : ℤ} {L : Limits} {h : Stand} {a : Act} {r : a.Resp}
    (hok : h.allows T a) (hr : L.Answers a r) {m : Mutation} (hm : a.made r = some m) :
    m.Covered h.shards := by
  cases a with
  | set | delete =>
    obtain rfl := Option.some.inj hm
    exact trivial
  | mset pairs =>
    obtain rfl := Option.some.inj hm
    exact hok.2.2
  | del keys time =>
    simp only [Act.made] at hm
    split_ifs at hm
    obtain rfl := Option.some.inj hm
    exact Mutation.covered_remove fun key hk => hok.2.2 key (hr.subset hk)
  | expireAt key deadline time =>
    cases r with
    | missing => exact absurd hm nofun
    | collected | deleted =>
      obtain rfl := Option.some.inj hm
      exact trivial
    | kept d =>
      obtain rfl := Option.some.inj hm
      exact hok.2.2
  | _ => exact absurd hm nofun

lemma Stand.covered_next {T : ℤ} {L : Limits} {h : Stand} {a : Act} {r : a.Resp}
    (hok : h.allows T a) (hr : L.Answers a r) (hcov : ∀ m ∈ h.due, m.Covered h.shards) :
    ∀ m ∈ (h.next a r).due, m.Covered (h.next a r).shards := by
  cases a with
  | set | delete | mset | del | expireAt => exact fun m hm => Stand.covered_made hok hr hm
  | propagate record => exact fun m hm => absurd hm (Option.not_mem_none m)
  | lockShard i => exact fun m hm => (hcov m hm).mono (Finset.subset_insert i h.shards)
  | unlockShard i => exact fun m hm => absurd (hok.2 ▸ hm) (Option.not_mem_none m)
  | shardSnapshot i time =>
    simp only [Stand.next]
    split <;> exact hcov
  | _ => exact hcov

section Locks

variable {ι : Type} {t : ι} {l l' : Locks ι} {a : Act}

lemma Act.inner_of_ne (hlock : a ≠ .lockDurableMutation) (hunlock : a ≠ .unlockDurableMutation) :
    a.inner := by
  cases a with
  | lockDurableMutation => exact absurd rfl hlock
  | unlockDurableMutation => exact absurd rfl hunlock
  | _ => exact trivial

lemma Locks.after_lockShard {i : ShardId} (h : l.after t true (.lockShard i) = some l') :
    l.shards i = none ∧ l'.shards = Function.update l.shards i (some t) := by
  simp only [Locks.after] at h
  split_ifs at h with hg
  obtain rfl := Option.some.inj h
  exact ⟨Option.isNone_iff_eq_none.1 hg, rfl⟩

lemma Locks.after_unlockShard {i : ShardId} (h : l.after t true (.unlockShard i) = some l') :
    l'.shards = Function.update l.shards i none := by
  obtain rfl := Option.some.inj h
  rfl

lemma Locks.after_shards (hlock : ∀ i, a ≠ .lockShard i) (hunlock : ∀ i, a ≠ .unlockShard i)
    (h : l.after t true a = some l') : l'.shards = l.shards := by
  cases a with
  | lockShard i => exact absurd rfl (hlock i)
  | unlockShard i => exact absurd rfl (hunlock i)
  | lockDurableMutation =>
    simp only [Locks.after, if_true] at h
    split_ifs at h
    obtain rfl := Option.some.inj h
    rfl
  | unlockDurableMutation =>
    obtain rfl := Option.some.inj h
    rfl
  | _ =>
    simp only [Locks.after] at h
    split_ifs at h
    obtain rfl := Option.some.inj h
    rfl

end Locks

section Standing

variable {ι : Type} {T : ℤ} {L : Limits}

/-- The keyspace is `now`, and the journal has yet to get `due`. -/
structure Standing (L : Limits) (hs : ι → Stand) (now : Keyspace) (due : Option Mutation)
    (w : World ι) : Prop where
  wellFormed : WellFormed w.store
  journal : w.store.journal.isSome = true
  kept : L.Kept w.store.image
  view : w.store.view.rounded = now
  gate : ∀ t, (hs t).gate = true ↔ w.locks.gate = some t
  shards : ∀ t, ∀ i ∈ (hs t).shards, w.locks.shards i = some t
  open_ : ∀ t, (hs t).due = if (hs t).gate then due else none
  free : w.locks.gate = none → due = none
  covered : ∀ t, ∀ m ∈ (hs t).due, m.Covered (hs t).shards

variable {hs : ι → Stand} {now : Keyspace} {due : Option Mutation} {w : World ι} {t : ι}

lemma Standing.due_of_gate (hS : Standing L hs now due w) (hg : (hs t).gate = true) :
    (hs t).due = due := by
  rw [hS.open_ t, if_pos hg]

lemma Standing.gate_unique (hS : Standing L hs now due w) {u : ι} (ht : (hs t).gate = true)
    (hu : (hs u).gate = true) : u = t :=
  Option.some.inj (((hS.gate u).1 hu).symm.trans ((hS.gate t).1 ht))

lemma Standing.holder (hS : Standing L hs now due w) {m : Mutation} (hm : due = some m) :
    ∃ u, (hs u).due = some m := by
  cases hg : w.locks.gate with
  | none => exact absurd (hm.symm.trans (hS.free hg)) (Option.some_ne_none m)
  | some u => exact ⟨u, (hS.due_of_gate ((hS.gate u).2 hg)).trans hm⟩

lemma Standing.dumps (hL : ∀ d, L.deadline d → T < floorMilli d) (hS : Standing L hs now due w)
    {i : ShardId} {time : ℤ} (htime : time ≤ T) {records : List Record}
    (hrecords : ∃ keys : List Key, keys.Nodup ∧
      (∀ key, key ∈ keys ↔ shardIndex key = i ∧ w.store.view.Live time key) ∧
        records = keys.map w.store.view.record) :
    ∃ dump : List Mutation, Logbook.Dumps mutations shardIndex i now dump ∧
    (∀ m ∈ dump, L.Logged m.record) ∧ records = dump.map Mutation.record := by
  obtain ⟨keys, -, hkeys, rfl⟩ := hrecords
  have hrecord : ∀ key ∈ keys, (w.store.view.stored key).record = w.store.view.record key :=
    fun key hk => by
    obtain ⟨it, hit, -⟩ := ((hkeys key).1 hk).2
    exact Keyspace.stored_record hit
  refine ⟨keys.map w.store.view.stored, ?_, fun m hm => ?_, ?_⟩
  · rw [← hS.view]
    exact Keyspace.dumps_stored (lively_of_stored hL hS.kept.entries) htime hkeys
  · obtain ⟨key, hk, rfl⟩ := List.mem_map.1 hm
    rw [hrecord key hk]
    exact Limits.logged_record hS.kept ((hkeys key).1 hk).2
  · rw [List.map_map]
    exact List.map_congr_left fun key hk => (hrecord key hk).symm

lemma Stand.leaves_of_not_gate {h : Stand} {a : Act} {r : a.Resp} (hok : h.allows T a)
    (hg : h.gate = false) (due : Option Mutation) : a.leaves due r = due := by
  cases a with
  | propagate record => exact absurd (hg.symm.trans hok.1) Bool.false_ne_true
  | set | delete | mset | del | expireAt => exact absurd (hg.symm.trans hok.1) Bool.false_ne_true
  | _ => rfl

variable [DecidableEq ι] {a : Act} {i : Input} {r : a.Resp} {w' : World ι}

lemma Standing.gate_step (hS : Standing L hs now due w) (hok : (hs t).allows T a)
    (hl : w.locks.after t true a = some w'.locks) (u : ι) :
    (Function.update hs t ((hs t).next a r) u).gate = true ↔ w'.locks.gate = some u := by
  by_cases hlock : a = .lockDurableMutation
  · subst hlock
    obtain ⟨hfree, hgate, -⟩ := Locks.after_acquire hl
    rw [hgate]
    by_cases hu : u = t
    · subst hu
      simp [Stand.next]
    · rw [Function.update_of_ne hu, hS.gate u, hfree]
      simp [Ne.symm hu]
  · by_cases hunlock : a = .unlockDurableMutation
    · subst hunlock
      rw [(Locks.after_release hl).1]
      by_cases hu : u = t
      · subst hu
        simp [Stand.next]
      · rw [Function.update_of_ne hu]
        simp only [reduceCtorEq, iff_false]
        exact fun hg => hu (hS.gate_unique hok.1 hg)
    · rw [(Locks.after_other (Act.inner_of_ne hlock hunlock) hl).1, ← hS.gate u]
      by_cases hu : u = t
      · subst hu
        rw [Function.update_self, Stand.next_gate hlock hunlock]
      · rw [Function.update_of_ne hu]

lemma Standing.shards_step (hS : Standing L hs now due w) (hok : (hs t).allows T a)
    (hl : w.locks.after t true a = some w'.locks) (u : ι) :
    ∀ j ∈ (Function.update hs t ((hs t).next a r) u).shards, w'.locks.shards j = some u := by
  intro j hj
  by_cases hlock : ∃ i, a = .lockShard i
  · obtain ⟨i, rfl⟩ := hlock
    obtain ⟨hfree, hshards⟩ := Locks.after_lockShard hl
    rw [hshards]
    by_cases hu : u = t
    · subst hu
      rw [Function.update_self] at hj
      rcases Finset.mem_insert.1 hj with rfl | hj
      · exact Function.update_self ..
      · have hheld := hS.shards u j hj
        rw [Function.update_of_ne, hheld]
        rintro rfl
        exact absurd (hheld.symm.trans hfree) (Option.some_ne_none _)
    · rw [Function.update_of_ne hu] at hj
      have hheld := hS.shards u j hj
      rw [Function.update_of_ne, hheld]
      rintro rfl
      exact absurd (hheld.symm.trans hfree) (Option.some_ne_none _)
  · by_cases hunlock : ∃ i, a = .unlockShard i
    · obtain ⟨i, rfl⟩ := hunlock
      rw [Locks.after_unlockShard hl]
      by_cases hu : u = t
      · subst hu
        rw [Function.update_self] at hj
        obtain ⟨hne, hj⟩ := Finset.mem_erase.1 hj
        rw [Function.update_of_ne hne, hS.shards u j hj]
      · rw [Function.update_of_ne hu] at hj
        rw [Function.update_of_ne, hS.shards u j hj]
        rintro rfl
        exact hu (Option.some.inj ((hS.shards u j hj).symm.trans (hS.shards t j hok.1)))
    · rw [not_exists] at hlock hunlock
      rw [Locks.after_shards hlock hunlock hl]
      by_cases hu : u = t
      · subst hu
        rw [Function.update_self, Stand.next_shards hlock hunlock] at hj
        exact hS.shards u j hj
      · rw [Function.update_of_ne hu] at hj
        exact hS.shards u j hj

lemma Standing.due_step (hS : Standing L hs now due w) (hok : (hs t).allows T a)
    (hl : w.locks.after t true a = some w'.locks) (u : ι) :
    (Function.update hs t ((hs t).next a r) u).due =
      if (Function.update hs t ((hs t).next a r) u).gate then a.leaves due r else none := by
  by_cases hu : u = t
  · subst hu
    rw [Function.update_self, Stand.next_due hok]
    cases hg : (hs u).gate with
    | false =>
      have hnone : (hs u).due = none := by rw [hS.open_ u, hg]; rfl
      rw [Stand.leaves_of_not_gate hok hg, Stand.leaves_of_not_gate hok hg, hnone]
      by_cases hlock : a = .lockDurableMutation
      · subst hlock
        rw [hS.free (Locks.after_acquire hl).1, ite_self]
      · by_cases hunlock : a = .unlockDurableMutation
        · subst hunlock
          exact absurd (hg.symm.trans hok.1) Bool.false_ne_true
        · rw [Stand.next_gate hlock hunlock, hg]
          rfl
    | true =>
      rw [hS.due_of_gate hg]
      by_cases hunlock : a = .unlockDurableMutation
      · subst hunlock
        have hnone : due = none := (hS.due_of_gate hg).symm.trans hok.2
        rw [hnone]
        simp [Act.leaves, Act.made]
      · by_cases hlock : a = .lockDurableMutation
        · subst hlock
          exact absurd (hok.symm.trans hg) Bool.false_ne_true
        · rw [Stand.next_gate hlock hunlock, hg, if_pos rfl]
  · rw [Function.update_of_ne hu, hS.open_ u]
    split_ifs with hg
    · refine (Stand.leaves_of_not_gate hok ?_ due).symm
      rw [← Bool.not_eq_true]
      exact fun ht => hu (hS.gate_unique ht hg)
    · rfl

omit [DecidableEq ι] in
lemma Standing.free_step (hS : Standing L hs now due w) (hok : (hs t).allows T a)
    (hl : w.locks.after t true a = some w'.locks) (hfree : w'.locks.gate = none) :
    a.leaves due r = none := by
  by_cases hlock : a = .lockDurableMutation
  · subst hlock
    exact absurd ((Locks.after_acquire hl).2.1.symm.trans hfree) (Option.some_ne_none t)
  · by_cases hunlock : a = .unlockDurableMutation
    · subst hunlock
      exact (hS.due_of_gate hok.1).symm.trans hok.2
    · rw [(Locks.after_other (Act.inner_of_ne hlock hunlock) hl).1] at hfree
      have hg : (hs t).gate = false := by
        rw [← Bool.not_eq_true, hS.gate t, hfree]
        exact (Option.some_ne_none t).symm
      rw [Stand.leaves_of_not_gate hok hg, hS.free hfree]

lemma Standing.step (hL : ∀ d, L.deadline d → T < floorMilli d) (hS : Standing L hs now due w)
    (hok : (hs t).allows T a) (hask : L.Asks a) (hin : L.Admits w.store.view a) (hi : i.time ≤ T)
    (ha : World.act t a i w = some (r, w')) : Early T a r ∧ L.Answers a r ∧
      Standing L (Function.update hs t ((hs t).next a r)) (mutations.replay (a.made r).toList now)
        (a.leaves due r) w' := by
  have hacts := World.act_spec hS.wellFormed ha
  have hl := hacts.locks
  rw [hS.journal] at hl
  have hlively : w.store.view.Lively T := lively_of_stored hL hS.kept.entries
  obtain ⟨hkept, hanswer⟩ := Limits.kept_act hS.kept hask hin hacts.image
  refine ⟨hacts.image.early hlively hi, hanswer, ?_⟩
  refine ⟨hacts.wellFormed, ?_, hkept, ?_, hS.gate_step hok hl, hS.shards_step hok hl,
    hS.due_step hok hl, hS.free_step hok hl, fun u => ?_⟩
  · exact hacts.image.journal_isSome.trans hS.journal
  · exact (hacts.image.rounded hlively hi hok).trans (by rw [← hS.view]; rfl)
  · by_cases hu : u = t
    · subst hu
      rw [Function.update_self]
      exact Stand.covered_next hok hanswer (hS.covered u)
    · rw [Function.update_of_ne hu]
      exact hS.covered u

lemma Standing.copying (hS : Standing L hs now due w) (c : Copying) :
    Standing L (Function.update hs t { hs t with copying := c }) now due w := by
  have hsame (u : ι) : (Function.update hs t { hs t with copying := c } u).gate = (hs u).gate ∧
      (Function.update hs t { hs t with copying := c } u).shards = (hs u).shards ∧
      (Function.update hs t { hs t with copying := c } u).due = (hs u).due := by
    by_cases hu : u = t
    · subst hu
      rw [Function.update_self]
      exact ⟨rfl, rfl, rfl⟩
    · rw [Function.update_of_ne hu]
      exact ⟨rfl, rfl, rfl⟩
  refine { hS with gate := fun u => ?_, shards := fun u => ?_, open_ := fun u => ?_, covered :=
    fun u => ?_ }
  · rw [(hsame u).1]
    exact hS.gate u
  · rw [(hsame u).2.1]
    exact hS.shards u
  · rw [(hsame u).1, (hsame u).2.2]
    exact hS.open_ u
  · rw [(hsame u).2.1, (hsame u).2.2]
    exact hS.covered u

end Standing

end RedisClone.Store
