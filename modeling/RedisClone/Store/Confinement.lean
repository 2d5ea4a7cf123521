import RedisClone.Lib.Confinement
import RedisClone.Store.Footprint
import RedisClone.Store.Serializable

namespace RedisClone.Store

open Lib Lib.Program Lib.Decimal

section Part

def Keyspace.only (keys : List Key) (ks : Keyspace) : Keyspace :=
  fun key => if keys.contains key then ks key else none

def Image.only (keys : List Key) (w : Image) : Image := ⟨w.keyspace.only keys, none⟩

namespace Keyspace

variable {keys : List Key} {ks : Keyspace} {key : Key}

lemma only_apply (h : key ∈ keys) (ks : Keyspace) : ks.only keys key = ks key :=
  if_pos (List.contains_iff_mem.2 h)

lemma only_eq_none (h : key ∉ keys) (ks : Keyspace) : ks.only keys key = none :=
  if_neg (mt List.contains_iff_mem.1 h)

lemma only_update (h : key ∈ keys) (ks : Keyspace) (it : Option Item) :
    only keys (Function.update ks key it) = Function.update (ks.only keys) key it := by
  funext key'
  by_cases hk : key' = key
  · subst hk
    rw [only_apply h, Function.update_self, Function.update_self]
  · simp only [only, Function.update_of_ne hk]

lemma only_update_of_notMem (h : key ∉ keys) (ks : Keyspace) (it : Option Item) :
    only keys (Function.update ks key it) = ks.only keys := by
  funext key'
  by_cases hk : key' ∈ keys
  · rw [only_apply hk, only_apply hk]
    exact Function.update_of_ne (ne_of_mem_of_not_mem hk h) _ _
  · rw [only_eq_none hk, only_eq_none hk]

lemma only_putAll (pairs : List (Key × Bytes)) :
    ∀ ks : Keyspace, (∀ key ∈ pairs.map Prod.fst, key ∈ keys) →
    (ks.putAll pairs).only keys = (ks.only keys).putAll pairs := by
  induction pairs with
  | nil => exact fun _ _ => rfl
  | cons p pairs ih =>
    intro ks h
    obtain ⟨hp, hpairs⟩ := List.forall_mem_cons.1 h
    rw [putAll, List.foldl_cons]
    refine (ih (ks.put p.1 p.2 none) hpairs).trans ?_
    rw [put, only_update hp]
    rfl

lemma only_putAll_of_notMem (pairs : List (Key × Bytes)) :
    ∀ ks : Keyspace, (∀ key ∈ pairs.map Prod.fst, key ∉ keys) →
    (ks.putAll pairs).only keys = ks.only keys := by
  induction pairs with
  | nil => exact fun _ _ => rfl
  | cons p pairs ih =>
    intro ks h
    obtain ⟨hp, hpairs⟩ := List.forall_mem_cons.1 h
    exact (ih (ks.put p.1 p.2 none) hpairs).trans (only_update_of_notMem hp ks _)

lemma only_removeAll (gone : List Key) : ∀ ks : Keyspace, (∀ key ∈ gone, key ∈ keys) →
    (ks.removeAll gone).only keys = (ks.only keys).removeAll gone := by
  induction gone with
  | nil => exact fun _ _ => rfl
  | cons key gone ih =>
    intro ks h
    obtain ⟨hk, hgone⟩ := List.forall_mem_cons.1 h
    rw [removeAll, List.foldl_cons]
    refine (ih (ks.remove key) hgone).trans ?_
    rw [remove, only_update hk]
    rfl

lemma only_removeAll_of_notMem (gone : List Key) : ∀ ks : Keyspace, (∀ key ∈ gone, key ∉ keys) →
    (ks.removeAll gone).only keys = ks.only keys := by
  induction gone with
  | nil => exact fun _ _ => rfl
  | cons key gone ih =>
    intro ks h
    obtain ⟨hk, hgone⟩ := List.forall_mem_cons.1 h
    exact (ih (ks.remove key) hgone).trans (only_update_of_notMem hk ks _)

lemma deleted_only (now : ℤ) (gone : List Key) : ∀ ks : Keyspace, (∀ key ∈ gone, key ∈ keys) →
    deleted now gone (ks.only keys) = deleted now gone ks := by
  induction gone with
  | nil => exact fun _ _ => rfl
  | cons key gone ih =>
    intro ks h
    obtain ⟨hk, hgone⟩ := List.forall_mem_cons.1 h
    simp only [deleted, only_apply hk]
    cases ks key with
    | none => exact ih ks hgone
    | some it => simp only [remove, ← only_update hk, ih _ hgone]

lemma readAnswer_only (h : key ∈ keys) (ks : Keyspace) (now : ℤ) :
    (ks.only keys).readAnswer key now = ks.readAnswer key now := by
  rw [readAnswer, readAnswer, only_apply h]

lemma only_collect (h : key ∈ keys) (ks : Keyspace) (now : ℤ) :
    (ks.collect key now).only keys = (ks.only keys).collect key now := by
  simp only [collect, only_apply h]
  split_ifs
  · exact only_update h ks none
  · rfl

lemma only_collect_of_notMem (h : key ∉ keys) (ks : Keyspace) (now : ℤ) :
    (ks.collect key now).only keys = ks.only keys := by
  simp only [collect]
  split_ifs
  · exact only_update_of_notMem h ks none
  · rfl

lemma only_collected {now : ℤ} {ks' : Keyspace} (h : ks.Collected now ks') :
    (ks.only keys).Collected now (ks'.only keys) := by
  intro key
  by_cases hk : key ∈ keys
  · rw [only_apply hk, only_apply hk]
    exact h key
  · exact .inl ((only_eq_none hk _).trans (only_eq_none hk _).symm)

lemma expireKey_only (h : key ∈ keys) (ks : Keyspace) (deadline : Time) (now : ℤ) :
    (ks.only keys).expireKey key deadline now =
      ((ks.expireKey key deadline now).1, (ks.expireKey key deadline now).2.only keys) := by
  simp only [expireKey, only_apply h]
  cases ks key with
  | none => rfl
  | some it =>
    simp only [remove, put]
    split_ifs
    · rw [only_update h]
    · cases deadline with
      | none => simp only [only_update h]
      | some d =>
        simp only
        split_ifs
        · rw [only_update h]
        · rw [only_update h]

lemma only_expireKey_of_notMem (h : key ∉ keys) (ks : Keyspace) (deadline : Time) (now : ℤ) :
    (ks.expireKey key deadline now).2.only keys = ks.only keys := by
  simp only [expireKey]
  cases ks key with
  | none => rfl
  | some it =>
    simp only [remove, put]
    split_ifs
    · exact only_update_of_notMem h ks _
    · cases deadline with
      | none => exact only_update_of_notMem h ks _
      | some d =>
        simp only
        split_ifs
        · exact only_update_of_notMem h ks _
        · exact only_update_of_notMem h ks _

end Keyspace

end Part

section Sections

def Act.keys : Act → List Key
  | .getRead key _ | .getCollect key | .lookup key | .set key _ _ | .delete key
  | .expireAt key _ _ => [key]
  | .mset pairs => pairs.map Prod.fst
  | .del keys _ => keys
  | _ => []

def Act.keyed : Act → Bool
  | .getRead _ _ | .getCollect _ | .lookup _ | .set _ _ _ | .delete _ | .expireAt _ _ _ | .mset _
  | .del _ _ => true
  | a => a.plumbing

structure Act.Inside (keys : List Key) (a : Act) : Prop where
  keyed : a.keyed = true
  keys : ∀ key ∈ a.keys, key ∈ keys

/-- The section has to do with none of the keys, and collects what has expired by the time `T`. -/
structure Act.Beside (keys : List Key) (T : ℤ) (a : Act) : Prop where
  keys : ∀ key ∈ a.keys, key ∉ keys
  early : ∀ i now n scanned, a = .expireShard i now n scanned → now ≤ T

variable {keys : List Key} {a : Act} {i : Input} {r : a.Resp} {w w' : Image}

lemma ActSpec.only (ha : a.Inside keys) (h : ActSpec a i r w w') :
    ActSpec a i r (w.only keys) (w'.only keys) := by
  have hkeys := ha.keys
  cases a with
  | now => exact ⟨h.1, congrArg _ h.2⟩
  | getRead key now =>
    have hk := hkeys key (List.mem_singleton_self key)
    exact ⟨h.1.trans (Keyspace.readAnswer_only hk _ _).symm, congrArg _ h.2⟩
  | lookup key =>
    have hk := hkeys key (List.mem_singleton_self key)
    exact ⟨h.1.trans (Keyspace.only_apply hk _).symm, congrArg _ h.2⟩
  | getCollect key =>
    rw [actSpec_getCollect] at h ⊢
    rw [h, Image.only, Keyspace.only_collect (hkeys key (List.mem_singleton_self key))]
    rfl
  | set key val expiresAt =>
    rw [actSpec_set] at h ⊢
    rw [h, Image.only, Keyspace.put, Keyspace.only_update (hkeys key (List.mem_singleton_self key))]
    rfl
  | delete key =>
    rw [actSpec_delete] at h ⊢
    rw [h, Image.only, Keyspace.remove, Keyspace.only_update
      (hkeys key (List.mem_singleton_self key))]
    rfl
  | mset pairs =>
    rw [actSpec_mset] at h ⊢
    rw [h, Image.only, Keyspace.only_putAll pairs _ hkeys]
    rfl
  | del gone now =>
    rw [actSpec_del] at h ⊢
    refine ⟨h.1.trans (Keyspace.deleted_only now gone _ hkeys).symm, ?_⟩
    rw [h.2, Image.only, Keyspace.only_removeAll gone _ hkeys]
    rfl
  | expireAt key deadline now =>
    rw [actSpec_expireAt] at h ⊢
    have hk :=
      Keyspace.expireKey_only (hkeys key (List.mem_singleton_self key)) w.keyspace deadline now
    change r = ((w.keyspace.only keys).expireKey key deadline now).1 ∧
      w'.only keys = (⟨((w.keyspace.only keys).expireKey key deadline now).2, none⟩ : Image)
    rw [hk, h.2]
    exact ⟨h.1, rfl⟩
  | propagate record =>
    rw [actSpec_propagate] at h ⊢
    rw [h]
    rfl
  | config | lockDurableMutation | unlockDurableMutation | lockShard | unlockShard =>
    exact congrArg _ h
  | _ => exact absurd ha.keyed Bool.false_ne_true

lemma ActSpec.only_eq {T : ℤ} (ha : a.Beside keys T) (hw : (w.keyspace.only keys).Lively T)
    (h : ActSpec a i r w w') : w'.only keys = w.only keys := by
  have hkeys := ha.keys
  cases a with
  | getCollect key =>
    rw [actSpec_getCollect] at h
    rw [h, Image.only, Keyspace.only_collect_of_notMem (hkeys key (List.mem_singleton_self key))]
    rfl
  | set key val expiresAt =>
    rw [actSpec_set] at h
    rw [h, Image.only, Keyspace.put, Keyspace.only_update_of_notMem
      (hkeys key (List.mem_singleton_self key))]
    rfl
  | delete key =>
    rw [actSpec_delete] at h
    rw [h, Image.only, Keyspace.remove, Keyspace.only_update_of_notMem
      (hkeys key (List.mem_singleton_self key))]
    rfl
  | mset pairs =>
    rw [actSpec_mset] at h
    rw [h, Image.only, Keyspace.only_putAll_of_notMem pairs _ hkeys]
    rfl
  | del gone now =>
    rw [actSpec_del] at h
    rw [h.2, Image.only, Keyspace.only_removeAll_of_notMem gone _ hkeys]
    rfl
  | expireAt key deadline now =>
    rw [actSpec_expireAt] at h
    rw [h.2, Image.only, Keyspace.only_expireKey_of_notMem
      (hkeys key (List.mem_singleton_self key))]
    rfl
  | expireShard j now n scanned =>
    rw [Image.only, hw.collected (ha.early j now n scanned rfl) (Keyspace.only_collected h.1)]
    rfl
  | propagate record =>
    rw [actSpec_propagate] at h
    rw [h]
    rfl
  | _ => rw [ActSpec.unchanged rfl h]

def Alike : (a : Act) → a.Resp → a.Resp → Prop
  | .lookup _, r, r' => r.map Entry.item = r'.map Entry.item
  | _, r, r' => r = r'

lemma alike_of_actSpec (ha : a.keyed = true) (hconfig : a ≠ .config) {r' : a.Resp} {w₁ w₂ : Image}
    (h : ActSpec a i r w w₁) (h' : ActSpec a i r' w w₂) : Alike a r r' ∧ w₁ = w₂ := by
  cases a with
  | now | getRead | del | expireAt => exact ⟨h.1.trans h'.1.symm, h.2.trans h'.2.symm⟩
  | lookup key => exact ⟨h.1.trans h'.1.symm, h.2.trans h'.2.symm⟩
  | getCollect | set | delete | mset | propagate | lockDurableMutation | unlockDurableMutation
  | lockShard | unlockShard =>
    exact ⟨rfl, Eq.trans h h'.symm⟩
  | config => exact absurd rfl hconfig
  | _ => exact absurd ha Bool.false_ne_true

end Sections

section Operations

def Op.keys : Op → List Key
  | .get key | .set key _ | .setWithTTL key _ _ | .setWithDeadline key _ _ | .increment key _
  | .append key _ | .expire key _
  | .expireAt key _ | .ttl key => [key]
  | .mset pairs => pairs.map Prod.fst
  | .del keys | .exists_ keys => keys
  | .dbSize => []

lemma Op.Touches.keys {o : Op} {a : Act} (h : o.Touches a) : ∀ key ∈ a.keys, key ∈ o.keys := by
  cases h with
  | plumbing h =>
    cases a with
    | now | config | lockDurableMutation | unlockDurableMutation | lockShard
    | unlockShard | propagate =>
      exact fun _ hk => absurd hk List.not_mem_nil
    | _ => exact absurd h Bool.false_ne_true
  | exists_ keys key hk => exact List.forall_mem_singleton.2 hk
  | dbSize => exact fun _ hk => absurd hk List.not_mem_nil
  | _ => exact fun _ hk => hk

lemma Op.Touches.keyed {o : Op} {a : Act} (h : o.Touches a) (ho : o ≠ .dbSize) :
    a.keyed = true := by
  cases h with
  | plumbing h =>
    cases a with
    | now | config | lockDurableMutation | unlockDurableMutation | lockShard | unlockShard
    | propagate => rfl
    | _ => exact absurd h Bool.false_ne_true
  | dbSize => exact absurd rfl ho
  | _ => rfl

variable {α : Type}

lemma heedless_act {a : Act} (ha : ∀ key, a ≠ .lookup key) {f : a.Resp → Prog α}
    (hf : ∀ r, Heedless (S := sig) Alike (f r)) : Heedless (S := sig) Alike (invoke a >>= f) := by
  refine .act hf fun r r' h => congrArg f ?_
  cases a with
  | lookup key => exact absurd rfl (ha key)
  | _ => exact h

lemma heedless_of_only {p : Prog α} (hp : Only (fun a : Act => ∀ key, a ≠ .lookup key) p) :
    Heedless (S := sig) Alike p := by
  unfold Only at hp
  induction hp with
  | done _ => exact .done _
  | act ha _ ih => exact heedless_act ha fun r => ih r trivial

lemma heedless_lookup {key : Key} {f : Option Entry → Prog α}
    (hf : ∀ e, Heedless (S := sig) Alike (f e))
    (h : ∀ val expiresAt atime atime', f (some ⟨val, atime, expiresAt⟩) =
      f (some ⟨val, atime', expiresAt⟩)) :
    Heedless (S := sig) Alike (invoke (.lookup key) >>= f) := by
  refine .act hf fun (r : Option Entry) (r' : Option Entry)
    (hr : r.map Entry.item = r'.map Entry.item) => ?_
  cases r with
  | none =>
    cases r' with
    | none => rfl
    | some e' => cases hr
  | some e =>
    cases r' with
    | none => cases hr
    | some e' =>
      obtain ⟨val, atime, expiresAt⟩ := e
      obtain ⟨val', atime', expiresAt'⟩ := e'
      obtain ⟨rfl, rfl⟩ := Item.mk.inj (Option.some.inj hr)
      exact h val expiresAt atime atime'

lemma heedless_last {a : Act} (ha : ∀ key, a ≠ .lookup key) :
    Heedless (S := sig) Alike (invoke a) := heedless_act ha .done

lemma heedless_lockAll (ids : List ShardId) : Heedless (S := sig) Alike (lockAll ids) := by
  induction ids with
  | nil => exact .done _
  | cons i ids ih => exact heedless_act (a := .lockShard i) (fun _ => Act.noConfusion) fun _ => ih

lemma heedless_unlockAll (ids : List ShardId) : Heedless (S := sig) Alike (unlockAll ids) := by
  induction ids with
  | nil => exact .done _
  | cons i ids ih => exact heedless_act (a := .unlockShard i) (fun _ => Act.noConfusion) fun _ => ih

lemma heedless_lockWriteShards (keys : List Key) :
    Heedless (S := sig) Alike (lockWriteShards keys) :=
  (heedless_lockAll _).bind fun _ => .done _

lemma heedless_setLocked (key : Key) (val : Bytes) (expiresAt : Time) :
    Heedless (S := sig) Alike (setLocked key val expiresAt) :=
  heedless_act (a := .set key val expiresAt) (fun _ => Act.noConfusion) fun _ => heedless_last
    fun _ => Act.noConfusion

lemma heedless_setTo (key : Key) (val : Bytes) (expiresAt : Time) :
    Heedless (S := sig) Alike (setTo key val expiresAt) :=
  heedless_act (a := .lockDurableMutation) (fun _ => Act.noConfusion) fun _ =>
    (heedless_setLocked key val expiresAt).bind fun _ => heedless_last fun _ => Act.noConfusion

lemma heedless_del (keys : List Key) : Heedless (S := sig) Alike (del keys) := by
  refine heedless_act (a := .now) (fun _ => Act.noConfusion) fun now => ?_
  refine heedless_act (a := .lockDurableMutation) (fun _ => Act.noConfusion) fun _ => ?_
  refine (heedless_lockWriteShards keys).bind fun ids => ?_
  refine heedless_act (a := .del keys now) (fun _ => Act.noConfusion) fun r => ?_
  have hrest (n : ℕ) : Heedless (S := sig) Alike (invoke .unlockDurableMutation >>= fun _ =>
      unlockWriteShards ids >>= fun _ => (pure n : Prog ℕ)) :=
    heedless_act (a := .unlockDurableMutation) (fun _ => Act.noConfusion) fun _ =>
      (heedless_unlockAll _).bind fun _ => .done _
  obtain ⟨n, removed⟩ := r
  simp only
  split_ifs
  · exact heedless_act (a := .propagate _) (fun _ => Act.noConfusion) fun _ => hrest n
  · exact hrest n

lemma heedless_expireAt (key : Key) (deadline : Time) :
    Heedless (S := sig) Alike (expireAt key deadline) := by
  refine heedless_act (a := .now) (fun _ => Act.noConfusion) fun now => ?_
  refine heedless_act (a := .lockDurableMutation) (fun _ => Act.noConfusion) fun _ => ?_
  refine heedless_act (a := .lockShard _) (fun _ => Act.noConfusion) fun _ => ?_
  refine heedless_act (a := .expireAt key deadline now) (fun _ => Act.noConfusion) fun answer => ?_
  have hrest (b : Bool) :
      Heedless (S := sig) Alike (invoke (.unlockShard (shardIndex key)) >>= fun _ =>
      invoke .unlockDurableMutation >>= fun _ => (pure b : Prog Bool)) :=
    heedless_act (a := .unlockShard _) (fun _ => Act.noConfusion) fun _ =>
      heedless_act (a := .unlockDurableMutation) (fun _ => Act.noConfusion) fun _ => .done _
  cases answer with
  | missing => exact hrest _
  | _ => exact heedless_act (a := .propagate _) (fun _ => Act.noConfusion) fun _ => hrest _

lemma heedless_deleteIfExpired (key : Key) (now : ℤ) (e : Option Entry) :
    Heedless (S := sig) Alike (deleteIfExpired key now e) := by
  cases e with
  | none => exact .done _
  | some e =>
    simp only [deleteIfExpired]
    split_ifs
    · exact heedless_act (a := .delete key) (fun _ => Act.noConfusion) fun _ => .done _
    · exact .done _

lemma heedless_lookupLive {key : Key} {now : ℤ} {f : Option Entry → Prog α}
    (hf : ∀ e, Heedless (S := sig) Alike (f e))
    (h : ∀ val expiresAt atime atime', f (some ⟨val, atime, expiresAt⟩) =
      f (some ⟨val, atime', expiresAt⟩)) :
    Heedless (S := sig) Alike
      (invoke (.lookup key) >>= fun e => deleteIfExpired key now e >>= f) := by
  refine heedless_lookup (fun e => (heedless_deleteIfExpired key now e).bind hf)
    fun val expiresAt atime atime' => ?_
  have hexpired (atime : ℕ) : (⟨val, atime, expiresAt⟩ : Entry).expired now =
    expiredAt expiresAt now := rfl
  simp only [deleteIfExpired, hexpired]
  cases expiredAt expiresAt now with
  | true => rfl
  | false => exact h val expiresAt atime atime'

lemma heedless_increment (key : Key) (delta : Int64) :
    Heedless (S := sig) Alike (increment key delta) := by
  refine heedless_act (a := .now) (fun _ => Act.noConfusion) fun now => ?_
  refine heedless_act (a := .lockDurableMutation) (fun _ => Act.noConfusion) fun _ => ?_
  refine heedless_lookupLive (fun e => ?_) fun _ _ _ _ => rfl
  have hunlock (r : Option ℤ) : Heedless (S := sig) Alike
      (invoke .unlockDurableMutation >>= fun _ => (pure r : Prog (Option ℤ))) :=
    heedless_act (a := .unlockDurableMutation) (fun _ => Act.noConfusion) fun _ => .done _
  cases counterValue e with
  | none => exact hunlock none
  | some n =>
    simp only
    split_ifs
    · exact hunlock none
    · exact (heedless_setLocked _ _ _).bind fun _ => hunlock _

lemma heedless_append (key : Key) (suffix : Bytes) :
    Heedless (S := sig) Alike (append key suffix) := by
  refine heedless_act (a := .now) (fun _ => Act.noConfusion) fun now => ?_
  refine heedless_act (a := .lockDurableMutation) (fun _ => Act.noConfusion) fun _ => ?_
  refine heedless_lookupLive (fun e => ?_) fun _ _ _ _ => rfl
  exact (heedless_setLocked _ _ _).bind fun _ => heedless_act (a := .unlockDurableMutation)
    (fun _ => Act.noConfusion) fun _ => .done _

lemma heedless_countExisting (now : ℤ) (keys : List Key) :
    ∀ n, Heedless (S := sig) Alike (countExisting now keys n) := by
  induction keys with
  | nil => exact fun n => .done n
  | cons key keys ih =>
    refine fun n => heedless_lookup (fun e => ?_) fun _ _ _ _ => rfl
    cases e with
    | none => exact ih n
    | some e => exact ih _

lemma heedless_sumShards {N : Type} [Add N] {subtotal : ShardId → Prog N}
    (h : ∀ i, Heedless (S := sig) Alike (subtotal i)) (ids : List ShardId) :
    ∀ n, Heedless (S := sig) Alike (sumShards subtotal ids n) := by
  induction ids with
  | nil => exact fun n => .done n
  | cons i ids ih => exact fun n => (h i).bind fun m => ih _

lemma heedless_get (key : Key) : Heedless (S := sig) Alike (get key) := by
  refine heedless_act (a := .now) (fun _ => Act.noConfusion) fun now => ?_
  refine heedless_act (a := .getRead key now) (fun _ => Act.noConfusion) fun answer => ?_
  cases answer with
  | missing | hit => exact .done _
  | expired => exact heedless_act (a := .getCollect key) (fun _ => Act.noConfusion) fun _ => .done _

lemma heedless_ttl (key : Key) : Heedless (S := sig) Alike (ttl key) := by
  refine heedless_act (a := .now) (fun _ => Act.noConfusion) fun now => heedless_lookup
    (fun e => ?_) fun _ _ _ _ => rfl
  cases e with
  | none => exact .done _
  | some e =>
    simp only
    cases e.expiresAt <;> exact .done _

lemma heedless_exists (keys : List Key) : Heedless (S := sig) Alike (exists_ keys) :=
  heedless_act (a := .now) (fun _ => Act.noConfusion) fun now => heedless_countExisting now keys 0

lemma heedless_dbSize : Heedless (S := sig) Alike dbSize :=
  heedless_act (a := .now) (fun _ => Act.noConfusion) fun now =>
    heedless_sumShards
      (fun i => heedless_last (a := .shardLive i now) fun _ => Act.noConfusion) allShards 0

lemma Op.heedless (o : Op) : Heedless (S := sig) Alike o.program := by
  cases o with
  | get key => exact Heedless.map _ (heedless_get key)
  | set key val => exact Heedless.map _ (heedless_setTo key val none)
  | setWithTTL key val d =>
    refine Heedless.map _ ?_
    simp only [Store.setWithTTL]
    split_ifs
    · exact (heedless_del [key]).bind fun _ => .done _
    · exact heedless_act (a := .now) (fun _ => Act.noConfusion) fun now => heedless_setTo key val _
  | setWithDeadline key val deadline =>
    refine Heedless.map _ (heedless_act (a := .now) (fun _ => Act.noConfusion) fun now => ?_)
    split_ifs
    · exact heedless_setTo key val deadline
    · exact (heedless_del [key]).bind fun _ => .done _
  | mset pairs =>
    refine Heedless.map _
      (heedless_act (a := .lockDurableMutation) (fun _ => Act.noConfusion) fun _ => ?_)
    refine (heedless_lockWriteShards _).bind fun ids => heedless_act (a := .mset pairs)
      (fun _ => Act.noConfusion) fun _ => ?_
    refine heedless_act (a := .propagate _) (fun _ => Act.noConfusion) fun _ => ?_
    exact heedless_act (a := .unlockDurableMutation) (fun _ => Act.noConfusion)
      fun _ => heedless_unlockAll _
  | increment key delta => exact Heedless.map _ (heedless_increment key delta)
  | append key suffix => exact Heedless.map _ (heedless_append key suffix)
  | expire key d =>
    exact Heedless.map _
      (heedless_act (a := .now) (fun _ => Act.noConfusion) fun now => heedless_expireAt key _)
  | expireAt key deadline => exact Heedless.map _ (heedless_expireAt key deadline)
  | ttl key => exact Heedless.map _ (heedless_ttl key)
  | del keys => exact Heedless.map _ (heedless_del keys)
  | exists_ keys => exact Heedless.map _ (heedless_exists keys)
  | dbSize => exact Heedless.map _ heedless_dbSize

end Operations

end RedisClone.Store
