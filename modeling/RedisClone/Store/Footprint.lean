import RedisClone.Store.Reads

namespace RedisClone.Store

open Lib Lib.Program Lib.Decimal

def Act.plumbing : Act → Bool
  | .now | .config | .lockDurableMutation | .unlockDurableMutation | .lockShard _ | .unlockShard _
  | .propagate _ => true
  | _ => false

def Act.stores : Act → Bool
  | .set _ _ _ | .mset _ | .expireAt _ _ _ => true
  | _ => false

inductive Op.Touches : Op → Act → Prop
  | plumbing {o : Op} {a : Act} (h : a.plumbing = true) : Touches o a
  | getRead (key : Key) (time : ℤ) : Touches (.get key) (.getRead key time)
  | getCollect (key : Key) : Touches (.get key) (.getCollect key)
  | set (key : Key) (val : Bytes) : Touches (.set key val) (.set key val none)
  | setTTL (key : Key) (val : Bytes) (d : ℤ) (time : ℤ) (h : 0 < d) :
      Touches (.setWithTTL key val d) (.set key val (some (time + d)))
  | delTTL (key : Key) (val : Bytes) (d : ℤ) (time : ℤ) (h : d ≤ 0) :
      Touches (.setWithTTL key val d) (.del [key] time)
  | setDeadline (key : Key) (val : Bytes) (deadline : Time) :
      Touches (.setWithDeadline key val deadline) (.set key val deadline)
  | delDeadline (key : Key) (val : Bytes) (deadline : Time) (time : ℤ) :
      Touches (.setWithDeadline key val deadline) (.del [key] time)
  | mset (pairs : List (Key × Bytes)) : Touches (.mset pairs) (.mset pairs)
  | incrementLookup (key : Key) (delta : Int64) : Touches (.increment key delta) (.lookup key)
  | incrementDelete (key : Key) (delta : Int64) : Touches (.increment key delta) (.delete key)
  | incrementSet (key : Key) (delta : Int64) (n : ℤ) (h : inInt64 n = true) (expiresAt : Time) :
      Touches (.increment key delta) (.set key (formatInt n) expiresAt)
  | appendLookup (key : Key) (suffix : Bytes) : Touches (.append key suffix) (.lookup key)
  | appendDelete (key : Key) (suffix : Bytes) : Touches (.append key suffix) (.delete key)
  | appendSet (key : Key) (suffix val : Bytes) (expiresAt : Time) :
      Touches (.append key suffix) (.set key (val ++ suffix) expiresAt)
  | expire (key : Key) (d now' time : ℤ) :
      Touches (.expire key d) (.expireAt key (some (now' + d)) time)
  | expireAt (key : Key) (deadline : Time) (time : ℤ) :
      Touches (.expireAt key deadline) (.expireAt key deadline time)
  | ttl (key : Key) : Touches (.ttl key) (.lookup key)
  | del (keys : List Key) (time : ℤ) : Touches (.del keys) (.del keys time)
  | exists_ (keys : List Key) (key : Key) (h : key ∈ keys) : Touches (.exists_ keys) (.lookup key)
  | dbSize (i : ShardId) (time : ℤ) : Touches .dbSize (.shardLive i time)

section Walks

variable {P : Act → Prop} {Q : (a : Act) → a.Resp → Prop} {α : Type}

lemma within_answer {a : Act} {f : a.Resp → Prog α} (ha : P a)
    (hf : ∀ r, Q a r → Within P Q (f r)) : Within P Q (invoke a >>= f) := Obeys.act ha hf

lemma within_act {a : Act} {f : a.Resp → Prog α} (ha : P a) (hf : ∀ r, Within P Q (f r)) :
    Within P Q (invoke a >>= f) := Obeys.act ha fun r _ => hf r

lemma within_last {a : Act} (ha : P a) : Within P Q (invoke a) :=
  Obeys.act ha fun _ _ => .done trivial

lemma within_map {β : Type} {p : Prog β} (hp : Within P Q p) (f : β → α) : Within P Q (f <$> p) :=
  Obeys.map f hp

lemma obeys_deleteIfExpired {key : Key} (h : P (.delete key)) (now : ℤ) {e : Option Entry}
    (he : Q (.lookup key) e) :
    Obeys P Q (fun e => e = none ∨ Q (.lookup key) e) (deleteIfExpired key now e) := by
  cases e with
  | none => exact .done (.inl rfl)
  | some e =>
    simp only [Store.deleteIfExpired]
    split_ifs
    · exact Obeys.act h fun _ _ => .done (.inl rfl)
    · exact .done (.inr he)

lemma within_sumShards {N : Type} [Add N] {subtotal : ShardId → Prog N}
    (hs : ∀ i, Within P Q (subtotal i)) (ids : List ShardId) :
    ∀ n, Within P Q (sumShards subtotal ids n) := by
  induction ids with
  | nil => exact fun n => .done n
  | cons i ids ih => exact fun n => (hs i).bind fun m => ih (n + m)

lemma within_used (h : ∀ i, P (.shardUsed i)) : Within P Q used :=
  within_sumShards (fun i => within_last (a := .shardUsed i) (h i)) _ _

lemma within_countExisting (now : ℤ) {keys : List Key} (h : ∀ key ∈ keys, P (.lookup key)) :
    ∀ n, Within P Q (countExisting now keys n) := by
  induction keys with
  | nil => exact fun n => .done n
  | cons key keys ih =>
    have hrest := ih fun key' hk => h key' (List.mem_cons_of_mem key hk)
    refine fun n => within_act (h key List.mem_cons_self) fun r => ?_
    cases r <;> exact hrest _

lemma within_sampleShards (h : ∀ i sample, P (.sampleShard i sample)) (ids : List ShardId) :
    ∀ sample, Within P Q (sampleShards ids sample) := by
  induction ids with
  | nil => exact fun _ => .done _
  | cons i ids ih =>
    refine fun sample => within_act (h i sample) fun r => ?_
    cases r with
    | victim key => exact .done _
    | more sample' =>
      simp only
      split_ifs
      · exact .done _
      · exact ih sample'

lemma within_expireShards {now : ℤ} (h : ∀ i n scanned, P (.expireShard i now n scanned)) (n : ℕ)
    (ids : List ShardId) :
    ∀ scanned expired, Within P Q (expireShards now n ids scanned expired) := by
  induction ids with
  | nil => exact fun _ _ => .done _
  | cons i ids ih =>
    intro scanned expired
    simp only [expireShards]
    split_ifs
    · exact .done _
    · exact within_act (h i n scanned) fun _ => ih _ _

lemma within_expireRounds (hnow : P .now) (htick : P .tick)
    (hexpire : ∀ i time n scanned, P (.expireShard i time n scanned)) (rounds : ℕ) :
    ∀ scanned expired, Within P Q (expireRounds rounds scanned expired) := by
  have hsample (n : ℕ) : Within P Q (expireSample n) :=
    within_act (a := .now) hnow fun now => within_act htick fun _ => within_expireShards
      (hexpire · now) n _ 0 0
  induction rounds with
  | zero => exact fun _ _ => .done _
  | succ rounds ih =>
    refine fun scanned expired => (hsample _).bind fun r => ?_
    simp only
    split_ifs
    · exact .done _
    · exact ih _ _

lemma within_activeExpireCycle (hnow : P .now) (htick : P .tick)
    (hexpire : ∀ i time n scanned, P (.expireShard i time n scanned)) :
    Within P Q activeExpireCycle := within_expireRounds hnow htick hexpire _ 0 0

lemma within_aofSnapshot (hnow : P .now) (hlen : ∀ i, P (.shardLen i))
    (hsnapshot : ∀ i time, P (.shardSnapshot i time)) : Within P Q aofSnapshot := by
  have hshards (now : ℤ) (ids : List ShardId) : ∀ out, Within P Q (snapshotShards now ids out) := by
    induction ids with
    | nil => exact fun _ => .done _
    | cons i ids ih => exact fun out => within_act (hsnapshot i now) fun _ => ih _
  have hall : Within P Q len :=
    within_sumShards (fun i => within_last (a := .shardLen i) (hlen i)) _ _
  exact within_act (a := .now) hnow fun now => hall.bind fun _ => hshards now allShards []

structure Plumbed (P : Act → Prop) : Prop where
  plumbing : ∀ a : Act, a.plumbing = true → P a

namespace Plumbed

variable (hP : Plumbed P)

include hP

lemma act {a : Act} {f : a.Resp → Prog α} (ha : a.plumbing = true) (hf : ∀ r, Within P Q (f r)) :
    Within P Q (invoke a >>= f) :=
  within_act (hP.plumbing a ha) hf

lemma last {a : Act} (ha : a.plumbing = true) : Within P Q (invoke a) :=
  within_last (hP.plumbing a ha)

lemma lockAll (ids : List ShardId) : Within P Q (lockAll ids) := by
  induction ids with
  | nil => exact .done ()
  | cons i ids ih => exact hP.act (a := .lockShard i) rfl fun _ => ih

lemma unlockAll (ids : List ShardId) : Within P Q (unlockAll ids) := by
  induction ids with
  | nil => exact .done ()
  | cons i ids ih => exact hP.act (a := .unlockShard i) rfl fun _ => ih

lemma lockWriteShards (keys : List Key) : Within P Q (lockWriteShards keys) :=
  (hP.lockAll _).bind fun _ => .done _

lemma setLocked {key : Key} {val : Bytes} {expiresAt : Time} (h : P (.set key val expiresAt)) :
    Within P Q (setLocked key val expiresAt) :=
      within_act h fun _ => hP.last (a := .propagate _) rfl

lemma setTo {key : Key} {val : Bytes} {expiresAt : Time} (h : P (.set key val expiresAt)) :
    Within P Q (setTo key val expiresAt) :=
  hP.act (a := .lockDurableMutation) rfl fun _ => (hP.setLocked h).bind fun _ =>
    hP.last (a := .unlockDurableMutation) rfl

lemma del {keys : List Key} (h : ∀ time, P (.del keys time)) : Within P Q (del keys) := by
  have hrest (n : ℕ) (ids : List ShardId) : Within P Q (invoke .unlockDurableMutation >>= fun _ =>
      unlockWriteShards ids >>= fun _ => (pure n : Prog ℕ)) :=
    hP.act (a := .unlockDurableMutation) rfl fun _ => (hP.unlockAll _).bind fun _ => .done _
  refine hP.act (a := .now) rfl fun now => hP.act (a := .lockDurableMutation) rfl fun _ => ?_
  refine (hP.lockWriteShards keys).bind fun ids => within_act (h now) fun r => ?_
  by_cases hr : r.2 = []
  · simpa [hr] using hrest r.1 ids
  · simpa [hr] using hP.act (a := .propagate (cmdDEL :: r.2)) rfl fun _ => hrest r.1 ids

lemma expireAt {key : Key} {deadline : Time} (h : ∀ time, P (.expireAt key deadline time)) :
    Within P Q (expireAt key deadline) := by
  have hrest (b : Bool) : Within P Q (invoke (.unlockShard (shardIndex key)) >>= fun _ =>
      invoke .unlockDurableMutation >>= fun _ => (pure b : Prog Bool)) :=
    hP.act (a := .unlockShard _) rfl fun _ => hP.act (a := .unlockDurableMutation) rfl
      fun _ => .done _
  refine hP.act (a := .now) rfl fun now => hP.act (a := .lockDurableMutation) rfl fun _ => ?_
  refine hP.act (a := .lockShard _) rfl fun _ => within_act (h now) fun answer => ?_
  cases answer with
  | missing => exact hrest false
  | collected => exact hP.act (a := .propagate [cmdDEL, key]) rfl fun _ => hrest false
  | deleted => exact hP.act (a := .propagate [cmdDEL, key]) rfl fun _ => hrest true
  | kept d =>
    exact hP.act (a := .propagate [cmdPEXPIREAT, key, unixMillis d]) rfl fun _ => hrest true

lemma setWithTTL {key : Key} {val : Bytes} {d : ℤ}
    (hset : 0 < d → ∀ time, Q .now time → P (.set key val (some (time + d))))
    (hdel : d ≤ 0 → ∀ time, P (.del [key] time)) : Within P Q (setWithTTL key val d) := by
  simp only [Store.setWithTTL]
  split_ifs with hd
  · exact (hP.del (hdel hd)).bind fun _ => .done _
  · exact within_answer (hP.plumbing .now rfl) fun now hnow => hP.setTo
      (hset (not_le.1 hd) now hnow)

lemma setWithDeadline {key : Key} {val : Bytes} {deadline : Time} (hset : P (.set key val deadline))
    (hdel : ∀ time, P (.del [key] time)) : Within P Q (setWithDeadline key val deadline) := by
  refine hP.act (a := .now) rfl fun now => ?_
  split_ifs
  · exact hP.setTo hset
  · exact (hP.del hdel).bind fun _ => .done _

lemma mset {pairs : List (Key × Bytes)} (h : P (.mset pairs)) : Within P Q (mset pairs) := by
  refine hP.act (a := .lockDurableMutation) rfl fun _ => (hP.lockWriteShards _).bind
    fun ids => within_act h fun _ => ?_
  exact hP.act (a := .propagate _) rfl fun _ => hP.act (a := .unlockDurableMutation) rfl
    fun _ => hP.unlockAll _

lemma increment {key : Key} {delta : Int64} (hlookup : P (.lookup key)) (hdelete : P (.delete key))
    (hset : ∀ n, inInt64 n = true → ∀ e, e = none ∨ Q (.lookup key) e →
      P (.set key (formatInt n) (deadlineOf e))) :
    Within P Q (increment key delta) := by
  refine hP.act (a := .now) rfl fun now => hP.act (a := .lockDurableMutation) rfl
    fun _ => within_answer hlookup fun r hr => ?_
  refine (obeys_deleteIfExpired hdelete now hr).bind fun e he => ?_
  cases counterValue e with
  | none => exact hP.act (a := .unlockDurableMutation) rfl fun _ => .done _
  | some n =>
    simp only
    split_ifs
    · exact hP.act (a := .unlockDurableMutation) rfl fun _ => .done _
    · refine (hP.setLocked (hset _ (inInt64_wrap64 _) e he)).bind fun _ => ?_
      exact hP.act (a := .unlockDurableMutation) rfl fun _ => .done _

lemma append {key : Key} {suffix : Bytes} (hlookup : P (.lookup key)) (hdelete : P (.delete key))
    (hset : ∀ val e, e = none ∨ Q (.lookup key) e → P (.set key (val ++ suffix) (deadlineOf e))) :
    Within P Q (append key suffix) := by
  refine hP.act (a := .now) rfl fun now => hP.act (a := .lockDurableMutation) rfl
    fun _ => within_answer hlookup fun r hr => ?_
  refine (obeys_deleteIfExpired hdelete now hr).bind fun e he =>
    (hP.setLocked (hset _ e he)).bind fun _ => ?_
  exact hP.act (a := .unlockDurableMutation) rfl fun _ => .done _

lemma expire {key : Key} {d : ℤ}
    (h : ∀ now', Q .now now' → ∀ time, P (.expireAt key (some (now' + d)) time)) :
    Within P Q (expire key d) :=
      within_answer (hP.plumbing .now rfl) fun now hnow => hP.expireAt (h now hnow)

lemma evictLoop (hused : ∀ i, P (.shardUsed i)) (hsample : ∀ i sample, P (.sampleShard i sample))
    (hdelete : ∀ key, P (.delete key)) (hevicted : P .evicted) (maxMemory : ℤ) (fuel : ℕ) :
    ∀ evicted, Within P Q (evictLoop maxMemory fuel evicted) := by
  induction fuel with
  | zero => exact fun _ => .done _
  | succ fuel ih =>
    refine fun evicted => (within_used hused).bind fun _ => ?_
    split_ifs
    · refine (within_sampleShards hsample allShards ⟨none, 0⟩).bind fun r => ?_
      cases r with
      | none => exact hP.act (a := .unlockDurableMutation) rfl fun _ => .done _
      | some key =>
        refine within_act (hdelete key) fun _ => within_act hevicted fun _ => ?_
        exact hP.act (a := .propagate [cmdDEL, key]) rfl fun _ => ih _
    · exact hP.act (a := .unlockDurableMutation) rfl fun _ => .done _

lemma enforceMemoryLimit (hused : ∀ i, P (.shardUsed i))
    (hsample : ∀ i sample, P (.sampleShard i sample)) (hdelete : ∀ key, P (.delete key))
    (hevicted : P .evicted) (fuel : ℕ) : Within P Q (enforceMemoryLimit fuel) := by
  refine hP.act (a := .config) rfl fun r => ?_
  simp only
  split
  · exact .done _
  · refine hP.act (a := .lockDurableMutation) rfl fun _ =>
      (within_used hused).bind fun _ => ?_
    split_ifs
    · exact hP.act (a := .unlockDurableMutation) rfl fun _ => .done _
    · exact hP.act (a := .unlockDurableMutation) rfl fun _ => .done _
    · exact hP.evictLoop hused hsample hdelete hevicted _ fuel 0

end Plumbed

end Walks

lemma Op.touches_program (o : Op) : Only o.Touches o.program := by
  have hP (o : Op) : Plumbed o.Touches := ⟨fun _ h => .plumbing h⟩
  cases o with
  | get key =>
    refine within_map
      ((hP _).act (a := .now) rfl fun now => within_act (.getRead key now) fun r => ?_) _
    cases r with
    | missing | hit => exact .done _
    | expired => exact within_act (.getCollect key) fun _ => .done _
  | set key val => exact within_map ((hP _).setTo (.set key val)) _
  | setWithTTL key val d =>
    exact within_map ((hP _).setWithTTL (fun hd time _ => .setTTL key val d time hd) fun hd time =>
      .delTTL key val d time hd) _
  | setWithDeadline key val deadline =>
    exact within_map
      ((hP _).setWithDeadline (.setDeadline key val deadline) (.delDeadline key val deadline)) _
  | mset pairs => exact within_map ((hP _).mset (.mset pairs)) _
  | increment key delta =>
    exact within_map ((hP _).increment (.incrementLookup key delta) (.incrementDelete key delta)
      fun n hn _ _ => .incrementSet key delta n hn _) _
  | append key suffix =>
    exact within_map ((hP _).append (.appendLookup key suffix) (.appendDelete key suffix)
      fun val _ _ => .appendSet key suffix val _) _
  | expire key d => exact within_map ((hP _).expire fun now' _ => .expire key d now') _
  | expireAt key deadline => exact within_map ((hP _).expireAt (.expireAt key deadline)) _
  | ttl key =>
    refine within_map ((hP _).act (a := .now) rfl fun now => within_act (.ttl key) fun r => ?_) _
    cases r with
    | none => exact .done _
    | some e =>
      simp only
      cases e.expiresAt <;> exact .done _
  | del keys => exact within_map ((hP _).del (.del keys)) _
  | exists_ keys =>
    refine within_map ((hP _).act (a := .now) rfl fun now => within_countExisting now
        (fun key hk => .exists_ keys key hk) 0) _
  | dbSize =>
    refine within_map ((hP _).act (a := .now) rfl fun now => ?_) _
    exact within_sumShards (fun i => within_last (a := .shardLive i now) (.dbSize i now)) _ _

section Settings

lemma delSection_settings (now : ℤ) (keys : List Key) : ∀ s : Store,
    (delSection now keys s).2.maxMemory = s.maxMemory ∧
    (delSection now keys s).2.policy = s.policy ∧ (delSection now keys s).2.stats = s.stats := by
  induction keys with
  | nil => exact fun s => ⟨rfl, rfl, rfl⟩
  | cons key keys ih =>
    intro s
    simp only [delSection]
    cases s.lookup key with
    | none => exact ih s
    | some e => exact ih (s.deleteLockedInWriteLockedShard key)

lemma msetSection_settings (pairs : List (Key × Bytes)) : ∀ s : Store,
    (s.msetSection pairs).maxMemory = s.maxMemory ∧ (s.msetSection pairs).policy = s.policy ∧
      (s.msetSection pairs).stats = s.stats := by
  induction pairs with
  | nil => exact fun s => ⟨rfl, rfl, rfl⟩
  | cons p pairs ih => exact fun s => ih (s.setLockedInWriteLockedShard p.1 p.2 none)

lemma expireAtSection_settings (s : Store) (key : Key) (deadline : Time) (now : ℤ) :
    (s.expireAtSection key deadline now).2.maxMemory = s.maxMemory ∧
      (s.expireAtSection key deadline now).2.policy = s.policy ∧
      (s.expireAtSection key deadline now).2.stats = s.stats := by
  unfold expireAtSection
  cases s.lookup key with
  | none => exact ⟨rfl, rfl, rfl⟩
  | some e =>
    simp only
    split_ifs
    · exact ⟨rfl, rfl, rfl⟩
    · cases deadline with
      | none => exact ⟨rfl, rfl, rfl⟩
      | some d =>
        simp only
        split_ifs <;> exact ⟨rfl, rfl, rfl⟩

lemma getCollectSection_settings (s : Store) (key : Key) (now : ℤ) :
    (s.getCollectSection key now).maxMemory = s.maxMemory ∧
    (s.getCollectSection key now).policy = s.policy ∧
      (s.getCollectSection key now).stats = s.stats := by
  unfold getCollectSection
  cases s.lookup key with
  | none => exact ⟨rfl, rfl, rfl⟩
  | some e =>
    simp only
    split_ifs <;> exact ⟨rfl, rfl, rfl⟩

end Settings

end RedisClone.Store
