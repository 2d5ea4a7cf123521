import RedisClone.Lib.Recency
import RedisClone.Server.Overshoot
import RedisClone.Server.Readback

/-! Goroutines that write at the same time under a memory limit. Each looks at the shards one after
the other before it writes, and what it finds is out of date when it does. -/

namespace RedisClone.Store

open Lib Lib.Program

section Shards

def usedIn (s : Store) (ids : Finset ShardId) : ℤ := ∑ i ∈ ids, (s.shards i).used

lemma usedIn_updateShard (s : Store) (i : ShardId) (sh : Shard) (ids : Finset ShardId) :
    (s.updateShard i sh).usedIn ids = s.usedIn ids + if i ∈ ids then
    sh.used - (s.shards i).used else 0 := by
  have hupdate (j : ShardId) : ((s.updateShard i sh).shards j).used = Function.update
      (fun j => (s.shards j).used) i sh.used j := by
    simp only [updateShard, Function.update_apply]
    split_ifs <;> rfl
  simp only [usedIn, hupdate]
  split_ifs with hi
  · rw [Finset.sum_update_of_mem hi, ← Finset.sum_sdiff (Finset.singleton_subset_iff.2 hi),
      Finset.sum_singleton]
    ring
  · rw [Finset.sum_update_of_notMem hi, add_zero]

def SameBeside (ids : Finset ShardId) (keys : Finset Key) (s s' : Store) : Prop :=
  s'.usedIn ids - ∑ key ∈ keys with shardIndex key ∈ ids, s'.bytesAt key =
    s.usedIn ids - ∑ key ∈ keys with shardIndex key ∈ ids, s.bytesAt key

lemma sameBeside_setLocked (s : Store) (ids : Finset ShardId) {keys : Finset Key} {key : Key}
    (hk : key ∈ keys) (val : Bytes) (expiresAt : Time) :
    SameBeside ids keys s (s.setLockedInWriteLockedShard key val expiresAt) := by
  have hused : (s.setLockedInWriteLockedShard key val expiresAt).usedIn ids =
      s.usedIn ids + if shardIndex key ∈ ids then entrySize key val - s.bytesAt key else 0 := by
    rw [setLockedInWriteLockedShard, usedIn_updateShard]
    congr 2
    simp only [Shard.set, bytesAt, readShard]
    ring
  rw [SameBeside, hused, bytesAt_setLocked]
  split_ifs with hi
  · have hmem : key ∈ keys.filter fun key => shardIndex key ∈ ids := Finset.mem_filter.2 ⟨hk, hi⟩
    rw [Finset.sum_update_of_mem hmem, ← Finset.sum_sdiff (f := s.bytesAt)
      (Finset.singleton_subset_iff.2 hmem), Finset.sum_singleton]
    ring
  · have hnot : key ∉ keys.filter fun key => shardIndex key ∈ ids :=
      fun h => hi (Finset.mem_filter.1 h).2
    rw [Finset.sum_update_of_notMem hnot, add_zero]

lemma sameBeside_msetSection (ids : Finset ShardId) {keys : Finset Key}
    (pairs : List (Key × Bytes)) :
    ∀ s : Store, (∀ p ∈ pairs, p.1 ∈ keys) → SameBeside ids keys s (s.msetSection pairs) := by
  induction pairs with
  | nil => exact fun _ _ => rfl
  | cons p pairs ih =>
    intro s hp
    have hrest := ih (s.setLockedInWriteLockedShard p.1 p.2 none) fun q hq =>
      hp q (List.mem_cons_of_mem _ hq)
    exact hrest.trans (sameBeside_setLocked s ids (hp p List.mem_cons_self) p.2 none)

def Act.stored (a : Act) (s' : Store) : ℤ := ∑ key ∈ a.storedKeys, s'.bytesAt key

lemma Act.stored_nonneg (a : Act) (s' : Store) : 0 ≤ a.stored s' :=
  Finset.sum_nonneg fun key _ => bytesAt_nonneg s' key

lemma perform_usedIn (a : Act) (i : Input) (s : Store) (ids : Finset ShardId) :
    (perform a i s).2.usedIn ids ≤ s.usedIn ids + a.stored (perform a i s).2 := by
  have hadds (h : SameBeside ids a.storedKeys s (perform a i s).2) :
      (perform a i s).2.usedIn ids ≤ s.usedIn ids + a.stored (perform a i s).2 := by
    have hold : 0 ≤ ∑ key ∈ a.storedKeys with shardIndex key ∈ ids, s.bytesAt key :=
      Finset.sum_nonneg fun key _ => bytesAt_nonneg s key
    have hnew : ∑ key ∈ a.storedKeys with shardIndex key ∈ ids, (perform a i s).2.bytesAt key ≤
        a.stored (perform a i s).2 :=
      Finset.sum_le_sum_of_subset_of_nonneg (Finset.filter_subset _ _) fun key _ _ =>
        bytesAt_nonneg _ key
    rw [SameBeside] at h
    linarith
  cases a with
  | set key val expiresAt =>
    exact hadds (sameBeside_setLocked s ids (Finset.mem_singleton_self key) val expiresAt)
  | mset pairs =>
    refine hadds (sameBeside_msetSection ids pairs s fun p hp => ?_)
    exact List.mem_toFinset.2 (List.mem_map_of_mem hp)
  | _ =>
    exact (Finset.sum_le_sum fun j _ => perform_shrinks rfl i s j).trans
      (le_add_of_nonneg_right (Act.stored_nonneg _ _))

end Shards

section Gauge

namespace Reading

def afresh : Reading := ⟨allShards, 0⟩

def read (g : Reading) : Finset ShardId := Finset.univ \ g.unread.toFinset

lemma bounds_iff {g : Reading} {s : Store} : g.Bounds s ↔ s.usedIn g.read ≤ g.sum := by
  have hread : g.read = Finset.univ.filter (· ∉ g.unread) := by
    ext i
    simp [read]
  rw [usedIn, hread]
  rfl

def Clears (maxMemory : ℤ) (g : Reading) : Prop := g.unread = [] ∧ g.sum ≤ maxMemory

def mayAct (maxMemory : ℤ) (g : Reading) (a : Act) : Prop := a.storedKeys ≠ ∅ → g.Clears maxMemory

def follow (g : Reading) : (a : Act) → a.Resp → Reading
  | .shardUsed i, r =>
    if allShards.head? = some i then ⟨allShards.tail, r⟩ else if g.unread.head? = some i then
      ⟨g.unread.tail, g.sum + r⟩ else g
  | a, _ => if a.storedKeys = ∅ then g else afresh

lemma follow_of_ne (g : Reading) {a : Act} (ha : ∀ i, a ≠ .shardUsed i) (r : a.Resp) :
    g.follow a r = if a.storedKeys = ∅ then g else afresh := by
  cases a with
  | shardUsed i => exact absurd rfl (ha i)
  | _ => rfl

lemma usedIn_nothing (s : Store) (sum : ℤ) : s.usedIn (read ⟨allShards, sum⟩) = 0 := by
  rw [usedIn, read, Finset.sdiff_eq_empty_iff_subset.2, Finset.sum_empty]
  exact fun i _ => List.mem_toFinset.2 (List.mem_finRange i)

lemma usedIn_everything (s : Store) {g : Reading} (h : g.unread = []) :
    s.usedIn g.read = s.bytes := by
  rw [usedIn, read, h, List.toFinset_nil, Finset.sdiff_empty]
  rfl

lemma usedIn_follow {s : Store} (hs : WellFormed s) {g : Reading} {owed : ℤ} (howed : 0 ≤ owed)
    (h : s.usedIn g.read ≤ g.sum + owed) (i : ShardId) :
    s.usedIn (g.follow (.shardUsed i) (s.shards i).used).read ≤
      (g.follow (.shardUsed i) (s.shards i).used).sum + owed := by
  have hread {ids : List ShardId} {sum : ℤ} (hhead : ids.head? = some i)
      (h : s.usedIn (read ⟨ids, sum⟩) ≤ sum + owed) :
          s.usedIn (read ⟨ids.tail, sum + (s.shards i).used⟩) ≤ sum + (s.shards i).used + owed := by
    obtain ⟨rest, rfl⟩ := List.head?_eq_some_iff.1 hhead
    have hbounds : Bounds ⟨rest, sum + owed + (s.shards i).used⟩ s :=
      Bounds.read hs (bounds_iff.2 h)
    rw [add_right_comm]
    exact bounds_iff.1 hbounds
  simp only [follow]
  split_ifs with hfirst hhead
  · have hnothing : s.usedIn (read ⟨allShards, 0⟩) ≤ 0 + owed := by
      rw [usedIn_nothing, zero_add]
      exact howed
    have hstart := hread hfirst hnothing
    rwa [zero_add] at hstart
  · exact hread hhead h
  · exact h

end Reading

variable {α : Type} {Q : (a : Act) → a.Resp → Prop} {maxMemory : ℤ}

/-- The program stores something only when it has summed up the shards since it last did, and found
them within the limit. -/
abbrev Gauges (Q : (a : Act) → a.Resp → Prop) (maxMemory : ℤ) (D : Reading → α → Prop) (g : Reading)
    (p : Prog α) : Prop :=
  Follows (S := sig) Q (Reading.mayAct maxMemory) Reading.follow D g p

lemma gauges_storeless {p : Prog α} (hp : Only (fun a : Act => a.storedKeys = ∅) p) :
    ∀ g, Gauges Q maxMemory (fun _ _ => True) g p := by
  unfold Only at hp
  induction hp with
  | done _ => exact fun _ => .done trivial
  | act ha _ ih => exact fun _ => .act (fun hs => absurd ha hs) fun r _ => ih r trivial _

def Reading.Agrees (maxMemory : ℤ) (g g' : Reading) : Prop :=
  (g' = g ∨ g.unread = [] ∧ maxMemory < g.sum) ∧ g.unread <:+ allShards.tail

lemma Reading.Agrees.next {g g' : Reading} (h : g.Agrees maxMemory g') {a : Act}
    (ha : g.allows a) (r : a.Resp) : (g.next a r).Agrees maxMemory (g'.follow a r) := by
  have hstays (hs : a.storedKeys = ∅) (hn : ∀ i, a ≠ .shardUsed i) (hnext : g.next a r = g) :
      (g.next a r).Agrees maxMemory (g'.follow a r) := by
    rw [hnext, follow_of_ne g' hn, if_pos hs]
    exact h
  cases a with
  | shardUsed i =>
    obtain ⟨hcase, hsuffix⟩ := h
    simp only [allows, pending] at ha
    simp only [Reading.next, pending, follow]
    by_cases hempty : g.unread = []
    · rw [if_pos hempty] at ha ⊢
      rw [if_pos ha, zero_add]
      exact ⟨.inl rfl, List.suffix_rfl⟩
    · obtain rfl := hcase.resolve_right fun h => hempty h.1
      rw [if_neg hempty] at ha ⊢
      have hmem : i ∈ allShards.tail := hsuffix.mem (List.mem_of_mem_head? ha)
      rw [if_neg ((by decide : ∀ i ∈ allShards.tail, allShards.head? ≠ some i) i hmem), if_pos ha]
      exact ⟨.inl rfl, (List.tail_suffix _).trans hsuffix⟩
  | set | mset => exact hstays ha (fun _ => Act.noConfusion) rfl
  | _ => exact hstays rfl (fun _ => Act.noConfusion) rfl

lemma gauges_enforceMemoryLimit (hmax : 0 < maxMemory) (hQ : ∀ r, Q .config r → r.1 = maxMemory)
    (fuel : ℕ) (g : Reading) :
    Gauges Q maxMemory (fun g e => ∀ n, e = .finished n true → g.Clears maxMemory) g
      (enforceMemoryLimit fuel) := by
  have hstart : (⟨[], maxMemory + 1⟩ : Reading).Agrees maxMemory g :=
    ⟨.inr ⟨rfl, lt_add_one _⟩, List.nil_suffix⟩
  refine (sums_enforceMemoryLimit hmax hQ fuel rfl).transport (fun g g' a _ ha hs => ?_)
    (fun g g' a r h ha => h.next ha r) (fun g g' e h hkeeps n he => ?_) hstart
  · cases a with
    | set | mset => exact absurd ha hs
    | _ => exact absurd rfl hs
  · subst he
    obtain ⟨hunread, hsum⟩ := hkeeps
    obtain rfl := h.1.resolve_right fun h => absurd h.2 (not_lt.2 hsum)
    exact ⟨hunread, hsum⟩

lemma Op.no_shardUsed (o : Op) : Only (fun a : Act => ∀ i, a ≠ .shardUsed i) o.program := by
  refine Obeys.mono (fun a h => ?_) (fun _ _ h => h) (fun _ h => h) o.touches_program
  cases h with
  | plumbing h =>
    rintro i rfl
    cases h
  | _ => exact fun _ => Act.noConfusion

lemma gauges_op {g : Reading} (hg : g.Clears maxMemory) (o : Op) :
    Gauges Q maxMemory (fun _ _ => True) g o.program := by
  have hcourse : Courses (fun _ _ => True) .fresh o.program := o.courses fun _ _ _ => trivial
  have hstart : Course.fresh.stored = false → g.Clears maxMemory := fun _ => hg
  refine ((hcourse.and o.no_shardUsed).of_answers fun _ _ _ => ⟨trivial, trivial⟩).transport
    (R := fun (g : Course) g' => g.stored = false → g'.Clears maxMemory) (fun g g' a h ha hs => ?_)
      (fun g g' a r h ha hst => ?_)
    (fun _ _ _ _ _ => trivial) hstart
  · cases a with
    | set | mset => exact h ha.1
    | _ => exact absurd rfl hs
  · rw [Reading.follow_of_ne g' ha.2]
    cases a with
    | set | mset => exact absurd hst Bool.noConfusion
    | _ => exact h hst

end Gauge

end RedisClone.Store

namespace RedisClone.Server

open Store Lib Lib.Program Lib.Recency

def Outcome.returns : Outcome → Bool
  | .reply none => false
  | _ => true

def errands (settings : Settings) : List Client → Prog (List Outcome)
  | [] => return []
  | client :: clients => do
    let outcome ← client.program settings
    if outcome.returns then (outcome :: ·) <$> errands settings clients else return [outcome]

section Programs

variable {Q : (a : Act) → a.Resp → Prop} {maxMemory : ℤ} (settings : Settings)

lemma gauges_dispatch (hmax : 0 < maxMemory) (hQ : ∀ r, Q .config r → r.1 = maxMemory)
    (around : Surroundings) (fuel : ℕ) (args : List Bytes) (g : Reading) :
    Gauges Q maxMemory (fun _ _ => True) g (dispatch settings around fuel args) := by
  rw [← arrive_rest]
  generalize ha : arrive settings around fuel args = phase
  cases arrive_cases ha with
  | empty | unknown | arity | misconf => exact .done trivial
  | @preflight first args cmd hc _ hw =>
    refine (gauges_enforceMemoryLimit hmax hQ fuel g).bind fun g e he => ?_
    cases e with
    | running n => exact .done trivial
    | finished n fits =>
      cases fits with
      | false => exact .done trivial
      | true =>
        refine Follows.map _ ?_
        rcases write_program hc hw settings around args with ⟨-, b, hb, -⟩ | ⟨o, -, hfn⟩
        · rw [hb]
          exact .done trivial
        · rw [hfn]
          exact Follows.map _ (gauges_op (he n rfl) o)
  | @handler first args cmd hc _ hw =>
    have hquiet : Only (fun a : Act => a.storedKeys = ∅) (cmd.fn settings around args) := by
      refine (read_quiet hc hw).mono (fun a ha => ?_) (fun _ _ h => h) fun _ h => h
      cases a with
      | set | mset => exact absurd ha id
      | _ => rfl
    exact Follows.map _ (gauges_storeless hquiet g)

lemma gauges_errands (hmax : 0 < maxMemory) (hQ : ∀ r, Q .config r → r.1 = maxMemory)
    (clients : List Client) :
    ∀ g, Gauges Q maxMemory (fun _ _ => True) g (errands settings clients) := by
  induction clients with
  | nil => exact fun _ => .done trivial
  | cons client clients ih =>
    intro g
    have hclient : Gauges Q maxMemory (fun _ _ => True) g (client.program settings) := by
      cases client with
      | command r => exact Follows.map _ (gauges_dispatch settings hmax hQ r.around r.fuel r.args g)
      | expiryCycle =>
        refine Follows.map _ (gauges_storeless ?_ g)
        exact within_activeExpireCycle rfl rfl fun _ _ _ _ => rfl
      | rewrite =>
        refine Follows.map _ (gauges_storeless ?_ g)
        exact within_aofSnapshot rfl (fun _ => rfl) fun _ _ => rfl
    refine hclient.bind fun g outcome _ => ?_
    split_ifs
    · exact Follows.map _ (ih g)
    · exact .done trivial

end Programs

section Run

variable {ι α : Type} [DecidableEq ι]

/-- What each goroutine has stored by the last of its sections that stored anything. -/
def lastStored (inputs : ι → ℕ → Input) : List ι → Threads ι α → (ι → ℤ) → ι → ℤ
  | [], _, last => last
  | t :: schedule, c, last =>
    let c' := c.step World.act inputs t
    match c.next World.act inputs t with
    | none => lastStored inputs schedule c' last
    | some a =>
      lastStored inputs schedule c'
        (if a.storedKeys = ∅ then last else Function.update last t (a.stored c'.world.store))

structure Crowded (maxMemory : ℤ) (policy : EvictionPolicy) (last : ι → ℤ) (order : List ι)
    (gs : ι → Reading) (c : Threads ι α) : Prop where
  wellFormed : WellFormed c.world.store
  limit : c.world.store.maxMemory = maxMemory
  samePolicy : c.world.store.policy = policy
  nonneg : ∀ t, 0 ≤ last t
  nodup : order.Nodup
  gauges : ∀ t, Gauges (Told maxMemory policy) maxMemory (fun _ _ => True) (gs t) (c.prog t)
  within : ∀ t, Recency.Within c.world.store.bytes maxMemory (c.world.store.usedIn (gs t).read)
    (gs t).sum (debt last order t)
  bytes : c.world.store.bytes ≤ maxMemory + brought last order

section Step

variable {maxMemory : ℤ} {policy : EvictionPolicy} {last : ι → ℤ} {order : List ι}
  {gs : ι → Reading} {c c' : Threads ι α} {inputs : ι → ℕ → Input} {t : ι} {a : Act} {r : a.Resp}

lemma Crowded.debt_nonneg (h : Crowded maxMemory policy last order gs c) (t : ι) :
    0 ≤ debt last order t :=
  brought_nonneg h.nonneg _

lemma Crowded.own (h : Crowded maxMemory policy last order gs c) (hg : (gs t).Clears maxMemory) :
    c.world.store.bytes ≤ maxMemory + debt last order t := by
  rcases h.within t with hbytes | hread
  · exact hbytes
  · rw [Reading.usedIn_everything _ hg.1] at hread
    exact hread.trans (add_le_add hg.2 le_rfl)

lemma Crowded.shrinks (h : Crowded maxMemory policy last order gs c)
    (hm : c.Moves World.act inputs t a r c') (ha : a.storedKeys = ∅) (u : ι) :
    Recency.Within c'.world.store.bytes maxMemory
      (c'.world.store.usedIn (Function.update gs t ((gs t).follow a r) u).read)
      (Function.update gs t ((gs t).follow a r) u).sum (debt last order u) := by
  have hperform := World.act_perform hm.acts
  have hshrinks : Shrinks c.world.store c'.world.store := by
    have hs := perform_shrinks ha (inputs t (c.taken t)) c.world.store
    rwa [hperform] at hs
  have hless (u : ι) : Recency.Within c'.world.store.bytes maxMemory
      (c'.world.store.usedIn (gs u).read) (gs u).sum (debt last order u) :=
    (h.within u).imp hshrinks.bytes.trans (Finset.sum_le_sum fun i _ => hshrinks i).trans
  by_cases hu : u = t
  · subst hu
    rw [Function.update_self]
    by_cases hused : ∃ i, a = .shardUsed i
    · obtain ⟨i, rfl⟩ := hused
      obtain ⟨rfl, hsame⟩ := Prod.mk.inj hperform
      rw [← hsame]
      exact (h.within u).imp_right fun hread => Reading.usedIn_follow h.wellFormed
        (h.debt_nonneg u) hread i
    · rw [Reading.follow_of_ne _ fun i hi => hused ⟨i, hi⟩, if_pos ha]
      exact hless u
  · rw [Function.update_of_ne hu]
    exact hless u

lemma Crowded.stores (h : Crowded maxMemory policy last order gs c)
    (hm : c.Moves World.act inputs t a r c') (ha : a.storedKeys ≠ ∅)
    (hg : (gs t).Clears maxMemory) (u : ι) :
    Recency.Within c'.world.store.bytes maxMemory
      (c'.world.store.usedIn (Function.update gs t ((gs t).follow a r) u).read)
      (Function.update gs t ((gs t).follow a r) u).sum
      (debt (Function.update last t (a.stored c'.world.store)) (come order t) u) := by
  have hperform := World.act_perform hm.acts
  have hadds (ids : Finset ShardId) :
      c'.world.store.usedIn ids ≤ c.world.store.usedIn ids + a.stored c'.world.store := by
    have hs := perform_usedIn a (inputs t (c.taken t)) c.world.store ids
    rwa [hperform] at hs
  by_cases hu : u = t
  · subst hu
    right
    have hafresh : (gs u).follow a r = .afresh := by
      rw [Reading.follow_of_ne _ (by rintro i rfl; exact ha rfl), if_neg ha]
    rw [Function.update_self, hafresh, Reading.afresh, Reading.usedIn_nothing, zero_add]
    exact brought_nonneg (update_nonneg h.nonneg (Act.stored_nonneg _ _) u) _
  · rw [Function.update_of_ne hu]
    exact (h.within u).come h.nonneg (Act.stored_nonneg _ _) (h.own hg)
      (hadds Finset.univ) (hadds _) hu

lemma Crowded.step (h : Crowded maxMemory policy last order gs c)
    (hm : c.Moves World.act inputs t a r c') :
    ∃ order' gs', Crowded maxMemory policy
      (if a.storedKeys = ∅ then last else Function.update last t (a.stored c'.world.store))
      order' gs' c' := by
  have hperform := World.act_perform hm.acts
  have hwell := perform_wellFormed a (inputs t (c.taken t)) c.world.store h.wellFormed
  have hsettings := perform_settings a (inputs t (c.taken t)) c.world.store
  rw [hperform] at hwell hsettings
  have htold : Told maxMemory policy a r := by
    cases a with
    | config =>
      obtain ⟨rfl, -⟩ := Prod.mk.inj hperform
      exact Prod.ext h.limit h.samePolicy
    | _ => exact trivial
  obtain ⟨k, hk, hprog⟩ := hm.prog
  have hown := h.gauges t
  rw [hk] at hown
  obtain ⟨hmay, hrest⟩ := hown.next
  have hgauges (u : ι) : Gauges (Told maxMemory policy) maxMemory (fun _ _ => True)
    (Function.update gs t ((gs t).follow a r) u) (c'.prog u) := by
    by_cases hu : u = t
    · subst hu
      rw [hprog, Function.update_self, Function.update_self]
      exact hrest r htold
    · rw [Function.update_of_ne hu, hm.prog_of_ne hu]
      exact h.gauges u
  by_cases ha : a.storedKeys = ∅
  · rw [if_pos ha]
    refine ⟨order, _, hwell, hsettings.1.trans h.limit, hsettings.2.1.trans h.samePolicy, h.nonneg,
      h.nodup, hgauges, h.shrinks hm ha, ?_⟩
    have hs := (perform_shrinks ha (inputs t (c.taken t)) c.world.store).bytes
    rw [hperform] at hs
    exact hs.trans h.bytes
  · rw [if_neg ha]
    refine ⟨come order t, _, hwell, hsettings.1.trans h.limit, hsettings.2.1.trans h.samePolicy,
      update_nonneg h.nonneg (Act.stored_nonneg _ _) t, ?_, hgauges, h.stores hm ha (hmay ha), ?_⟩
    · exact List.nodup_cons.2 ⟨h.nodup.not_mem_erase, h.nodup.erase t⟩
    · have hs := perform_bytes a (inputs t (c.taken t)) c.world.store
      rw [hperform] at hs
      calc c'.world.store.bytes ≤ c.world.store.bytes + a.stored c'.world.store := hs
        _ ≤ maxMemory + debt last order t + a.stored c'.world.store :=
          add_le_add (h.own (hmay ha)) le_rfl
        _ = maxMemory + (debt last order t + a.stored c'.world.store) := add_assoc _ _ _
        _ ≤ _ := add_le_add le_rfl (debt_le_brought_come h.nonneg (Act.stored_nonneg _ _) order t)

lemma Crowded.after (schedule : List ι) :
    ∀ {last : ι → ℤ} {order : List ι} {gs : ι → Reading} {c : Threads ι α},
    Crowded maxMemory policy last order gs c → ∃ order' gs',
    Crowded maxMemory policy (lastStored inputs schedule c last) order' gs'
      (c.after World.act inputs schedule) := by
  induction schedule with
  | nil => exact fun h => ⟨_, _, h⟩
  | cons t schedule ih =>
    intro last order gs c h
    rcases c.step_cases World.act inputs t with ⟨hs, hn⟩ | ⟨a, r, hm⟩
    · have hrest := ih h
      rw [lastStored, hn]
      change ∃ order' gs',
        Crowded _ _ (lastStored inputs schedule (c.step World.act inputs t) last) order' gs'
        ((c.step World.act inputs t).after World.act inputs schedule)
      rwa [hs]
    · obtain ⟨order', gs', h'⟩ := h.step hm
      rw [lastStored, hm.next]
      exact ih h'

end Step

/-- Whatever goroutines run at the same time under a memory limit, and however their steps fall
together, with a journal or without: what the store uses is never above the limit by more than what
each of them has stored last. -/
theorem crowd_overshoot_bounded [Fintype ι] (settings : Settings) (journalled : Bool)
    (maxMemory : ℤ) (policy : EvictionPolicy) (hmax : 0 < maxMemory) (goroutines : ι → List Client)
    (inputs : ι → ℕ → Input) (schedule : List ι) :
    let c₀ := booted journalled maxMemory policy fun t => errands settings (goroutines t)
    ∀ alone, (exec used alone (c₀.after World.act inputs schedule).world.store).1 ≤
      maxMemory + ∑ t, lastStored inputs schedule c₀ (fun _ => 0) t := by
  intro c₀ alone
  have hempty : (configured journalled maxMemory policy).bytes = 0 := by cases journalled <;> rfl
  have hstart : Crowded maxMemory policy (fun _ : ι => 0) [] (fun _ => .afresh) c₀ := by
    refine ⟨configured_wellFormed _ _ _, ?_, ?_, fun _ => le_rfl, List.nodup_nil, fun t => ?_,
      fun t => .inr ?_, ?_⟩
    · cases journalled <;> rfl
    · cases journalled <;> rfl
    · exact gauges_errands settings hmax (fun r hr => congrArg Prod.fst hr) (goroutines t) _
    · rw [Reading.afresh, Reading.usedIn_nothing]
      exact le_rfl
    · exact (hempty.trans_le hmax.le).trans_eq (add_zero _).symm
  obtain ⟨order, gs, h⟩ :
    ∃ order gs, Crowded maxMemory policy (lastStored inputs schedule c₀ fun _ => 0) order gs
    (c₀.after World.act inputs schedule) := hstart.after schedule
  rw [used_eq]
  refine h.bytes.trans (add_le_add le_rfl ?_)
  rw [brought, ← List.sum_toFinset _ h.nodup]
  exact Finset.sum_le_univ_sum_of_nonneg h.nonneg

end Run

def rivals : Bool → List Client
  | false =>
    [.command ⟨["SET", "a", "v"].map ascii, replaying, 0⟩,
      .command ⟨["SET", "b", "v"].map ascii, replaying, 0⟩]
  | true => [.command ⟨["SET", "c", "v"].map ascii, replaying, 0⟩]

def rivalTurns : List Bool :=
  List.replicate 74 false ++ List.replicate 39 true ++ List.replicate 4 false

theorem crowd_overshoot_bounded_rivals :
    let c₀ := booted false 200 .noEviction fun t => errands plain (rivals t)
    let c := c₀.after World.act (fun _ _ => ⟨7, .stored⟩) rivalTurns
    200 + entrySize (ascii "b") (ascii "v") < c.world.store.bytes ∧
      ∀ alone, (exec used alone c.world.store).1 ≤ 200 + ∑ t,
      lastStored (fun _ _ => ⟨7, .stored⟩) rivalTurns c₀ (fun _ => 0) t :=
  ⟨by decide +kernel, crowd_overshoot_bounded plain false 200 .noEviction (by decide) rivals
    (fun _ _ => ⟨7, .stored⟩) rivalTurns⟩

end RedisClone.Server
