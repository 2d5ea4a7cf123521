import RedisClone.Store.Victims

namespace RedisClone.Store

open Lib Lib.Program

def evictOne (s : Store) (key : Key) : Store :=
  propagate { s.deleteLockedInWriteLockedShard key with stats.evictedKeys := s.stats.evictedKeys +
    1 } [cmdDEL, key]

def evictAll (s : Store) (keys : List Key) : Store := keys.foldl evictOne s

/-- Each of these keys may go when its turn comes, and too much is used until then. -/
def Due (s : Store) : List Key → Prop
  | [] => True
  | key :: keys =>
    s.maxMemory < s.bytes ∧ s.view.evictable s.policy key = true ∧ (s.evictOne key).Due keys

section Evictions

variable {s : Store}

lemma evictOne_wellFormed (hs : WellFormed s) (key : Key) : WellFormed (s.evictOne key) :=
  deleteLocked_wellFormed hs key

lemma evictOne_view (s : Store) (key : Key) : (s.evictOne key).view = s.view.remove key :=
  view_deleteLocked s key

lemma evictAll_cons (s : Store) (key : Key) (keys : List Key) :
    s.evictAll (key :: keys) = (s.evictOne key).evictAll keys := rfl

lemma evictAll_wellFormed (keys : List Key) :
    ∀ {s : Store}, WellFormed s → WellFormed (s.evictAll keys) := by
  induction keys with
  | nil => exact fun hs => hs
  | cons key keys ih => exact fun hs => ih (evictOne_wellFormed hs key)

lemma evictAll_view (keys : List Key) :
    ∀ s : Store, (s.evictAll keys).view = s.view.removeAll keys := by
  induction keys with
  | nil => exact fun _ => rfl
  | cons key keys ih =>
    intro s
    rw [evictAll_cons, ih, evictOne_view]
    rfl

lemma evictAll_settings (keys : List Key) : ∀ s : Store, (s.evictAll keys).maxMemory = s.maxMemory ∧
    (s.evictAll keys).policy = s.policy := by
  induction keys with
  | nil => exact fun _ => ⟨rfl, rfl⟩
  | cons key keys ih => exact fun s => ih (s.evictOne key)

lemma evictAll_evictedKeys (keys : List Key) : ∀ s : Store,
    (s.evictAll keys).stats.evictedKeys = s.stats.evictedKeys + keys.length := by
  induction keys with
  | nil => exact fun _ => rfl
  | cons key keys ih =>
    intro s
    have hone : (s.evictOne key).stats.evictedKeys = s.stats.evictedKeys + 1 := rfl
    rw [evictAll_cons, ih, hone, List.length_cons]
    omega

lemma evictAll_journal (keys : List Key) : ∀ s : Store,
    (s.evictAll keys).journal = s.journal.map (· ++ keys.map fun key => [cmdDEL, key]) := by
  induction keys with
  | nil =>
    intro s
    simp [evictAll]
  | cons key keys ih =>
    intro s
    have hone : (s.evictOne key).journal = s.journal.map (· ++ [[cmdDEL, key]]) := rfl
    rw [evictAll_cons, ih, hone, Option.map_map]
    congr 1
    funext records
    simp

lemma Due.nodup {keys : List Key} :
    ∀ {s : Store}, s.Due keys → keys.Nodup ∧ ∀ key ∈ keys, (s.view key).isSome := by
  induction keys with
  | nil => exact fun _ => ⟨List.nodup_nil, fun _ h => absurd h List.not_mem_nil⟩
  | cons key keys ih =>
    rintro s ⟨-, hkey, hrest⟩
    obtain ⟨hnd, hpresent⟩ := ih hrest
    have hstill : ∀ key' ∈ keys, key' ≠ key ∧ (s.view key').isSome := by
      intro key' hk
      have h := hpresent key' hk
      rw [evictOne_view, Keyspace.remove, Function.update_apply] at h
      split_ifs at h with he
      · exact absurd h Bool.false_ne_true
      · exact ⟨he, h⟩
    refine ⟨List.nodup_cons.2 ⟨fun h => (hstill key h).1 rfl, hnd⟩, fun key' hk => ?_⟩
    rcases List.mem_cons.1 hk with rfl | hk
    · obtain ⟨it, hit, -⟩ := (Option.any_eq_true _ _).1 hkey
      rw [hit]
      rfl
    · exact (hstill key' hk).2

lemma exists_key_of_bytes_pos (hs : WellFormed s) (h : 0 < s.bytes) :
    ∃ key it, s.view key = some it := by
  by_contra hno
  push Not at hno
  have hview : s.view = new.view := funext fun key => Option.eq_none_iff_forall_ne_some.2 (hno key)
  have hzero : s.bytes = new.bytes :=
    Finset.sum_congr rfl fun i _ => used_of_view new_wellFormed hs hview i
  rw [hzero] at h
  exact absurd h (by decide)

end Evictions

section Loop

/-- How the loop ends: the limit is kept, or nothing is left that may go. -/
def Settled (s : Store) (ok : Bool) : Prop :=
  if ok then s.bytes ≤ s.maxMemory else s.maxMemory < s.bytes ∧
    ∀ key, s.view.evictable s.policy key = false

lemma exec_used_eq (inputs : ℕ → Input) (s : Store) : (exec used inputs s).1 = s.bytes :=
  used_eq inputs s

variable {s : Store} {maxMemory : ℤ} {inputs : ℕ → Input}

lemma exec_evictLoop_fits (h : s.bytes ≤ maxMemory) (inputs : ℕ → Input) : ∃ n, ∀ fuel evicted,
    exec (evictLoop maxMemory (fuel + 1) evicted) inputs s = (.finished evicted true, n, s) := by
  refine ⟨1 + (exec used inputs s).2.1, fun fuel evicted => ?_⟩
  rw [evictLoop, exec_bind]
  simp only [exec_used_store, exec_used_eq]
  rw [if_neg (not_lt.2 h)]
  rfl

lemma exec_evictLoop_stuck (h : maxMemory < s.bytes)
    (hv : (exec pickVictim (shift (exec used inputs s).2.1 inputs) s).1 = none) :
    ∃ n, ∀ fuel evicted, exec (evictLoop maxMemory (fuel + 1) evicted) inputs s =
    (.finished evicted false, n, s) := by
  refine ⟨1 + (exec pickVictim (shift (exec used inputs s).2.1 inputs) s).2.1 +
    (exec used inputs s).2.1, fun fuel evicted => ?_⟩
  rw [evictLoop, exec_bind]
  simp only [exec_used_store, exec_used_eq]
  rw [if_pos h, exec_bind]
  simp only [exec_pickVictim_store, hv]
  rfl

lemma exec_evictLoop_round {key : Key} (h : maxMemory < s.bytes)
    (hv : (exec pickVictim (shift (exec used inputs s).2.1 inputs) s).1 = some key) :
    ∃ inputs' m, ∀ fuel evicted, exec (evictLoop maxMemory (fuel + 1) evicted) inputs s =
      ((exec (evictLoop maxMemory fuel (evicted + 1)) inputs' (s.evictOne key)).1,
        (exec (evictLoop maxMemory fuel (evicted + 1)) inputs' (s.evictOne key)).2.1 + m,
        (exec (evictLoop maxMemory fuel (evicted + 1)) inputs' (s.evictOne key)).2.2) := by
  refine ⟨shift 1
    (shift 1 (shift 1 (shift (exec pickVictim (shift (exec used inputs s).2.1 inputs) s).2.1
    (shift (exec used inputs s).2.1 inputs)))),
      3 + (exec pickVictim (shift (exec used inputs s).2.1 inputs) s).2.1 +
        (exec used inputs s).2.1, fun fuel evicted => ?_⟩
  rw [evictLoop, exec_bind]
  simp only [exec_used_store, exec_used_eq]
  rw [if_pos h, exec_bind]
  simp only [exec_pickVictim_store, hv]
  rw [exec_act, exec_act, exec_act]
  refine Prod.ext rfl (Prod.ext ?_ rfl)
  change (exec (evictLoop maxMemory fuel (evicted + 1)) _ (s.evictOne key)).2.1 + 1 +
    1 + 1 + _ + _ = (exec (evictLoop maxMemory fuel (evicted + 1)) _ (s.evictOne key)).2.1 + _
  omega

lemma exec_evictLoop (bound : ℕ) :
    ∀ (s : Store) (inputs : ℕ → Input), WellFormed s → s.bytes < bound →
    ∃ keys ok n, s.Due keys ∧ (s.evictAll keys).Settled ok ∧ ∀ fuel evicted, bound ≤ fuel →
      exec (evictLoop s.maxMemory fuel evicted) inputs s =
      (.finished (evicted + keys.length) ok, n, s.evictAll keys) := by
  induction bound with
  | zero =>
    intro s inputs hs hlt
    have := bytes_nonneg hs
    omega
  | succ bound ih =>
    intro s inputs hs hlt
    rcases le_or_gt s.bytes s.maxMemory with hfits | hover
    · obtain ⟨n, hn⟩ := exec_evictLoop_fits hfits inputs
      refine ⟨[], true, n, trivial, hfits, fun fuel evicted hf => ?_⟩
      obtain ⟨fuel, rfl⟩ := Nat.exists_eq_succ_of_ne_zero (by omega : fuel ≠ 0)
      exact hn fuel evicted
    · cases hv : (exec pickVictim (shift (exec used inputs s).2.1 inputs) s).1 with
      | none =>
        obtain ⟨n, hn⟩ := exec_evictLoop_stuck hover hv
        refine ⟨[], false, n, trivial, ⟨hover, evictable_eq_false_of_pickVictim hs hv⟩,
          fun fuel evicted hf => ?_⟩
        obtain ⟨fuel, rfl⟩ := Nat.exists_eq_succ_of_ne_zero (by omega : fuel ≠ 0)
        exact hn fuel evicted
      | some key =>
        have hkey := evictable_of_pickVictim hs hv
        obtain ⟨it, hit, -⟩ := (Option.any_eq_true _ _).1 hkey
        have hless : (s.evictOne key).bytes < s.bytes := bytes_deleteLocked (by rw [hit]; rfl)
        obtain ⟨inputs', m, hround⟩ := exec_evictLoop_round hover hv
        obtain ⟨keys, ok, n, hdue, hend, hrest⟩ :=
          ih (s.evictOne key) inputs' (evictOne_wellFormed hs key) (by omega)
        refine ⟨key :: keys, ok, n + m, ⟨hover, hkey, hdue⟩, hend, fun fuel evicted hf => ?_⟩
        obtain ⟨fuel, rfl⟩ := Nat.exists_eq_succ_of_ne_zero (by omega : fuel ≠ 0)
        have hnext := hrest fuel (evicted + 1) (by omega)
        rw [show (s.evictOne key).maxMemory = s.maxMemory from rfl] at hnext
        rw [Nat.succ_eq_add_one, hround, hnext, List.length_cons, evictAll_cons, Nat.add_assoc,
          Nat.add_comm 1]

end Loop

section Enforce

variable {s : Store} {inputs : ℕ → Input}

lemma exec_enforceMemoryLimit (inputs : ℕ → Input) (s : Store) : ∃ inputs' n, ∀ fuel,
    let rest := exec (evictLoop s.maxMemory fuel 0) inputs' s
    exec (enforceMemoryLimit fuel) inputs s =
      if s.maxMemory ≤ 0 then (.finished 0 true, 1, s)
      else if s.bytes ≤ s.maxMemory then (.finished 0 true, n + 1, s)
      else if s.policy = .noEviction then (.finished 0 false, n + 1, s)
      else (rest.1, rest.2.1 + n, rest.2.2) := by
  refine ⟨shift (exec used (shift 1 (shift 1 inputs)) s).2.1 (shift 1 (shift 1 inputs)),
    (exec used (shift 1 (shift 1 inputs)) s).2.1 + 2, ?_⟩
  intro fuel rest
  have hconfig : perform .config (inputs 0) s = ((s.maxMemory, s.policy), s) := rfl
  rw [enforceMemoryLimit, exec_act, hconfig]
  dsimp only
  split_ifs with hmax hpolicy hfits hfits
  · rfl
  all_goals
    rw [exec_act, show (perform .lockDurableMutation (shift 1 inputs 0) s).2 =
      s from rfl, exec_bind]
    simp only [exec_used_store, exec_used_eq]
  · rw [if_pos hfits]
    rfl
  · rw [if_neg hfits]
    rfl
  · rw [if_pos hfits]
    rfl
  · rw [if_neg hfits]
    rfl

lemma exec_enforceMemoryLimit_idle
    (h : s.maxMemory ≤ 0 ∨ s.bytes ≤ s.maxMemory ∨ s.policy = .noEviction) (fuel : ℕ) :
    (exec (enforceMemoryLimit fuel) inputs s).2.2 = s := by
  obtain ⟨inputs', n, hall⟩ := exec_enforceMemoryLimit inputs s
  rw [hall]
  split_ifs with hmax hfits hpolicy
  · rfl
  · rfl
  · rfl
  · tauto

structure Enforces (s : Store) (keys : List Key) (ok : Bool) : Prop where
  due : s.Due keys
  fits : ok = true → s.maxMemory ≤ 0 ∨ (s.evictAll keys).bytes ≤ s.maxMemory
  fails : ok = false → s.policy = .noEviction ∨
    s.policy = .volatileLRU ∧ ∀ key it, (s.evictAll keys).view key = some it → it.expiresAt = none
  idle : s.maxMemory ≤ 0 ∨ s.bytes ≤ s.maxMemory ∨ s.policy = .noEviction → keys = []

lemma Settled.fails {keys : List Key} (hs : WellFormed s) (hmax : ¬ s.maxMemory ≤ 0)
    (h : (s.evictAll keys).Settled false) :
    s.policy = .volatileLRU ∧ ∀ key it, (s.evictAll keys).view key = some it →
    it.expiresAt = none := by
  obtain ⟨hover, hnone⟩ := h
  rw [(evictAll_settings keys s).1] at hover
  simp only [(evictAll_settings keys s).2, Keyspace.evictable] at hnone
  have hkeep (key : Key) (it : Item) (hit : (s.evictAll keys).view key = some it) :
      s.policy = .volatileLRU ∧ it.expiresAt = none := by
    simpa [hit] using hnone key
  obtain ⟨key, it, hit⟩ := exists_key_of_bytes_pos (evictAll_wellFormed keys hs) (by omega)
  exact ⟨(hkeep key it hit).1, fun key it hit => (hkeep key it hit).2⟩

lemma exists_enforces (hs : WellFormed s) (inputs : ℕ → Input) :
    ∃ enough keys ok n, Enforces s keys ok ∧ ∀ fuel, enough ≤ fuel →
    exec (enforceMemoryLimit fuel) inputs s = (.finished keys.length ok, n, s.evictAll keys) := by
  obtain ⟨inputs', n, hall⟩ := exec_enforceMemoryLimit inputs s
  by_cases hmax : s.maxMemory ≤ 0
  · refine ⟨0, [], true, 1,
      ⟨trivial, fun _ => .inl hmax, fun h => absurd h.symm Bool.false_ne_true, fun _ => rfl⟩,
        fun fuel _ => ?_⟩
    rw [hall, if_pos hmax]
    rfl
  by_cases hfits : s.bytes ≤ s.maxMemory
  · refine ⟨0, [], true, n + 1,
      ⟨trivial, fun _ => .inr hfits, fun h => absurd h.symm Bool.false_ne_true, fun _ => rfl⟩,
        fun fuel _ => ?_⟩
    rw [hall, if_neg hmax, if_pos hfits]
    rfl
  by_cases hpolicy : s.policy = .noEviction
  · refine ⟨0, [], false, n + 1,
      ⟨trivial, fun h => absurd h Bool.false_ne_true, fun _ => .inl hpolicy, fun _ => rfl⟩,
        fun fuel _ => ?_⟩
    rw [hall, if_neg hmax, if_neg hfits, if_pos hpolicy]
    rfl
  have hpos := bytes_nonneg hs
  obtain ⟨keys, ok, m, hdue, hend, hexec⟩ :=
    exec_evictLoop (s.bytes + 1).toNat s inputs' hs (by omega)
  refine ⟨(s.bytes + 1).toNat, keys, ok, m + n, ⟨hdue, ?_, ?_, fun h => by tauto⟩,
    fun fuel hf => ?_⟩
  · rintro rfl
    exact .inr ((evictAll_settings keys s).1 ▸ hend)
  · rintro rfl
    exact .inr (hend.fails hs hmax)
  · rw [hall, if_neg hmax, if_neg hfits, if_neg hpolicy, hexec fuel 0 hf, Nat.zero_add]

/-- The eviction comes to an end, removes what is due and no more, and fails only where the policy
leaves it nothing. -/
theorem enforceMemoryLimit_alone (hs : WellFormed s) (inputs : ℕ → Input) :
    ∃ enough keys ok n, (∀ fuel, enough ≤ fuel →
      exec (enforceMemoryLimit fuel) inputs s = (.finished keys.length ok, n, s.evictAll keys)) ∧
      Enforces s keys ok ∧ keys.Nodup ∧ (∀ key ∈ keys, (s.view key).isSome) ∧
      (s.evictAll keys).view = s.view.removeAll keys ∧
      (s.evictAll keys).stats.evictedKeys = s.stats.evictedKeys + keys.length ∧
      (s.evictAll keys).journal = s.journal.map (· ++ keys.map fun key => [cmdDEL, key]) := by
  obtain ⟨enough, keys, ok, n, h, hexec⟩ := exists_enforces hs inputs
  exact ⟨enough, keys, ok, n, hexec, h, h.due.nodup.1, h.due.nodup.2, evictAll_view keys s,
    evictAll_evictedKeys keys s, evictAll_journal keys s⟩

end Enforce

def tight : Store :=
  (exec ([Call.op (.set [64] []), .op (.setWithTTL [97] [] 1)].mapM Call.program) (clockAt 0)
    (configured true 1 .volatileLRU)).2.2

theorem enforceMemoryLimit_alone_tight :
    (exec (enforceMemoryLimit 2) (clockAt 0) tight).1 = .finished 1 false ∧
      ∃ enough keys ok n, (∀ fuel, enough ≤ fuel →
        exec (enforceMemoryLimit fuel) (clockAt 0) tight =
          (.finished keys.length ok, n, tight.evictAll keys)) ∧ Enforces tight keys ok := by
  have hs : WellFormed tight := exec_wellFormed _ _ _ (configured_wellFormed _ _ _)
  obtain ⟨enough, keys, ok, n, hexec, h, -⟩ := enforceMemoryLimit_alone hs (clockAt 0)
  exact ⟨by decide +kernel, enough, keys, ok, n, hexec, h⟩

end RedisClone.Store
