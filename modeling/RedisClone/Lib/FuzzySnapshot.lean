import RedisClone.Lib.KeyedLog

/-! A store with a log, and the replacement of the log by a snapshot that is read piece by piece
while the store changes. An update changes the store first and is appended to the log after that,
one update at a time. -/

namespace RedisClone.Lib

variable {K V D M I : Type}

structure Rewrite (M I : Type) where
  tail : List M
  read : Set I
  dump : List M

/-- `due` has changed the store and is not in the log yet; `count` updates have been appended in
all, and the first `settled` ones in the file have come into it together, as a replacement. -/
structure Logbook (K V M I : Type) where
  now : K → Option V
  file : List M
  due : Option M
  rewrite : Option (Rewrite M I)
  count : ℕ
  settled : ℕ

namespace Logbook

def opened (L : KeyedLog K V D M) (file : List M) : Logbook K V M I :=
  ⟨L.replay file fun _ => none, file, none, none, 0, file.length⟩

section Steps

variable (L : KeyedLog K V D M) (shard : K → I) (ok : Logbook K V M I → I → Prop)

structure Dumps (i : I) (now : K → Option V) (dump : List M) : Prop where
  inside : ∀ k, shard k = i → L.replay dump (fun _ => none) k = now k
  outside : ∀ k, shard k ≠ i → L.overall dump k = .keep

inductive Step (b : Logbook K V M I) : Logbook K V M I → Prop
  | commit (m : M) (hdue : b.due = none) :
      Step b { b with now := L.replay [m] b.now, due := some m }
  | append (m : M) (hdue : b.due = some m) : Step b
      { b with
        file := b.file ++ [m]
        due := none
        count := b.count + 1
        rewrite := b.rewrite.map fun r => { r with tail := r.tail ++ [m] } }
  | start (hno : b.rewrite = none) : Step b { b with rewrite := some ⟨[], ∅, []⟩ }
  | read {r : Rewrite M I} {i : I} {dump : List M} (hr : b.rewrite = some r) (hi : i ∉ r.read)
      (hok : ok b i) (hd : Dumps L shard i b.now dump) : Step b
      { b with rewrite := some { r with read := insert i r.read, dump := r.dump ++ dump } }
  | install {r : Rewrite M I} (hr : b.rewrite = some r) (hall : ∀ k, shard k ∈ r.read) : Step b
      { b with file := r.dump ++ r.tail, rewrite := none, settled := (r.dump ++ r.tail).length }

/-- Replaying the log and what is due on nothing makes the store; and so it will be with the
replacement, on the pieces it has read. -/
structure Sound (b : Logbook K V M I) : Prop where
  file : b.now = L.replay (b.file ++ b.due.toList) fun _ => none
  base : ∀ r ∈ b.rewrite, ∃ s, L.replay b.file (fun _ => none) = L.replay r.tail s
  read : ∀ r ∈ b.rewrite, ∀ k, shard k ∈ r.read →
    L.replay (r.dump ++ r.tail ++ b.due.toList) (fun _ => none) k = b.now k
  unread : ∀ r ∈ b.rewrite, ∀ k, shard k ∉ r.read → L.overall r.dump k = .keep

end Steps

variable {L : KeyedLog K V D M} {shard : K → I} {ok : Logbook K V M I → I → Prop}
  {b b' : Logbook K V M I}

lemma sound_opened (file : List M) : Sound L shard (opened L file) where
  file := by simp [opened]
  base _ hr := absurd hr (Option.not_mem_none _)
  read _ hr := absurd hr (Option.not_mem_none _)
  unread _ hr := absurd hr (Option.not_mem_none _)

lemma Sound.reread (h : Sound L shard b) {r : Rewrite M I} (hr : r ∈ b.rewrite)
    (s : K → Option V) {k : K} (hk : s k = b.now k) :
    L.replay (r.tail ++ b.due.toList) s k = b.now k := by
  obtain ⟨base, hbase⟩ := h.base r hr
  have hnow : b.now = L.replay (r.tail ++ b.due.toList) base := by
    rw [h.file, L.replay_append, hbase, L.replay_append]
  rw [L.replay_congr _ hk, hnow, L.replay_replay]

lemma Sound.step (h : Sound L shard b) (hs : Step L shard ok b b') : Sound L shard b' := by
  cases hs with
  | commit m hdue =>
    have hfile : b.now = L.replay b.file fun _ => none := by simpa [hdue] using h.file
    refine ⟨?_, h.base, fun r hr k hk => ?_, h.unread⟩
    · simp only [Option.toList_some, L.replay_append, ← hfile]
    · have hread : L.replay (r.dump ++ r.tail) (fun _ => none) k = b.now k := by
        simpa [hdue] using h.read r hr k hk
      simp only [Option.toList_some]
      rw [L.replay_append (r.dump ++ r.tail)]
      exact L.replay_congr [m] hread
  | append m hdue =>
    refine ⟨?_, fun r hr => ?_, fun r hr k hk => ?_, fun r hr => ?_⟩
    · have hfile := h.file
      rw [hdue] at hfile
      simpa using hfile
    · obtain ⟨r₀, hr₀, rfl⟩ := Option.mem_map.1 hr
      obtain ⟨base, hbase⟩ := h.base r₀ hr₀
      exact ⟨base, by rw [L.replay_append, hbase, L.replay_append]⟩
    · obtain ⟨r₀, hr₀, rfl⟩ := Option.mem_map.1 hr
      have hread := h.read r₀ hr₀ k hk
      rw [hdue] at hread
      simpa using hread
    · obtain ⟨r₀, hr₀, rfl⟩ := Option.mem_map.1 hr
      exact h.unread r₀ hr₀
  | start hno =>
    refine ⟨h.file, fun r hr => ?_, fun r hr k hk => ?_, fun r hr k _ => ?_⟩ <;> obtain rfl :=
      Option.some.inj hr
    · exact ⟨_, rfl⟩
    · exact absurd hk (Set.notMem_empty _)
    · rfl
  | @read r i dump hrw hi _ hd =>
    refine ⟨h.file, fun r' hr => ?_, fun r' hr k hk => ?_, fun r' hr k hk => ?_⟩ <;> obtain rfl :=
      Option.some.inj hr
    · exact h.base r hrw
    · change L.replay (r.dump ++ dump ++ r.tail ++ b.due.toList) (fun _ => none) k = b.now k
      rw [List.append_assoc, L.replay_append (r.dump ++ dump), L.replay_append r.dump]
      by_cases hki : shard k = i
      · refine h.reread hrw _ ?_
        rw [L.replay_congr dump (L.replay_of_keep (h.unread r hrw k (hki ▸ hi)) _)]
        exact hd.inside k hki
      · have hread : shard k ∈ r.read := (Set.mem_insert_iff.1 hk).resolve_left hki
        rw [← h.read r hrw k hread, List.append_assoc, L.replay_append r.dump (r.tail ++ _)]
        exact L.replay_congr _ (L.replay_of_keep (hd.outside k hki) _)
    · obtain ⟨hki, hread⟩ := not_or.1 (Set.mem_insert_iff.not.1 hk)
      rw [L.overall_append (h.unread r hrw k hread)]
      exact hd.outside k hki
  | @install r hrw hall =>
    refine ⟨funext fun k => (h.read r hrw k (hall k)).symm, fun r hr => ?_, fun r hr => ?_,
      fun r hr => ?_⟩ <;>
      exact absurd hr (Option.not_mem_none _)

section Crash

variable (L) in
def Alone (m : M) (k : K) : Prop := ∀ k', k' ≠ k → L.change m k' = .keep

variable (L shard) in
/-- What is due changes nothing in the piece, or one key only. In that case the value it gives the
key is not one that the updates appended since the replacement began would overwrite a part of. -/
def Untorn (b : Logbook K V M I) (i : I) : Prop :=
  ∀ r ∈ b.rewrite, ∀ m ∈ b.due, ∀ k, shard k = i → L.change m k = .keep ∨
    Alone L m k ∧ ∀ d v, L.overall r.tail k = .stamp d → L.change m k = .assign (some v) →
      L.stamp d v = v

variable (L shard) in
def Whole (b : Logbook K V M I) : Prop :=
  ∀ r ∈ b.rewrite, ∀ k, shard k ∈ r.read →
    L.replay (r.dump ++ r.tail) (fun _ => none) k = L.replay b.file (fun _ => none) k ∨
      ∃ m ∈ b.due, Alone L m k ∧ L.replay (r.dump ++ r.tail) (fun _ => none) k = b.now k

lemma whole_opened (file : List M) : Whole L shard (opened L file) :=
  fun _ hr => absurd hr (Option.not_mem_none _)

lemma Sound.now_of_keep (h : Sound L shard b) {k : K} (hk : ∀ m ∈ b.due, L.change m k = .keep) :
    b.now k = L.replay b.file (fun _ => none) k := by
  rw [h.file, L.replay_append]
  cases hdue : b.due with
  | none => rfl
  | some m =>
    rw [Option.toList_some, L.replay_singleton, hk m hdue]
    rfl

lemma Sound.tail_read (h : Sound L shard b) {r : Rewrite M I} (hr : r ∈ b.rewrite) {i : I}
    (hok : Untorn L shard b i) {s : K → Option V} {k : K} (hi : shard k = i) (hk : s k = b.now k) :
    L.replay r.tail s k = L.replay b.file (fun _ => none) k ∨
      ∃ m ∈ b.due, Alone L m k ∧ L.replay r.tail s k = b.now k := by
  obtain ⟨base, hbase⟩ := h.base r hr
  have hsame (hnow : b.now k = L.replay b.file (fun _ => none) k) :
      L.replay r.tail s k = L.replay b.file (fun _ => none) k := by
    rw [L.replay_congr _ (hk.trans hnow), hbase, L.replay_replay]
  cases hdue : b.due with
  | none =>
    exact .inl (hsame (h.now_of_keep fun m hm => absurd (hdue ▸ hm) (Option.not_mem_none m)))
  | some m =>
    rcases hok r hr m hdue k hi with hkeep | ⟨halone, hstamp⟩
    · refine .inl (hsame (h.now_of_keep fun m' hm' => ?_))
      rw [hdue] at hm'
      exact Option.some.inj hm' ▸ hkeep
    · have hnow : b.now k = L.apply (L.change m k) (L.replay b.file (fun _ => none) k) := by
        rw [h.file, hdue, L.replay_append]
        rfl
      rw [L.replay_eq, hk, hbase, L.replay_eq]
      rw [hbase, L.replay_eq] at hnow
      cases htail : L.overall r.tail k with
      | keep => exact .inr ⟨m, rfl, halone, rfl⟩
      | assign v => exact .inl rfl
      | stamp d =>
        rw [htail] at hnow
        cases hm : L.change m k with
        | keep =>
          rw [hm] at hnow
          rw [hnow]
          exact .inl (L.apply_apply (.stamp d) (base k))
        | assign v =>
          rw [hm] at hnow
          refine .inr ⟨m, rfl, halone, ?_⟩
          rw [hnow]
          cases v with
          | none => rfl
          | some v => exact congrArg some (hstamp d v htail hm)
        | stamp d' =>
          rw [hm] at hnow
          rw [hnow]
          exact .inl ((L.map_stamp_stamp d d' _).trans (L.apply_apply (.stamp d) (base k)))

lemma Whole.step (hw : Whole L shard b) (h : Sound L shard b)
    (hs : Step L shard (Untorn L shard) b b') : Whole L shard b' := by
  cases hs with
  | commit m hdue =>
    intro r hr k hk
    rcases hw r hr k hk with hleft | ⟨m', hm', -⟩
    · exact .inl hleft
    · exact absurd (hdue ▸ hm') (Option.not_mem_none m')
  | append m hdue =>
    intro r hr k hk
    obtain ⟨r₀, hr₀, rfl⟩ := Option.mem_map.1 hr
    have hread := h.read r₀ hr₀ k hk
    have hfile := congrFun h.file k
    rw [hdue] at hread hfile
    refine .inl ?_
    rw [← List.append_assoc]
    exact hread.trans hfile
  | start hno =>
    intro r hr k hk
    obtain rfl := Option.some.inj hr
    exact absurd hk (Set.notMem_empty _)
  | @read r i dump hrw hi hok hd =>
    intro r' hr k hk
    obtain rfl := Option.some.inj hr
    change L.replay (r.dump ++ dump ++ r.tail) (fun _ => none) k = _ ∨ ∃ m ∈ b.due, _ ∧
      L.replay (r.dump ++ dump ++ r.tail) _ k = _
    rw [L.replay_append (r.dump ++ dump), L.replay_append r.dump]
    by_cases hki : shard k = i
    · refine h.tail_read hrw hok hki ?_
      rw [L.replay_congr dump (L.replay_of_keep (h.unread r hrw k (hki ▸ hi)) _)]
      exact hd.inside k hki
    · have hread : shard k ∈ r.read := (Set.mem_insert_iff.1 hk).resolve_left hki
      have hold := hw r hrw k hread
      rwa [L.replay_append r.dump, ← L.replay_congr r.tail
        (L.replay_of_keep (hd.outside k hki) (L.replay r.dump _))] at hold
  | @install r hrw hall => exact fun r hr => absurd hr (Option.not_mem_none _)

lemma Whole.install (hw : Whole L shard b) (h : Sound L shard b) {r : Rewrite M I}
    (hr : r ∈ b.rewrite) (hall : ∀ k, shard k ∈ r.read) :
    L.replay (r.dump ++ r.tail) (fun _ => none) = L.replay b.file (fun _ => none) ∨
      L.replay (r.dump ++ r.tail) (fun _ => none) = b.now := by
  by_cases hleft : ∀ k, L.replay (r.dump ++ r.tail) (fun _ => none) k = L.replay b.file
    (fun _ => none) k
  · exact .inl (funext hleft)
  · obtain ⟨k, hk⟩ := not_forall.1 hleft
    obtain ⟨m, hm, halone, hnow⟩ := (hw r hr k (hall k)).resolve_left hk
    refine .inr (funext fun k' => ?_)
    by_cases he : k' = k
    · exact he ▸ hnow
    · rcases hw r hr k' (hall k') with hsame | ⟨-, -, -, hsame⟩
      · rw [hsame, h.now_of_keep fun m' hm' => ?_]
        exact Option.some.inj (hm.symm.trans hm') ▸ halone k' he
      · exact hsame

variable (L) in
structure Recalled (visited : ℕ → (K → Option V) → Prop) (b : Logbook K V M I) : Prop where
  settled_le : b.settled ≤ b.file.length
  visited : ∀ j, b.settled ≤ j → j ≤ b.file.length → ∃ n, n + b.file.length = b.count + j ∧
    visited n (L.replay (b.file.take j) fun _ => none)

lemma recalled_opened {visited : ℕ → (K → Option V) → Prop} {file : List M}
    (hv : visited 0 (L.replay file fun _ => none)) :
    Recalled L visited (opened L file : Logbook K V M I) := by
  refine ⟨le_rfl, fun j h₁ h₂ => ⟨0, ?_, ?_⟩⟩
  · exact congrArg (0 + ·) (le_antisymm h₁ h₂)
  · rw [le_antisymm h₂ h₁]
    simpa [opened] using hv

structure Retains (n : ℕ) (b : Logbook K V M I) : Prop where
  count : n ≤ b.count
  settled : n + b.file.length ≤ b.count + b.settled

lemma retains_opened (file : List M) : Retains 0 (opened L file : Logbook K V M I) :=
  ⟨le_rfl, le_rfl⟩

lemma Retains.step {n : ℕ} (h : Retains n b) (hs : Step L shard ok b b') : Retains n b' := by
  obtain ⟨hcount, hsettled⟩ := h
  cases hs with
  | commit | start | read => exact ⟨hcount, hsettled⟩
  | append m hdue =>
    refine ⟨Nat.le_succ_of_le hcount, ?_⟩
    simp only [List.length_append, List.length_singleton]
    omega
  | install hr hall => exact ⟨hcount, Nat.add_le_add_right hcount _⟩

lemma Retains.le {n m j : ℕ} (h : Retains n b) (hj : b.settled ≤ j)
    (hm : m + b.file.length = b.count + j) : n ≤ m := by
  have hsettled := h.settled
  omega

lemma Recalled.step {visited : ℕ → (K → Option V) → Prop} (hr : Recalled L visited b)
    (hw : Whole L shard b) (h : Sound L shard b) (hs : Step L shard (Untorn L shard) b b')
    (hnow : visited b'.count b'.now) : Recalled L visited b' := by
  cases hs with
  | commit m hdue => exact ⟨hr.settled_le, hr.visited⟩
  | append m hdue =>
    refine ⟨hr.settled_le.trans (by simp), fun j h₁ h₂ => ?_⟩
    rw [List.length_append, List.length_singleton] at h₂
    rcases Nat.lt_or_ge b.file.length j with hj | hj
    · obtain rfl : j = b.file.length + 1 := by omega
      refine ⟨b.count + 1, by simp [Nat.add_assoc], ?_⟩
      have hfile := h.file
      rw [hdue] at hfile
      rw [List.take_of_length_le (by simp)]
      exact hfile ▸ hnow
    · obtain ⟨n, hn, hv⟩ := hr.visited j h₁ hj
      refine ⟨n, ?_, ?_⟩
      · simp only [List.length_append, List.length_singleton]
        omega
      · simpa only [List.take_append_of_le_length hj] using hv
  | start hno => exact ⟨hr.settled_le, hr.visited⟩
  | read _ _ _ _ => exact ⟨hr.settled_le, hr.visited⟩
  | @install r hrw hall =>
    refine ⟨le_rfl, fun j h₁ h₂ => ?_⟩
    obtain rfl : j = (r.dump ++ r.tail).length := le_antisymm h₂ h₁
    refine ⟨b.count, rfl, ?_⟩
    rw [List.take_length]
    rcases hw.install h hrw hall with hold | hnew
    · obtain ⟨n, hn, hv⟩ := hr.visited b.file.length hr.settled_le le_rfl
      rw [List.take_length, ← hold] at hv
      obtain rfl : n = b.count := by omega
      exact hv
    · exact hnew ▸ hnow

end Crash

end Logbook

end RedisClone.Lib
