import RedisClone.Aof.Log

namespace RedisClone.Aof

open Resp Lib

lemma flatten_chunks (args : List Bytes) : (Log.chunks args).flatten = writeCommand args := by
  simp only [Log.chunks, writeCommand, List.flatMap, List.flatten_flatten, List.map_map]
  rfl

lemma flatten_flatMap_chunks (records : List (List Bytes)) :
    (records.flatMap Log.chunks).flatten = encodeAll records := by
  induction records with
  | nil => rfl
  | cons args records ih =>
    rw [List.flatMap_cons, List.flatten_append, flatten_chunks, ih, encodeAll_cons]

lemma encodeAll_concat (records : List (List Bytes)) (args : List Bytes) :
    encodeAll (records ++ [args]) = encodeAll records ++ writeCommand args := by
  simp only [encodeAll_append, encodeAll_cons, encodeAll_nil, List.append_nil]

namespace Log

lemma prepareRewrite_cases (created : Bool) (faults : Faults)
    (snapshot : List (List Bytes)) (l : Log) :
    (∃ e, l.prepareRewrite created faults snapshot = (some e, l.abortRewrite)) ∨
      l.prepareRewrite created faults snapshot =
      (none, { l with tmp := some (encodeAll snapshot) }) := by
  have hw := BufferedWriter.writeAll_follows writerBufSize faults (snapshot.flatMap chunks)
    (BufferedWriter.fresh_follows [] 0)
  rw [flatten_flatMap_chunks, List.nil_append] at hw
  have hfl := BufferedWriter.flush_follows faults hw
  simp only [prepareRewrite]
  split
  · exact .inl ⟨_, rfl⟩
  · split
    · exact .inl ⟨_, rfl⟩
    · split
      · exact .inl ⟨_, rfl⟩
      · rename_i hf
        rw [Bool.not_eq_true] at hf
        have hc := hfl.complete hf
        rw [BufferedWriter.flush_buf faults hf, List.append_nil] at hc
        exact .inr (by rw [hc])

lemma installRewrite_cases (i : Install) (l : Log) :
    (LogCall.renames l (.installRewrite i) = false ∧ ((l.installRewrite i).2 = l ∨
      (l.installRewrite i).2 = { l with tmp := none } ∨
      (l.installRewrite i).2 = { l with tmp := none }.abortRewrite)) ∨
    (LogCall.renames l (.installRewrite i) = true ∧ ∃ tmp, l.tmp = some tmp ∧
      l.rewriting = true ∧ l.err = none ∧
      ((l.installRewrite i).2 =
          { l.abortRewrite with
            tmp := none, moved := some (tmp ++ l.rewriteTail), err := some .reopen } ∨
        (l.installRewrite i).2 =
          { l.abortRewrite with tmp := none, bw := .fresh (tmp ++ l.rewriteTail) l.bw.ops })) := by
  obtain ⟨wroteTail, synced, closed, renamed, reopened⟩ := i
  cases ht : l.tmp with
  | none => exact .inl ⟨by simp [LogCall.renames, ht], .inl (by simp [installRewrite, ht])⟩
  | some tmp =>
    cases hr : l.rewriting with
    | false =>
      exact .inl ⟨by simp [LogCall.renames, hr], .inr (.inl (by simp [installRewrite, ht, hr]))⟩
    | true =>
      cases he : l.err with
      | some fault =>
        exact .inl
          ⟨by simp [LogCall.renames, he], .inr (.inr (by simp [installRewrite, ht, hr, he]))⟩
      | none =>
        by_cases hall : (wroteTail && synced && closed && renamed) = true
        · simp only [Bool.and_eq_true] at hall
          obtain ⟨⟨⟨rfl, rfl⟩, rfl⟩, rfl⟩ := hall
          refine .inr ⟨by simp [LogCall.renames, ht, hr, he], tmp, rfl, rfl, rfl, ?_⟩
          cases reopened with
          | false => exact .inl (by simp [installRewrite, ht, hr, he, fail, abortRewrite])
          | true => exact .inr (by simp [installRewrite, ht, hr, he, abortRewrite])
        · refine .inl ⟨?_, .inr (.inr ?_)⟩
          · simp only [Bool.not_eq_true] at hall
            simpa [LogCall.renames, ht, hr, he] using hall
          · cases wroteTail <;> cases synced <;> cases closed <;> cases renamed <;>
              first | exact absurd rfl hall | simp [installRewrite, ht, hr, he]

end Log

structure Clean (j : Traced) : Prop where
  atPath : j.log.atPath <+: encodeAll j.records
  moved : j.log.err = none → j.log.moved = none
  working : j.log.err = none → j.log.bw.failed = false
  follows : j.log.err = none → j.log.bw.Follows (encodeAll j.records)
  tail : j.log.err = none → j.log.rewriting = true → j.log.rewriteTail = encodeAll j.since
  tmp : ∀ file ∈ j.log.tmp, file = encodeAll j.snapshot

lemma openedOn_clean (policy : Policy) (records : List (List Bytes)) :
    Clean (openedOn policy records) where
  atPath := List.prefix_refl _
  moved _ := rfl
  working _ := rfl
  follows _ := BufferedWriter.fresh_follows _ _
  tail _ h := absurd h Bool.noConfusion
  tmp _ h := absurd h (Option.not_mem_none _)

section Steps

variable (faults : Faults) {j : Traced} (hj : Clean j)

include hj

lemma Clean.broken {fault : Fault} {bw : BufferedWriter UInt8} {records since : List (List Bytes)}
    (he : j.log.err = none) (hbw : bw.Follows (encodeAll records)) :
    Clean ⟨{ j.log with bw := bw, err := some fault }, records, since, j.snapshot⟩ where
  atPath := by
    simp only [Log.atPath, hj.moved he, Option.getD_none]
    exact hbw.written
  moved h := absurd h (Option.some_ne_none _)
  working h := absurd h (Option.some_ne_none _)
  follows h := absurd h (Option.some_ne_none _)
  tail h := absurd h (Option.some_ne_none _)
  tmp := hj.tmp

lemma clean_append (args : List Bytes) : Clean (LogCall.trace faults j (.append args)) := by
  cases he : j.log.err with
  | some fault =>
    simpa only [LogCall.trace, LogCall.run, Log.append, he, Option.isSome_some, if_true] using hj
  | none =>
    have hw := BufferedWriter.writeAll_follows writerBufSize faults (Log.chunks args)
      (hj.follows he)
    rw [flatten_chunks, ← encodeAll_concat] at hw
    simp only [LogCall.trace, LogCall.run, Log.append, he, Option.isSome_none,
      Bool.false_eq_true, if_false]
    split_ifs with hf hr
    · simpa only [Log.fail, he, Option.getD_none] using hj.broken he hw
    · refine ⟨?_, fun _ => hj.moved he, fun _ => Bool.eq_false_iff.2 hf, fun _ => hw,
        fun _ _ => ?_, hj.tmp⟩
      · simpa only [Log.atPath, hj.moved he, Option.getD_none] using hw.written
      · rw [encodeAll_concat, hj.tail he hr]
    · refine ⟨?_, fun _ => hj.moved he, fun _ => Bool.eq_false_iff.2 hf, fun _ => hw,
        fun _ h => absurd h hr, hj.tmp⟩
      simpa only [Log.atPath, hj.moved he, Option.getD_none] using hw.written

lemma clean_syncLocked (synced fsync : Bool) :
    Clean { j with log := (j.log.syncLocked faults synced fsync).2 } := by
  cases he : j.log.err with
  | some fault => simpa only [Log.syncLocked, he] using hj
  | none =>
    have hw := BufferedWriter.flush_follows faults (hj.follows he)
    simp only [Log.syncLocked, he]
    split_ifs with hf hs
    · simpa only [Log.fail, he, Option.getD_none] using hj.broken he hw
    · simpa only [Log.fail, he, Option.getD_none] using hj.broken he hw
    · refine ⟨?_, fun _ => hj.moved he, fun _ => Bool.eq_false_iff.2 hf, fun _ => hw,
        fun _ => hj.tail he, hj.tmp⟩
      simpa only [Log.atPath, hj.moved he, Option.getD_none] using hw.written

lemma clean_beginRewrite : Clean (LogCall.trace faults j .beginRewrite) := by
  cases he : j.log.err with
  | some fault =>
    simpa only [LogCall.trace, LogCall.run, Log.beginRewrite, he, Option.isSome_some, if_true]
      using hj
  | none =>
    simp only [LogCall.trace, LogCall.run, Log.beginRewrite, he]
    by_cases hr : j.log.rewriting = true
    · simpa only [hr, if_true, Option.isSome_some] using hj
    · simp only [hr, Bool.false_eq_true, if_false, Option.isSome_none]
      exact ⟨hj.atPath, fun _ => hj.moved he, fun _ => hj.working he, fun _ => hj.follows he,
        fun _ _ => rfl, hj.tmp⟩

lemma Clean.abort : Clean { j with log := j.log.abortRewrite } :=
  ⟨hj.atPath, hj.moved, hj.working, hj.follows, fun _ h => absurd h Bool.noConfusion, hj.tmp⟩

lemma Clean.untmp : Clean { j with log := { j.log with tmp := none } } :=
  ⟨hj.atPath, hj.moved, hj.working, hj.follows, hj.tail, fun _ h =>
    absurd h (Option.not_mem_none _)⟩

lemma clean_prepareRewrite (created : Bool) (faults' : Faults) (snapshot : List (List Bytes)) :
    Clean (LogCall.trace faults j (.prepareRewrite created faults' snapshot)) := by
  rcases Log.prepareRewrite_cases created faults' snapshot j.log with ⟨e, he⟩ | he
  · simpa only [LogCall.trace, LogCall.run, he, Option.isSome_some, if_true] using hj.abort
  · simp only [LogCall.trace, LogCall.run, he, Option.isSome_none, Bool.false_eq_true, if_false]
    exact ⟨hj.atPath, hj.moved, hj.working, hj.follows, hj.tail, fun _ hm =>
      (Option.some.inj hm).symm⟩

lemma clean_installRewrite (i : Log.Install) :
    Clean (LogCall.trace faults j (.installRewrite i)) := by
  simp only [LogCall.trace, LogCall.run]
  rcases Log.installRewrite_cases i j.log with ⟨hn, h⟩ | ⟨hn, tmp, ht, hr, he, h⟩
  · simp only [hn, Bool.false_eq_true, if_false]
    rcases h with h | h | h
    · rw [h]
      exact hj
    · rw [h]
      exact hj.untmp
    · rw [h]
      exact hj.untmp.abort
  · have hfile : tmp ++ j.log.rewriteTail = encodeAll (j.snapshot ++ j.since) := by
      rw [encodeAll_append, hj.tmp tmp ht, hj.tail he hr]
    simp only [hn, if_true]
    rcases h with h | h
    · rw [h, hfile]
      exact ⟨List.prefix_refl _, fun h => absurd h (Option.some_ne_none _),
        fun h => absurd h (Option.some_ne_none _), fun h => absurd h (Option.some_ne_none _),
          fun h => absurd h (Option.some_ne_none _),
        fun _ h => absurd h (Option.not_mem_none _)⟩
    · rw [h, hfile]
      refine ⟨?_, fun _ => hj.moved he, fun _ => rfl, fun _ => BufferedWriter.fresh_follows _ _,
        fun _ h => absurd h Bool.noConfusion, fun _ h => absurd h (Option.not_mem_none _)⟩
      simp only [Log.atPath, hj.moved he, Log.abortRewrite, Option.getD_none]
      exact List.prefix_refl _

lemma clean_trace (call : LogCall) : Clean (LogCall.trace faults j call) := by
  cases call with
  | append args => exact clean_append faults hj args
  | flush => exact clean_syncLocked faults hj true false
  | sync synced => exact clean_syncLocked faults hj synced _
  | beginRewrite => exact clean_beginRewrite faults hj
  | prepareRewrite created faults' snapshot =>
    exact clean_prepareRewrite faults hj created faults' snapshot
  | installRewrite i => exact clean_installRewrite faults hj i

end Steps

lemma clean_runCalls (faults : Faults) (calls : List LogCall) :
    ∀ {j : Traced}, Clean j → Clean (runCalls faults calls j) := by
  induction calls with
  | nil => exact fun hj => hj
  | cons call calls ih => exact fun hj => ih (clean_trace faults hj call)

lemma Clean.sync_complete {j : Traced} (hj : Clean j) (faults : Faults) (synced : Bool)
    (h : (j.log.sync faults synced).1 = none) :
    (j.log.sync faults synced).2.atPath = encodeAll j.records := by
  cases he : j.log.err with
  | some fault => simp [Log.sync, Log.syncLocked, he] at h
  | none =>
    have hw := BufferedWriter.flush_follows faults (hj.follows he)
    simp only [Log.sync, Log.syncLocked, he] at h ⊢
    split_ifs at h ⊢ with hf hs
    · simp [Log.fail] at h
    · simp [Log.fail] at h
    · rw [Bool.not_eq_true] at hf
      have hc := hw.complete hf
      rw [BufferedWriter.flush_buf faults hf, List.append_nil] at hc
      simpa only [Log.atPath, hj.moved he, Option.getD_none] using hc

lemma Log.syncLocked_extends (faults : Faults) (synced fsync : Bool) {l : Log}
    (hm : l.err = none → l.moved = none) :
    l.atPath <+: (l.syncLocked faults synced fsync).2.atPath := by
  cases he : l.err with
  | some fault => simp [Log.syncLocked, he]
  | none =>
    have hw := BufferedWriter.flush_extends (w := l.bw) faults
    simp only [Log.syncLocked, he]
    split_ifs <;> simpa only [Log.fail, Log.atPath, hm he, Option.getD_none] using hw

lemma Log.append_extends (faults : Faults) (args : List Bytes) {l : Log}
    (hm : l.err = none → l.moved = none) : l.atPath <+: (l.append faults args).2.atPath := by
  cases he : l.err with
  | some fault => simp [Log.append, he]
  | none =>
    have hw := BufferedWriter.writeAll_extends writerBufSize faults (Log.chunks args) (w := l.bw)
    simp only [Log.append, he]
    split_ifs <;> simpa only [Log.fail, Log.atPath, hm he, Option.getD_none] using hw

/-- What the calls other than those of a rewrite see of a log. -/
def Log.core (l : Log) : Policy × BufferedWriter UInt8 × Option Bytes × Option Fault :=
  (l.policy, l.bw, l.moved, l.err)

lemma Log.core_eq {l l' : Log} : l.core = l'.core ↔
    l.policy = l'.policy ∧ l.bw = l'.bw ∧ l.moved = l'.moved ∧ l.err = l'.err := by
  simp only [Log.core, Prod.mk.injEq]

lemma Log.atPath_of_core {l l' : Log} (h : l.core = l'.core) : l.atPath = l'.atPath := by
  obtain ⟨-, h₁, h₂, -⟩ := Log.core_eq.1 h
  rw [Log.atPath, Log.atPath, h₁, h₂]

lemma LogCall.run_ofRewrite (faults : Faults) {l : Log} {call : LogCall}
    (hc : call.ofRewrite = true) (hn : call.renames l = false) :
    (call.run faults l).core = l.core := by
  cases call with
  | append | flush | sync => exact absurd hc Bool.noConfusion
  | beginRewrite =>
    simp only [LogCall.run, Log.beginRewrite]
    split
    · rfl
    · split_ifs <;> rfl
  | prepareRewrite created faults' snapshot =>
    rcases Log.prepareRewrite_cases created faults' snapshot
      l with ⟨e, he⟩ | he <;> simp only [LogCall.run, he] <;> rfl
  | installRewrite i =>
    rcases Log.installRewrite_cases i l with ⟨-, h | h | h⟩ | ⟨h, -⟩
    · simp only [LogCall.run, h]
    · simp only [LogCall.run, h]
      rfl
    · simp only [LogCall.run, h]
      rfl
    · exact absurd (hn.symm.trans h) Bool.noConfusion

lemma Log.syncLocked_core (faults : Faults) (synced fsync : Bool) {l l' : Log}
    (h : l.core = l'.core) :
    (l.syncLocked faults synced fsync).2.core = (l'.syncLocked faults synced fsync).2.core := by
  obtain ⟨h₀, h₁, h₂, h₃⟩ := Log.core_eq.1 h
  simp only [Log.syncLocked, ← h₁, ← h₃]
  cases he : l.err with
  | some fault => exact h
  | none =>
    simp only
    split_ifs <;> simp only [Log.fail, Log.core, h₀, h₂]

lemma Log.append_core (faults : Faults) (args : List Bytes) {l l' : Log} (h : l.core = l'.core) :
    (l.append faults args).2.core = (l'.append faults args).2.core := by
  obtain ⟨h₀, h₁, h₂, h₃⟩ := Log.core_eq.1 h
  simp only [Log.append, ← h₁, ← h₃]
  cases he : l.err with
  | some fault => exact h
  | none =>
    simp only
    split_ifs <;> simp only [Log.fail, Log.core, h₀, h₂]

lemma LogCall.run_core (faults : Faults) {l l' : Log} (h : l.core = l'.core) {call : LogCall}
    (hc : call.ofRewrite = false) : (call.run faults l).core = (call.run faults l').core := by
  cases call with
  | append args => exact Log.append_core faults args h
  | flush => exact Log.syncLocked_core faults true false h
  | sync synced =>
    simp only [LogCall.run, Log.sync, (Log.core_eq.1 h).1]
    exact Log.syncLocked_core faults synced _ h
  | beginRewrite | prepareRewrite | installRewrite => exact absurd hc Bool.noConfusion

def Log.after (faults : Faults) (calls : List LogCall) (l : Log) : Log :=
  calls.foldl (LogCall.run faults) l

def Log.renamedBy (faults : Faults) : List LogCall → Log → Bool
  | [], _ => false
  | call :: calls, l => call.renames l || Log.renamedBy faults calls (call.run faults l)

lemma Log.after_core (faults : Faults) (calls : List LogCall) : ∀ {l l' : Log}, l.core = l'.core →
    Log.renamedBy faults calls l = false → (l.after faults calls).core =
    (l'.after faults (calls.filter fun call => !call.ofRewrite)).core := by
  induction calls with
  | nil => exact fun h _ => h
  | cons call calls ih =>
    intro l l' h hn
    simp only [Log.renamedBy, Bool.or_eq_false_iff] at hn
    cases hc : call.ofRewrite with
    | true =>
      rw [List.filter_cons_of_neg (by simp [hc])]
      exact ih ((LogCall.run_ofRewrite faults hc hn.1).trans h) hn.2
    | false =>
      rw [List.filter_cons_of_pos (by simp [hc])]
      exact ih (LogCall.run_core faults h hc) hn.2

lemma LogCall.run_extends (faults : Faults) {j : Traced} (hj : Clean j) {call : LogCall}
    (hn : call.renames j.log = false) : j.log.atPath <+: (call.run faults j.log).atPath := by
  cases hc : call.ofRewrite with
  | true => rw [Log.atPath_of_core (LogCall.run_ofRewrite faults hc hn)]
  | false =>
    cases call with
    | append args => exact Log.append_extends faults args hj.moved
    | flush => exact Log.syncLocked_extends faults true false hj.moved
    | sync synced => exact Log.syncLocked_extends faults synced _ hj.moved
    | beginRewrite | prepareRewrite | installRewrite => exact absurd hc Bool.noConfusion

/-- The file is a beginning of the encodings of what was appended, and a call that does not rename
only adds to it; a sync that returns no error leaves all of them in it; and calls of a rewrite
that never get to rename leave no trace in file, buffer and latched error. -/
theorem log_is_clean_prefix (faults : Faults) (policy : Policy) (records : List (List Bytes))
    (calls : List LogCall) : let j := runCalls faults calls (openedOn policy records)
    j.log.atPath <+: encodeAll j.records ∧ (∀ call : LogCall, call.renames j.log = false →
        j.log.atPath <+: (call.run faults j.log).atPath) ∧
      (∀ synced, (j.log.sync faults synced).1 = none →
        (j.log.sync faults synced).2.atPath = encodeAll j.records) ∧
      ∀ later, Log.renamedBy faults later j.log = false → (j.log.after faults later).core =
        (j.log.after faults (later.filter fun call => !call.ofRewrite)).core := by
  intro j
  have hj : Clean j := clean_runCalls faults calls (openedOn_clean policy records)
  exact ⟨hj.atPath, fun call hn => LogCall.run_extends faults hj hn,
    fun synced h => hj.sync_complete faults synced h, fun later hn =>
      Log.after_core faults later rfl hn⟩

end RedisClone.Aof
