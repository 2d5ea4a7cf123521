import RedisClone.Aof.Recovery
import RedisClone.Server.System

namespace RedisClone.Server

open Store Aof Lib

section Latch

variable (faults : Faults) {l : Log}

lemma syncLocked_latched {fault : Fault} (he : l.err = some fault) (synced fsync : Bool) :
    (l.syncLocked faults synced fsync).2 = l := by
  simp only [Log.syncLocked, he]

lemma run_latched {fault : Fault} (he : l.err = some fault) (call : LogCall) :
    (call.run faults l).err = some fault := by
  cases call with
  | append args => simp only [LogCall.run, Log.append, he]
  | flush => rw [LogCall.run, Log.flush, syncLocked_latched faults he, he]
  | sync synced => rw [LogCall.run, Log.sync, syncLocked_latched faults he, he]
  | beginRewrite => simp only [LogCall.run, Log.beginRewrite, he]
  | prepareRewrite created faults' snapshot =>
    rcases Log.prepareRewrite_cases created faults' snapshot
      l with ⟨e, h⟩ | h <;> simp only [LogCall.run, h] <;> exact he
  | installRewrite i =>
    rcases Log.installRewrite_cases i l with ⟨-, h | h | h⟩ | ⟨-, tmp, -, -, hn, -⟩
    · simp only [LogCall.run, h, he]
    · simp only [LogCall.run, h, he]
    · simp only [LogCall.run, h]
      exact he
    · exact absurd (he.symm.trans hn) (Option.some_ne_none _)

lemma run_policy (call : LogCall) : (call.run faults l).policy = l.policy := by
  have hsync (synced fsync : Bool) : (l.syncLocked faults synced fsync).2.policy = l.policy := by
    simp only [Log.syncLocked]
    split
    · rfl
    · split_ifs <;> rfl
  cases call with
  | append args =>
    simp only [LogCall.run, Log.append]
    split
    · rfl
    · split_ifs <;> rfl
  | flush => exact hsync _ _
  | sync synced => exact hsync _ _
  | beginRewrite =>
    simp only [LogCall.run, Log.beginRewrite]
    split
    · rfl
    · split_ifs <;> rfl
  | prepareRewrite created faults' snapshot =>
    rcases Log.prepareRewrite_cases created faults' snapshot
      l with ⟨e, h⟩ | h <;> simp only [LogCall.run, h]
    rfl
  | installRewrite i =>
    rcases Log.installRewrite_cases i
      l with ⟨-, h | h | h⟩ | ⟨-, tmp, -, -, -, h | h⟩ <;> rw [LogCall.run, h] <;> rfl

end Latch

namespace Ledger

structure Sound (l : Ledger) : Prop where
  clean : Clean l.traced
  records : l.traced.records = l.front ++ l.history.drop l.subsumed
  since : l.traced.since = l.history.drop l.began
  subsumed_le : l.subsumed ≤ l.history.length
  began_le : l.began ≤ l.history.length

lemma opened_sound (policy : Policy) (records : List Record) : (opened policy records).Sound where
  clean := openedOn_clean policy records
  records := (List.append_nil _).symm
  since := rfl
  subsumed_le := le_rfl
  began_le := le_rfl

variable (faults : Faults) {l : Ledger}

lemma call_traced (l : Ledger) (call : LogCall) :
    (l.call faults call).traced = call.trace faults l.traced := by
  cases call with
  | append args =>
    simp only [Ledger.call]
    split_ifs with he
    · obtain ⟨fault, hf⟩ := Option.isSome_iff_exists.1 he
      have hrun : (LogCall.append args).run faults l.traced.log = l.traced.log := by
        simp only [LogCall.run, Log.append, show l.traced.log.err = some fault from hf]
      simp only [LogCall.trace, hrun, he, if_true]
    · rfl
  | sync synced | beginRewrite | installRewrite i =>
    simp only [Ledger.call]
    split_ifs <;> rfl
  | flush | prepareRewrite created faults' snapshot => rfl

lemma call_log (l : Ledger) (call : LogCall) :
    (l.call faults call).log = call.run faults l.log := by
  rw [Ledger.log, call_traced]
  cases call with
  | append args | beginRewrite | prepareRewrite created faults' snapshot | installRewrite i =>
    simp only [LogCall.trace]
    split_ifs <;> rfl
  | flush | sync synced => rfl

lemma Sound.call (h : l.Sound) (call : LogCall) : (l.call faults call).Sound := by
  have hclean : Clean (l.call faults call).traced :=
    call_traced faults l call ▸ clean_trace faults h.clean call
  cases call with
  | append args =>
    by_cases he : l.log.err.isSome
    · rwa [show l.call faults (.append args) = l from if_pos he]
    · rw [show l.call faults (.append args) = _ from if_neg he] at hclean ⊢
      refine ⟨hclean, ?_, ?_, ?_, ?_⟩
      · simp only [LogCall.trace, he, Bool.false_eq_true, if_false, h.records, List.append_assoc,
          List.drop_append_of_le_length h.subsumed_le]
      · simp only [LogCall.trace, he, Bool.false_eq_true, if_false, h.since,
          List.drop_append_of_le_length h.began_le]
      · exact h.subsumed_le.trans (by simp)
      · exact h.began_le.trans (by simp)
  | flush => exact ⟨hclean, h.records, h.since, h.subsumed_le, h.began_le⟩
  | sync synced =>
    simp only [Ledger.call] at hclean ⊢
    split_ifs at hclean ⊢ <;> exact ⟨hclean, h.records, h.since, h.subsumed_le, h.began_le⟩
  | beginRewrite =>
    simp only [Ledger.call] at hclean ⊢
    split_ifs at hclean ⊢ with hb
    · refine ⟨hclean, ?_, ?_, h.subsumed_le, h.began_le⟩
      · simp only [LogCall.trace, hb, if_true, h.records]
      · simp only [LogCall.trace, hb, if_true, h.since]
    · refine ⟨hclean, ?_, ?_, h.subsumed_le, le_rfl⟩
      · simp only [LogCall.trace, hb, Bool.false_eq_true, if_false, h.records]
      · simp only [LogCall.trace, hb, Bool.false_eq_true, if_false, List.drop_length]
  | prepareRewrite created faults' snapshot =>
    refine ⟨hclean, ?_, ?_, h.subsumed_le, h.began_le⟩
    · simp only [Ledger.call, LogCall.trace]
      split_ifs <;> exact h.records
    · simp only [Ledger.call, LogCall.trace]
      split_ifs <;> exact h.since
  | installRewrite i =>
    simp only [Ledger.call] at hclean ⊢
    split_ifs at hclean ⊢ with hn
    · refine ⟨hclean, ?_, ?_, h.began_le, h.began_le⟩
      · simp only [LogCall.trace, hn, if_true, h.since]
      · simp only [LogCall.trace, hn, if_true, h.since]
    · refine ⟨hclean, ?_, ?_, h.subsumed_le, h.began_le⟩
      · simp only [LogCall.trace, hn, Bool.false_eq_true, if_false, h.records]
      · simp only [LogCall.trace, hn, Bool.false_eq_true, if_false, h.since]

lemma Sound.upTo_records (h : l.Sound) (n : ℕ) :
    encodeAll (l.upTo n) <+: encodeAll l.traced.records := by
  rw [h.records, upTo, List.drop_take, encodeAll_append, encodeAll_append,
    List.prefix_append_right_inj]
  exact encodeAll_take_prefix (l.history.drop l.subsumed) (n - l.subsumed) ▸ List.take_prefix _ _

lemma upTo_eq {l' : Ledger} {n : ℕ} (hn : n ≤ l.history.length) (hfront : l'.front = l.front)
    (hsubsumed : l'.subsumed = l.subsumed) (hhistory : l.history <+: l'.history) :
    l'.upTo n = l.upTo n := by
  obtain ⟨more, hmore⟩ := hhistory
  rw [upTo, upTo, hfront, hsubsumed, ← hmore, List.take_append_of_le_length hn]

lemma Sound.durable (h : l.Sound) (hf : l.fsynced = encodeAll l.traced.records) (i : ℕ) :
    l.Durable i := by
  rw [Durable, hf]
  exact h.upTo_records (i + 1)

lemma Sound.call_sync (h : l.Sound) (hp : l.log.policy ≠ .no) (synced : Bool)
    (he : (l.call faults (.sync synced)).log.err = none) (i : ℕ) :
    (l.call faults (.sync synced)).Durable i := by
  have hs := h.call faults (.sync synced)
  have hmoved := hs.clean.moved he
  rw [call_log] at he
  have hok : (l.log.sync faults synced).1 = none := by
    cases hwas : l.log.err with
    | some fault =>
      exact absurd (he.symm.trans (run_latched faults hwas _)) (Option.some_ne_none _).symm
    | none =>
      simp only [LogCall.run, Log.sync, Log.syncLocked, hwas] at he ⊢
      split_ifs at he ⊢ <;> first | rfl | exact absurd he (Option.some_ne_none _)
  have hfile := h.clean.sync_complete faults synced hok
  refine hs.durable ?_ i
  have hcall : l.call faults (.sync synced) =
      { l with traced := { l.traced with log := (l.log.sync faults synced).2 }, fsynced :=
          (l.log.sync faults synced).2.bw.file } := by
    refine if_pos ?_
    rw [Bool.and_eq_true, decide_eq_true_eq]
    exact ⟨Option.isNone_iff_eq_none.2 he, hp⟩
  rw [hcall] at hmoved ⊢
  rw [← hfile, Log.atPath, hmoved, Option.getD_none]

lemma history_le (l : Ledger) (call : LogCall) :
    l.history.length ≤ (l.call faults call).history.length := by
  cases call with
  | append args =>
    simp only [Ledger.call]
    split_ifs
    · exact le_rfl
    · exact List.length_append ▸ Nat.le_add_right _ _
  | sync synced | beginRewrite | installRewrite i =>
    simp only [Ledger.call]
    split_ifs <;> exact le_rfl
  | flush | prepareRewrite created faults' snapshot => exact le_rfl

lemma Sound.call_durable (h : l.Sound) {i : ℕ} (hi : i < l.history.length) (hd : l.Durable i)
    (call : LogCall) : (l.call faults call).Durable i := by
  have hs := h.call faults call
  cases call with
  | append args =>
    simp only [Ledger.call]
    split_ifs
    · exact hd
    · have hsame : Ledger.upTo { l with history := l.history ++ [args] } (i + 1) = l.upTo (i + 1) :=
        upTo_eq (Nat.succ_le_of_lt hi) rfl rfl (List.prefix_append _ _)
      exact (congrArg (encodeAll · <+: l.fsynced) hsame).mpr hd
  | sync synced =>
    by_cases hc :
      (((LogCall.sync synced).trace faults l.traced).log.err.isNone &&
        decide (l.log.policy ≠ .no)) = true
    · rw [Bool.and_eq_true, decide_eq_true_eq] at hc
      refine h.call_sync faults hc.2 synced ?_ i
      rw [call_log]
      exact Option.isNone_iff_eq_none.1 hc.1
    · rwa [show l.call faults (.sync synced) = _ from if_neg hc]
  | beginRewrite =>
    simp only [Ledger.call]
    split_ifs <;> exact hd
  | installRewrite i =>
    by_cases hn : LogCall.renames l.log (.installRewrite i) = true
    · refine hs.durable ?_ _
      obtain ⟨tmp, ht, hr, he⟩ : ∃ tmp, l.log.tmp = some tmp ∧ l.log.rewriting = true ∧
          l.log.err = none := by
        rcases Log.installRewrite_cases i l.log with ⟨hn', -⟩ | ⟨-, tmp, ht, hr, he, -⟩
        · exact absurd (hn'.symm.trans hn) Bool.false_ne_true
        · exact ⟨tmp, ht, hr, he⟩
      rw [show l.call faults (.installRewrite i) = _ from if_pos hn]
      simp only [LogCall.trace, hn, if_true, ht, Option.getD_some, encodeAll_append]
      rw [h.clean.tmp tmp ht, h.clean.tail he hr]
    · rwa [show l.call faults (.installRewrite i) = _ from if_neg hn]
  | flush | prepareRewrite created faults' snapshot => exact hd

end Ledger

section Calm

variable {faults : Faults} (hn : ∀ n, faults n = none) {l : Log}

include hn

lemma append_calm (he : l.err = none) (hw : l.bw.failed = false) (args : List Bytes) :
    (l.append faults args).2.err = none ∧ (l.append faults args).2.rewriting = l.rewriting ∧
    (l.append faults args).2.tmp = l.tmp := by
  have hf := BufferedWriter.writeAll_failed writerBufSize faults hn (Log.chunks args) hw
  simp only [Log.append, he, hf, Bool.false_eq_true, if_false]
  split_ifs <;> exact ⟨rfl, rfl, rfl⟩

lemma syncLocked_calm (he : l.err = none) (hw : l.bw.failed = false) (fsync : Bool) :
    l.syncLocked faults true fsync = (none, { l with bw := l.bw.flush faults }) := by
  have hf := BufferedWriter.flush_failed faults hn hw
  simp only [Log.syncLocked, he, hf, Bool.false_eq_true, if_false, Bool.not_true, Bool.and_false]

lemma prepareRewrite_calm (snapshot : List Record) :
    l.prepareRewrite true faults snapshot =
    (none, { l with tmp := some (encodeAll snapshot) }) := by
  rcases Log.prepareRewrite_cases true faults snapshot l with ⟨e, he⟩ | he
  · have hw := BufferedWriter.writeAll_failed writerBufSize faults hn (snapshot.flatMap Log.chunks)
      (show (BufferedWriter.fresh [] 0).failed = false from rfl)
    have hf := BufferedWriter.flush_failed faults hn hw
    simp only [Log.prepareRewrite, hw, hf, Bool.true_eq_false, Bool.false_eq_true, if_false] at he
    exact absurd (congrArg Prod.fst he).symm (Option.some_ne_none e)
  · exact he

omit hn in
lemma installRewrite_calm {tmp : Bytes} (ht : l.tmp = some tmp) (hr : l.rewriting = true)
    (he : l.err = none) : (l.installRewrite ⟨true, true, true, true, true⟩).2 =
      { l.abortRewrite with tmp := none, bw := .fresh (tmp ++ l.rewriteTail) l.bw.ops } := by
  simp [Log.installRewrite, ht, hr, he, Log.abortRewrite]

end Calm

section Steps

variable {ι : Type} [DecidableEq ι] {site : Site ι} {t : ι} {a : ConnAct} {i : Stimulus}
  {r : a.Resp} {w w' : Process ι}

lemma Process.act_ledger (ha : Process.act site t a i w = some (r, w')) :
    w'.ledger = w.ledger ∨ ∃ call, w'.ledger = w.ledger.call site.logFaults call := by
  cases act_cases ha with
  | @latched record | @appended record => exact .inr ⟨.append record, rfl⟩
  | beginRewrite => exact .inr ⟨.beginRewrite, rfl⟩
  | synced => exact .inr ⟨.sync i.synced, rfl⟩
  | prepareRewrite snapshot => exact .inr ⟨.prepareRewrite i.created i.tmpFaults snapshot, rfl⟩
  | installRewrite => exact .inr ⟨.installRewrite i.install, rfl⟩
  | flushLog => exact .inr ⟨.flush, rfl⟩
  | _ => exact .inl rfl

lemma Ledger.call_history (faults : Faults) (l : Ledger) (call : LogCall) :
    l.history <+: (l.call faults call).history := by
  cases call <;> simp only [Ledger.call] <;> (try
    split_ifs) <;> first | exact List.prefix_refl _ | exact List.prefix_append _ _

lemma after_history (inputs : ι → ℕ → Stimulus) (schedule : List ι) (c : Running ι) :
    c.world.ledger.history <+:
      (c.after (Process.act site) inputs schedule).world.ledger.history := by
  refine Config.after_induction (P := fun c' => c.world.ledger.history <+: c'.world.ledger.history)
      (Q := fun _ _ => True) ?_ schedule c
    (List.prefix_refl _) (.of_forall (fun _ _ => trivial) _ _)
  intro c' t a r c'' hc _ hm
  rcases Process.act_ledger hm.acts with hl | ⟨call, hl⟩
  · rw [hl]
    exact hc
  · rw [hl]
    exact hc.trans (Ledger.call_history _ _ call)

end Steps

end RedisClone.Server
