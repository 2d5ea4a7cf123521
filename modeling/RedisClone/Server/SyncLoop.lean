import RedisClone.Server.Shutdown

namespace RedisClone.Server

open Store Aof Lib Lib.Program

namespace Ledger

/-- The record is in the file, or a rewrite begun after it has been installed, and the whole of its
snapshot is there. -/
def InFile (l : Ledger) (i : ℕ) : Prop := encodeAll (l.upTo (i + 1)) <+: l.log.atPath

variable (faults : Faults) {l l' : Ledger} {i : ℕ}

lemma Sound.inFile (h : l.Sound) (hfile : l.log.atPath = encodeAll l.traced.records) (i : ℕ) :
    l.InFile i := by
  rw [InFile, hfile]
  exact h.upTo_records (i + 1)

lemma InFile.extends_ (h : l.InFile i) (hi : i < l.history.length) (hfront : l'.front = l.front)
    (hsubsumed : l'.subsumed = l.subsumed) (hhistory : l.history <+: l'.history)
    (hfile : l.log.atPath <+: l'.log.atPath) : l'.InFile i := by
  rw [InFile, upTo_eq hi hfront hsubsumed hhistory]
  exact h.trans hfile

lemma call_front {call : LogCall} (hn : call.renames l.log = false) :
    (l.call faults call).front = l.front ∧ (l.call faults call).subsumed = l.subsumed := by
  cases call with
  | append | sync | beginRewrite =>
    simp only [Ledger.call]
    split_ifs <;> exact ⟨rfl, rfl⟩
  | installRewrite i =>
    rw [show l.call faults (.installRewrite i) = _ from if_neg (Bool.eq_false_iff.1 hn)]
    exact ⟨rfl, rfl⟩
  | flush | prepareRewrite => exact ⟨rfl, rfl⟩

lemma Sound.call_inFile (h : l.Sound) (hi : i < l.history.length) (hd : l.InFile i)
    (call : LogCall) : (l.call faults call).InFile i := by
  cases hn : call.renames l.log with
  | false =>
    obtain ⟨hfront, hsubsumed⟩ := call_front faults hn
    refine hd.extends_ hi hfront hsubsumed (call_history faults l call) ?_
    rw [call_log]
    exact LogCall.run_extends faults h.clean hn
  | true =>
    cases call with
    | installRewrite x =>
      refine (h.call faults (.installRewrite x)).inFile ?_ i
      rcases Log.installRewrite_cases x l.log with ⟨hno, -⟩ | ⟨-, tmp, ht, hr, he, hlog⟩
      · exact absurd (hno.symm.trans hn) Bool.false_ne_true
      · have hrecords : (l.call faults (.installRewrite x)).traced.records =
            l.traced.snapshot ++ l.traced.since := by
          simp only [call_traced, LogCall.trace, hn, if_true]
        have hpath : (l.log.installRewrite x).2.atPath = tmp ++ l.log.rewriteTail := by
          have hmoved := h.clean.moved he
          rcases hlog with hlog | hlog
          · rw [hlog]
            rfl
          · rw [hlog]
            change l.log.moved.getD _ = _
            rw [hmoved]
            rfl
        rw [hrecords, call_log, encodeAll_append, ← h.clean.tmp tmp ht, ← h.clean.tail he hr]
        exact hpath
    | _ => exact absurd hn Bool.false_ne_true

lemma Sound.close_inFile (h : l.Sound) (hi : i < l.history.length) (hd : l.InFile i)
    (synced : Bool) : (l.close faults synced).InFile i :=
  hd.extends_ hi rfl rfl (List.prefix_refl _)
    (Log.syncLocked_extends faults synced true h.clean.moved)

lemma Sound.close_still_durable (h : l.Sound) (hd : l.Durable i) (synced : Bool) :
    (l.close faults synced).Durable i := by
  cases he : (l.close faults synced).log.err with
  | none => exact (h.close_complete faults synced he).durable (h.close faults synced) i
  | some fault =>
    have hsome : (l.log.syncLocked faults synced true).2.err.isNone = false := by
      rw [show (l.log.syncLocked faults synced true).2.err = some fault from he]
      rfl
    simp only [Ledger.close, hsome, Bool.false_eq_true, if_false]
    exact hd

end Ledger

namespace Service

variable {ι : Type} [DecidableEq ι] {roles : ι → Role} {site : Site ι} {stimuli : ι → ℕ → Stimulus}
  {v v' : Service ι} {e : Occurrence ι} {i : ℕ}

structure Kept (synced : Bool) (i : ℕ) (v : Service ι) : Prop where
  appended : i < v.ledger.history.length
  inFile : v.ledger.InFile i
  durable : synced = true → v.ledger.Durable i

lemma Kept.step {synced : Bool} (hk : v.Kept synced i) (h : v.Steady roles)
    (he : Happened roles site stimuli v e v') : v'.Kept synced i := by
  rcases he.ledger with hl | ⟨call, hl⟩ | ⟨-, how, hl⟩
  · exact ⟨hl ▸ hk.appended, hl ▸ hk.inFile, fun hs => hl ▸ hk.durable hs⟩
  · refine ⟨?_, ?_, fun hs => ?_⟩ <;> rw [hl]
    · exact hk.appended.trans_le (Ledger.history_le _ _ call)
    · exact h.sound.call_inFile _ hk.appended hk.inFile call
    · exact h.sound.call_durable _ hk.appended (hk.durable hs) call
  · refine ⟨?_, ?_, fun hs => ?_⟩ <;> rw [hl]
    · exact hk.appended
    · exact h.sound.close_inFile _ hk.appended hk.inFile how
    · exact h.sound.close_still_durable _ (hk.durable hs) how

lemma Kept.after {synced : Bool} (hk : v.Kept synced i) (h : v.Steady roles)
    (events : List (Occurrence ι)) : (v.after roles site stimuli events).Kept synced i := by
  refine (after_induction (P := fun v => v.Steady roles ∧ v.Kept synced i) ?_ events v ⟨h, hk⟩).2
  exact fun v e v' hv he => ⟨hv.1.step he, hv.2.step hv.1 he⟩

lemma Happened.policy (he : Happened roles site stimuli v e v') :
    v'.ledger.log.policy = v.ledger.log.policy := by
  rcases he.ledger with hl | ⟨call, hl⟩ | ⟨-, how, hl⟩
  · rw [hl]
  · rw [hl, Ledger.call_log, run_policy]
  · rw [hl]
    change (v.ledger.log.syncLocked site.logFaults how true).2.policy = _
    simp only [Log.syncLocked]
    split
    · rfl
    · split_ifs <;> rfl

end Service

end RedisClone.Server
