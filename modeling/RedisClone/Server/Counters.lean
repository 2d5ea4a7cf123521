import RedisClone.Server.Handlers
import RedisClone.Store.Counters
import RedisClone.Store.Memory

namespace RedisClone.Server

open Store Resp Lib Lib.Program Lib.Decimal

lemma exec_counter (delta : Int64) (key : Key) (inputs : ℕ → Input) (s : Store) :
    exec (Server.increment delta [key]) inputs s =
      (replyTo (.number (exec (Store.increment key delta) inputs s).1),
        (exec (Store.increment key delta) inputs s).2) := by
  have hp : Server.increment delta [key] = replyTo <$> (Op.increment key delta).program :=
    increment_handles delta [key]
  rw [hp, exec_map, Op.program, exec_map]

lemma exec_counter_integer {delta : Int64} {key : Key} {inputs : ℕ → Input} {s : Store} {n : ℤ}
    (h : (exec (Server.increment delta [key]) inputs s).1 = [.integer n]) :
    (exec (Store.increment key delta) inputs s).1 = some n := by
  rw [exec_counter] at h
  cases hr : (exec (Store.increment key delta) inputs s).1 with
  | none =>
    rw [hr] at h
    exact absurd h (by simp [replyTo, errInteger])
  | some m =>
    rw [hr] at h
    simpa [replyTo] using h

/-- DECR succeeds after INCR, and brings everything back exactly if the value was written as
`FormatInt` writes it. -/
theorem decr_undoes_incr_iff_formatted {s : Store} (hs : WellFormed s) {key : Key} {it : Item}
    {inputs inputs' : ℕ → Input} {n : ℤ} (hlive : s.view.alive (inputs 0).time key = some it)
    (hincr : (exec (incr [key]) inputs s).1 = [.integer n])
    (hlater : it.expired (inputs' 0).time = false) :
    let r := exec (decr [key]) inputs' (exec (incr [key]) inputs s).2.2
    r.1 = [.integer (n - 1)] ∧
      ((r.2.2.view = s.view ∧ ∀ i, (r.2.2.shards i).used = (s.shards i).used) ↔
        ∃ m, it.val = formatInt m) := by
  intro r
  obtain ⟨hkey, -⟩ := Keyspace.alive_eq_some_iff.1 hlive
  have hanswer := (exec_increment hs key 1 inputs).answer
  rw [exec_counter_integer hincr] at hanswer
  obtain ⟨m, hm, hfits, rfl⟩ := Keyspace.incrementEffect_answer hanswer.symm
  -- the store in between
  set s₁ := (exec (incr [key]) inputs s).2.2 with hdef
  have hs₁ : WellFormed s₁ := exec_wellFormed _ _ _ hs
  have hview₁ : s₁.view = s.view.put key (formatInt (m + 1)) it.expiresAt := by
    have h := (exec_increment_of_some hs hm hfits).2.1
    rw [hlive] at h
    rw [hdef, incr, exec_counter]
    exact h
  have hlive₁ : s₁.view.alive (inputs' 0).time key = some ⟨formatInt (m + 1), it.expiresAt⟩ := by
    refine Keyspace.alive_eq_some_iff.2 ⟨?_, hlater⟩
    rw [hview₁, Keyspace.put, Function.update_self]
  have hm₁ : Keyspace.itemCounter (s₁.view.alive (inputs' 0).time key) = some (m + 1) := by
    rw [hlive₁, Keyspace.itemCounter, parseInt64_formatInt]
    exact if_pos hfits
  have hback : m + 1 + (-1 : Int64).toInt = m := by
    rw [show (-1 : Int64).toInt = -1 from rfl]
    omega
  have hm64 := Keyspace.itemCounter_inInt64 hm
  have hfits₁ : inInt64 (m + 1 + (-1 : Int64).toInt) = true := hback.symm ▸ hm64
  obtain ⟨hdecr, hview, -⟩ := exec_increment_of_some hs₁ hm₁ hfits₁
  rw [hback] at hdecr hview
  have hr :
      r = (replyTo (.number (exec (Store.increment key (-1)) inputs' s₁).1),
              (exec (Store.increment key (-1)) inputs' s₁).2) :=
    exec_counter (-1) key inputs' s₁
  have hend : r.2.2.view = s.view.put key (formatInt m) it.expiresAt := by
    rw [hr]
    dsimp only
    rw [hview, hlive₁, hview₁]
    exact Function.update_idem _ _ _
  refine ⟨?_, ?_, ?_⟩
  · rw [hr, hdecr]
    simp [replyTo]
  · rintro ⟨hsame, -⟩
    have hval := congrFun (hend.symm.trans hsame) key
    rw [Keyspace.put, Function.update_self, hkey] at hval
    exact ⟨m, (congrArg Item.val (Option.some.inj hval)).symm⟩
  · rintro ⟨m', hval⟩
    -- the number that the value spells is the counter
    have hm' : m' = m := by
      rw [hlive, Keyspace.itemCounter, hval, parseInt64_formatInt] at hm
      split_ifs at hm
      exact Option.some.inj hm
    have hsame : r.2.2.view = s.view := by
      rw [hend, ← hm', ← hval]
      exact Function.update_eq_self_iff.2 hkey.symm
    exact ⟨hsame, used_of_view hs (exec_wellFormed _ _ _ hs₁) hsame⟩

def holding (key val : String) : Store :=
  (exec (Store.set (ascii key) (ascii val)) (clockAt 0) (configured true 0 .noEviction)).2.2

theorem decr_undoes_incr_seven :
    let r := exec (decr [ascii "n"]) (clockAt 0)
      (exec (incr [ascii "n"]) (clockAt 0) (holding "n" "7")).2.2
    r.1 = [.integer 7] ∧ r.2.2.view = (holding "n" "7").view ∧
    ∀ i, (r.2.2.shards i).used = ((holding "n" "7").shards i).used := by
  have hs : WellFormed (holding "n" "7") := exec_wellFormed _ _ _ (configured_wellFormed _ _ _)
  have hlive : (holding "n" "7").view.alive (clockAt 0 0).time (ascii "n") =
    some ⟨ascii "7", none⟩ := by decide +kernel
  have hincr : (exec (incr [ascii "n"]) (clockAt 0) (holding "n" "7")).1 = [.integer 8] := by
    decide +kernel
  have hlater : (⟨ascii "7", none⟩ : Item).expired (clockAt 0 0).time = false := rfl
  have h := decr_undoes_incr_iff_formatted hs hlive hincr hlater
  exact ⟨h.1, h.2.2 ⟨7, by decide⟩⟩

/-- A plus sign is accepted by INCR, and DECR does not bring it back. -/
theorem decr_loses_plus_sign :
    let s := (exec (incr [ascii "n"]) (clockAt 0) (holding "n" "+5")).2.2
    let r := exec (decr [ascii "n"]) (clockAt 0) s
    (exec (incr [ascii "n"]) (clockAt 0) (holding "n" "+5")).1 = [.integer 6] ∧ r.1 = [.integer 5] ∧
      (holding "n" "+5").view (ascii "n") = some ⟨ascii "+5", none⟩ ∧
      r.2.2.view (ascii "n") = some ⟨ascii "5", none⟩ ∧
      (exec used (clockAt 0) r.2.2).1 = (exec used (clockAt 0) (holding "n" "+5")).1 - 1 := by
  decide +kernel

end RedisClone.Server
