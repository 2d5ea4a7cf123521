import RedisClone.Store.Expiry

namespace RedisClone.Store

open Lib Lib.Program Lib.Decimal

namespace Keyspace

lemma collect_of_alive {ks : Keyspace} {key : Key} {now : ℤ} (h : ks.alive now key ≠ none) :
    ks.collect key now = ks := by
  unfold collect
  rw [if_neg]
  intro hx
  exact h (alive_eq_none_of_expired le_rfl hx)

lemma alive_ne_none_of_refused {ks : Keyspace} {key : Key} {now : ℤ} {delta : Int64}
    (h : ∀ n, itemCounter (ks.alive now key) = some n → inInt64 (n + delta.toInt) = false) :
    ks.alive now key ≠ none := by
  intro hn
  have hlow := Int64.le_toInt delta
  have hhigh := Int64.toInt_lt delta
  have hout := h 0 (by rw [hn]; rfl)
  rw [← Bool.not_eq_true, inInt64_iff, minInt64, maxInt64] at hout
  omega

lemma incrementEffect_of_some {ks : Keyspace} {key : Key} {delta : Int64} {now n : ℤ}
    (hn : itemCounter (ks.alive now key) = some n) (hfits : inInt64 (n + delta.toInt) = true) :
    let val := formatInt (n + delta.toInt)
    let expiresAt := itemDeadline (ks.alive now key)
    ks.incrementEffect key delta now =
    ⟨some (n + delta.toInt), ks.put key val expiresAt, [.put key val expiresAt]⟩ := by
  have hno : ¬ sumOverflows n delta.toInt = true :=
    fun ho => (sumOverflows_iff (itemCounter_inInt64 hn) delta).1 ho hfits
  have hput (val : Bytes) (expiresAt : Time) : (ks.collect key now).put key val expiresAt =
      ks.put key val expiresAt := by
    unfold collect
    split_ifs
    · exact Function.update_idem _ _ _
    · rfl
  simp only [incrementEffect, collect_apply, hn, if_neg hno, wrap64_of_inInt64 hfits, hput]

lemma incrementEffect_of_none {ks : Keyspace} {key : Key} {delta : Int64} {now : ℤ}
    (h : ∀ n, itemCounter (ks.alive now key) = some n → inInt64 (n + delta.toInt) = false) :
    ks.incrementEffect key delta now = ⟨none, ks, []⟩ := by
  simp only [incrementEffect, collect_apply, collect_of_alive (alive_ne_none_of_refused h)]
  cases hn : itemCounter (ks.alive now key) with
  | none => rfl
  | some n =>
    have hover : sumOverflows n delta.toInt = true :=
      (sumOverflows_iff (itemCounter_inInt64 hn) delta).2 (Bool.not_eq_true _ ▸ h n hn)
    simp only [hover, if_true]

lemma incrementEffect_answer {ks : Keyspace} {key : Key} {delta : Int64} {now n : ℤ}
    (h : (ks.incrementEffect key delta now).answer = some n) :
    ∃ m, itemCounter (ks.alive now key) = some m ∧ inInt64 (m + delta.toInt) = true ∧
    n = m + delta.toInt := by
  by_cases hm : ∀ m, itemCounter (ks.alive now key) = some m → inInt64 (m + delta.toInt) = false
  · rw [incrementEffect_of_none hm] at h
    cases h
  · push Not at hm
    obtain ⟨m, hc, hfits⟩ := hm
    replace hfits : inInt64 (m + delta.toInt) = true := Bool.eq_true_of_not_eq_false hfits
    rw [incrementEffect_of_some hc hfits] at h
    exact ⟨m, hc, hfits, (Option.some.inj h).symm⟩

end Keyspace

lemma exec_increment {s : Store} (hs : WellFormed s) (key : Key) (delta : Int64)
    (inputs : ℕ → Input) :
    (s.view.incrementEffect key delta (inputs 0).time).Holds s.image
      (exec (increment key delta) inputs s).1 (exec (increment key delta) inputs s).2.2.image :=
  increment_effect key delta (exec_image _ inputs s hs)

section Increment

variable {s : Store} (hs : WellFormed s) {key : Key} {delta : Int64} {inputs : ℕ → Input}

include hs

lemma exec_increment_of_some {n : ℤ}
    (hn : Keyspace.itemCounter (s.view.alive (inputs 0).time key) = some n)
    (hfits : inInt64 (n + delta.toInt) = true) :
    let r := exec (increment key delta) inputs s
    let val := formatInt (n + delta.toInt)
    let expiresAt := Keyspace.itemDeadline (s.view.alive (inputs 0).time key)
    r.1 = some (n + delta.toInt) ∧ r.2.2.view = s.view.put key val expiresAt ∧
      r.2.2.journal = s.journal.map (· ++ [setRecord key val expiresAt]) := by
  intro r val expiresAt
  obtain ⟨hanswer, himage⟩ := exec_increment hs key delta inputs
  rw [Keyspace.incrementEffect_of_some hn hfits] at hanswer himage
  exact ⟨hanswer, congrArg Image.keyspace himage, congrArg Image.journal himage⟩

lemma exec_increment_of_none
    (hno : ∀ n, Keyspace.itemCounter (s.view.alive (inputs 0).time key) = some n →
      inInt64 (n + delta.toInt) = false) :
    (exec (increment key delta) inputs s).1 = none ∧
    (exec (increment key delta) inputs s).2.2.image = s.image := by
  obtain ⟨hanswer, himage⟩ := exec_increment hs key delta inputs
  rw [Keyspace.incrementEffect_of_none hno] at hanswer himage
  exact ⟨hanswer, himage.trans (Image.apply_self _)⟩

end Increment

/-- The sum is exact and stored under the deadline of a live key, or nothing happens. -/
theorem increment_exact {s : Store} (hs : WellFormed s) (key : Key) (delta : Int64)
    (inputs : ℕ → Input) : let live := s.view.alive (inputs 0).time key
    let r := exec (increment key delta) inputs s
    (∀ n, Keyspace.itemCounter live = some n → inInt64 (n + delta.toInt) = true →
      let val := formatInt (n + delta.toInt)
      let expiresAt := Keyspace.itemDeadline live
      r.1 = some (n + delta.toInt) ∧ r.2.2.view = s.view.put key val expiresAt ∧
        r.2.2.journal = s.journal.map (· ++ [setRecord key val expiresAt])) ∧
    ((∀ n, Keyspace.itemCounter live = some n → inInt64 (n + delta.toInt) = false) →
      r.1 = none ∧ r.2.2.view = s.view ∧ r.2.2.journal = s.journal) := by
  intro live r
  refine ⟨fun n hn hfits => exec_increment_of_some hs hn hfits, fun hno => ?_⟩
  obtain ⟨hanswer, himage⟩ := exec_increment_of_none hs hno
  exact ⟨hanswer, congrArg Image.keyspace himage, congrArg Image.journal himage⟩

theorem increment_exact_min :
    let r := exec (increment (ascii "n") Int64.minValue) (fun _ => ⟨0, .stored⟩)
      (configured true 0 .noEviction)
    r.1 = some minInt64 ∧ r.2.2.journal = some
    [setRecord (ascii "n") (formatInt minInt64) none] := by
  have h := (increment_exact (configured_wellFormed true 0 .noEviction) (ascii "n") Int64.minValue
    (fun _ => ⟨0, .stored⟩)).1 0 (by decide) (by decide)
  exact ⟨h.1.trans (by decide), h.2.2.trans (by decide)⟩

end RedisClone.Store
