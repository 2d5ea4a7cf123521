import Mathlib.Tactic

/-! Logs of updates to a store with keys, where an update may depend on what it finds under a key.
What a log leaves under a key that one of its updates overwrites is up to the log alone. -/

namespace RedisClone.Lib

/-- The updates of type `M`: what each makes of what it finds under a key, the keys it mentions, and
those of them where it does not matter what it finds. -/
structure UpdateLog (K V M : Type) where
  act : M → K → V → V
  mentions : M → List K
  overwrites : M → List K
  act_of_not_mem : ∀ {m k}, k ∉ mentions m → ∀ x, act m k x = x
  act_const : ∀ {m k}, k ∈ overwrites m → ∀ x y, act m k x = act m k y

namespace UpdateLog

variable {K V M : Type} (L : UpdateLog K V M)

def replay (log : List M) (s : K → V) : K → V := log.foldl (fun s m k => L.act m k (s k)) s

def mentioned (log : List M) : List K := log.flatMap L.mentions

def overwritten (log : List M) : List K := log.flatMap L.overwrites

def Grounded (log : List M) : Prop := ∀ k ∈ L.mentioned log, k ∈ L.overwritten log

variable {L} {log : List M} {m : M} {k : K}

lemma replay_snoc (s : K → V) : L.replay (log ++ [m]) s k = L.act m k (L.replay log s k) := by
  rw [replay, List.foldl_append]
  rfl

lemma mem_mentioned_snoc :
    k ∈ L.mentioned (log ++ [m]) ↔ k ∈ L.mentioned log ∨ k ∈ L.mentions m := by
  simp [mentioned, List.flatMap_append]

lemma mem_overwritten_snoc :
    k ∈ L.overwritten (log ++ [m]) ↔ k ∈ L.overwritten log ∨ k ∈ L.overwrites m := by
  simp [overwritten, List.flatMap_append]

lemma replay_of_not_mentioned (hk : k ∉ L.mentioned log) (s : K → V) : L.replay log s k = s k := by
  induction log using List.reverseRecOn with
  | nil => rfl
  | append_singleton log m ih =>
    rw [mem_mentioned_snoc, not_or] at hk
    rw [replay_snoc, L.act_of_not_mem hk.2, ih hk.1]

lemma replay_of_overwritten (hk : k ∈ L.overwritten log) (s s' : K → V) :
    L.replay log s k = L.replay log s' k := by
  induction log using List.reverseRecOn with
  | nil => exact absurd hk List.not_mem_nil
  | append_singleton log m ih =>
    rw [replay_snoc, replay_snoc]
    rcases mem_overwritten_snoc.1 hk with hk | hk
    · rw [ih hk]
    · exact L.act_const hk _ _

lemma Grounded.snoc (h : L.Grounded log)
    (hm : ∀ k ∈ L.mentions m, k ∈ L.overwritten log ∨ k ∈ L.overwrites m) :
    L.Grounded (log ++ [m]) := by
  intro k hk
  rw [mem_overwritten_snoc]
  rcases mem_mentioned_snoc.1 hk with hk | hk
  · exact .inl (h k hk)
  · exact hm k hk

lemma Grounded.replay_replay (h : L.Grounded log) (s : K → V) :
    L.replay log (L.replay log s) = L.replay log s := by
  funext k
  by_cases hk : k ∈ L.mentioned log
  · exact replay_of_overwritten (h k hk) _ _
  · rw [replay_of_not_mentioned hk]

end UpdateLog

end RedisClone.Lib
