import Mathlib.Tactic

/-! Logs of updates to a store with keys. An update gives a key a value or takes it away, overwrites
a part of the value that is there, or leaves the key alone. What a whole log does to a key is again
one of these, so a log that is replayed on its own outcome changes nothing. -/

namespace RedisClone.Lib

inductive Change (V D : Type)
  | keep
  | assign (v : Option V)
  | stamp (d : D)
  deriving DecidableEq

/-- The updates of type `M`, by what each does to a key; `stamp` overwrites a part of a value. -/
structure KeyedLog (K V D M : Type) where
  stamp : D → V → V
  change : M → K → Change V D
  stamp_stamp : ∀ d d' v, stamp d (stamp d' v) = stamp d v

namespace KeyedLog

variable {K V D M : Type} (L : KeyedLog K V D M)

def apply : Change V D → Option V → Option V
  | .keep, x => x
  | .assign v, _ => v
  | .stamp d, x => x.map (L.stamp d)

def andThen : Change V D → Change V D → Change V D
  | c, .keep => c
  | _, .assign v => .assign v
  | .assign v, .stamp d => .assign (v.map (L.stamp d))
  | _, .stamp d => .stamp d

lemma map_stamp_stamp (d d' : D) (x : Option V) :
    (x.map (L.stamp d')).map (L.stamp d) = x.map (L.stamp d) := by
  rw [Option.map_map]
  exact congrArg (Option.map · x) (funext (L.stamp_stamp d d'))

lemma apply_andThen (c c' : Change V D) (x : Option V) :
    L.apply (L.andThen c c') x = L.apply c' (L.apply c x) := by
  cases c' with
  | keep => rfl
  | assign v => cases c <;> rfl
  | stamp d =>
    cases c with
    | keep => rfl
    | assign v => rfl
    | stamp d' => exact (L.map_stamp_stamp d d' x).symm

lemma apply_apply (c : Change V D) (x : Option V) : L.apply c (L.apply c x) = L.apply c x := by
  cases c with
  | keep => rfl
  | assign v => rfl
  | stamp d => exact L.map_stamp_stamp d d x

def replay (log : List M) (s : K → Option V) : K → Option V :=
  log.foldl (fun s m k => L.apply (L.change m k) (s k)) s

def overall (log : List M) (k : K) : Change V D :=
  log.foldl (fun c m => L.andThen c (L.change m k)) .keep

@[simp] lemma replay_nil (s : K → Option V) : L.replay [] s = s := rfl

@[simp] lemma overall_nil (k : K) : L.overall [] k = .keep := rfl

lemma replay_append (log log' : List M) (s : K → Option V) :
    L.replay (log ++ log') s = L.replay log' (L.replay log s) :=
  List.foldl_append

lemma replay_singleton (m : M) (s : K → Option V) (k : K) :
    L.replay [m] s k = L.apply (L.change m k) (s k) := rfl

lemma replay_eq (log : List M) (s : K → Option V) (k : K) :
    L.replay log s k = L.apply (L.overall log k) (s k) := by
  suffices h : ∀ (s : K → Option V) (c : Change V D) (x : Option V), s k = L.apply c x →
      L.replay log s k = L.apply (log.foldl (fun c m => L.andThen c (L.change m k)) c) x
        from h s .keep (s k) rfl
  induction log with
  | nil => exact fun s c x h => h
  | cons m log ih =>
    intro s c x h
    refine ih _ (L.andThen c (L.change m k)) x ?_
    rw [apply_andThen, ← h]

lemma overall_append {log : List M} {k : K} (h : L.overall log k = .keep) (log' : List M) :
    L.overall (log ++ log') k = L.overall log' k := by
  rw [overall, List.foldl_append]
  exact congrArg (log'.foldl _) h

lemma overall_of_keep {log : List M} {k : K} (h : ∀ m ∈ log, L.change m k = .keep) :
    L.overall log k = .keep := by
  induction log with
  | nil => rfl
  | cons m log ih =>
    have hm : L.overall [m] k = .keep := by
      rw [overall, List.foldl_cons, List.foldl_nil, h m List.mem_cons_self]
      rfl
    exact (L.overall_append hm log).trans (ih fun m' hm' => h m' (List.mem_cons_of_mem m hm'))

lemma replay_congr {s s' : K → Option V} {k : K} (log : List M) (h : s k = s' k) :
    L.replay log s k = L.replay log s' k := by
  rw [replay_eq, replay_eq, h]

lemma replay_of_keep {log : List M} {k : K} (h : L.overall log k = .keep) (s : K → Option V) :
    L.replay log s k = s k := by
  rw [replay_eq, h]
  rfl

lemma replay_replay (log : List M) (s : K → Option V) :
    L.replay log (L.replay log s) = L.replay log s := by
  funext k
  rw [L.replay_eq log s k, ← L.apply_apply (L.overall log k) (s k), ← L.replay_eq log s k]
  exact L.replay_eq log _ k

end KeyedLog

end RedisClone.Lib
