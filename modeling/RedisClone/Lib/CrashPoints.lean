import Mathlib.Data.List.Basic
import Mathlib.Tactic

namespace RedisClone.Lib

/-- A step takes the system from a state to the next. What it holds in a state is `shows`; what it
holds for a moment inside a step is `amid`. -/
structure Machine (σ μ κ : Type*) where
  step : σ → μ → σ
  shows : σ → κ
  amid : σ → μ → κ → Prop

namespace Machine

variable {σ μ κ : Type*} (M : Machine σ μ κ)

def run (ms : List μ) (s : σ) : σ := ms.foldl M.step s

def Passes : List μ → σ → κ → Prop
  | [], s, k => k = M.shows s
  | m :: ms, s, k => k = M.shows s ∨ M.amid s m k ∨ Passes ms (M.step s m) k

def Along (Q : σ → μ → Prop) : List μ → σ → Prop
  | [], _ => True
  | m :: ms, s => Q s m ∧ Along Q ms (M.step s m)

end Machine

/-- The system adds records to a log with every step. Of what it holds, `look` is what matters, and
a record is applied to that. -/
structure Logging (σ μ ρ κ V : Type*) extends Machine σ μ κ where
  records : σ → μ → List ρ
  look : κ → V
  apply : V → ρ → V

namespace Logging

variable {σ μ ρ κ V : Type*} (L : Logging σ μ ρ κ V)

def logged : List μ → σ → List ρ
  | [], _ => []
  | m :: ms, s => L.records s m ++ logged ms (L.step s m)

def rebuild (rs : List ρ) (v : V) : V := rs.foldl L.apply v

structure Faithful (s : σ) (m : μ) : Prop where
  part : ∀ n < (L.records s m).length, ∃ k, (k = L.shows s ∨ L.amid s m k) ∧
    L.rebuild ((L.records s m).take n) (L.look (L.shows s)) = L.look k
  whole : L.rebuild (L.records s m) (L.look (L.shows s)) = L.look (L.shows (L.step s m))

variable {L}

lemma rebuild_append (rs rs' : List ρ) (v : V) :
    L.rebuild (rs ++ rs') v = L.rebuild rs' (L.rebuild rs v) := List.foldl_append

lemma logged_append (ms ms' : List μ) :
    ∀ s : σ, L.logged (ms ++ ms') s = L.logged ms s ++ L.logged ms' (L.run ms s) := by
  induction ms with
  | nil => exact fun _ => rfl
  | cons m ms ih =>
    intro s
    rw [List.cons_append, logged, logged, ih, List.append_assoc]
    rfl

lemma rebuild_cut {ms : List μ} : ∀ {s : σ}, L.Along L.Faithful ms s → ∀ n ≤ (L.logged ms s).length,
    ∃ k, L.Passes ms s k ∧ L.rebuild ((L.logged ms s).take n) (L.look (L.shows s)) = L.look k ∧
      ∀ before after, ms = before ++ after → (L.logged before s).length ≤ n →
      L.Passes after (L.run before s) k := by
  induction ms with
  | nil =>
    intro s _ n hn
    obtain rfl : n = 0 := Nat.le_zero.1 hn
    refine ⟨L.shows s, rfl, rfl, fun before after h _ => ?_⟩
    obtain ⟨rfl, rfl⟩ := List.append_eq_nil_iff.1 h.symm
    rfl
  | cons m ms ih =>
    intro s ⟨hm, hms⟩ n hn
    by_cases hin : n < (L.records s m).length
    · obtain ⟨k, hk, hv⟩ := hm.part n hin
      have hpasses : L.Passes (m :: ms) s k := hk.imp_right .inl
      refine ⟨k, hpasses, ?_, fun before after h hle => ?_⟩
      · rw [logged, List.take_append_of_le_length hin.le, hv]
      · cases before with
        | nil =>
          obtain rfl : m :: ms = after := h
          exact hpasses
        | cons m' before =>
          obtain ⟨rfl, -⟩ := List.cons.inj h
          simp only [logged, List.length_append] at hle
          omega
    · have hlen : n - (L.records s m).length ≤ (L.logged ms (L.step s m)).length := by
        simp only [logged, List.length_append] at hn
        omega
      obtain ⟨k, hk, hv, hlate⟩ := ih hms _ hlen
      refine ⟨k, .inr (.inr hk), ?_, fun before after h hle => ?_⟩
      · rw [logged, List.take_append, List.take_of_length_le (not_lt.1 hin),
          rebuild_append, hm.whole, hv]
      · cases before with
        | nil =>
          obtain rfl : m :: ms = after := h
          exact .inr (.inr hk)
        | cons m' before =>
          obtain ⟨rfl, hrest⟩ := List.cons.inj h
          refine hlate before after hrest ?_
          simp only [logged, List.length_append] at hle
          omega

end Logging

end RedisClone.Lib
