import RedisClone.Lib.Interleaving

/-! Orders of the threads of a run that agree with real time: a thread that has returned before
another takes its first step comes before it. -/

namespace RedisClone.Lib.Config

open Program

variable {S : Signature} {ι α I W : Type} [DecidableEq ι] {sem : Semantics S ι I W}
  {inputs : ι → ℕ → I}

variable (sem inputs) in
lemma result_step {c : Config S ι α W} {t : ι} (h : (c.result t).isSome = true) (u : ι) :
    (c.step sem inputs u).result t = c.result t := by
  obtain ⟨b, hb⟩ := Option.isSome_iff_exists.1 h
  have ht := result_eq_some.1 hb
  rcases c.step_cases sem inputs u with ⟨hs, -⟩ | ⟨a, r, hm⟩
  · rw [hs]
  · have hne : t ≠ u := by
      rintro rfl
      obtain ⟨k, hk, -⟩ := hm.prog
      cases ht.symm.trans hk
    rw [hb]
    exact result_eq_some.2 ((hm.prog_of_ne hne).trans ht)

lemma result_after (schedule : List ι) :
    ∀ {c : Config S ι α W} {t : ι}, (c.result t).isSome = true →
    (c.after sem inputs schedule).result t = c.result t := by
  induction schedule with
  | nil => exact fun _ => rfl
  | cons u us ih =>
    intro c t h
    have hs := result_step sem inputs h u
    exact (ih (hs ▸ h)).trans hs

variable (sem inputs) in
/-- At some point of the run `t` has returned and `u` has not taken a step. -/
def Precedes (c : Config S ι α W) (schedule : List ι) (t u : ι) : Prop :=
  ∃ s, s <+: schedule ∧ ((c.after sem inputs s).result t).isSome = true ∧
    (c.after sem inputs s).taken u = 0

lemma exists_realTime_order {P : Config S ι α W → List ι → Prop} {Q : Config S ι α W → ι → Prop}
    (hstep : ∀ c t a r c' order, P c order → Q c t → c.Moves sem inputs t a r c' → P c' order ∨
    P c' (order ++ [t])) (hdone : ∀ c order t, P c order → (c.result t).isSome = true → t ∈ order)
    {c : Config S ι α W} (hc : P c []) (schedule : List ι) (hq : c.Along sem inputs Q schedule) :
    ∃ order, P (c.after sem inputs schedule) order ∧
      ∀ t u, c.Precedes sem inputs schedule t u → u ∈ order → [t, u].Sublist order := by
  -- a thread in the order has taken a step, so what precedes it was there before
  suffices h : ∃ order, P (c.after sem inputs schedule) order ∧
    (∀ t ∈ order, 0 < (c.after sem inputs schedule).taken t) ∧
      ∀ t u, c.Precedes sem inputs schedule t u → u ∈ order → [t, u].Sublist order by
    obtain ⟨order, hP, -, hreal⟩ := h
    exact ⟨order, hP, hreal⟩
  induction schedule using List.reverseRecOn with
  | nil =>
    exact ⟨[], hc, fun _ ht => absurd ht List.not_mem_nil, fun _ _ _ hu =>
      absurd hu List.not_mem_nil⟩
  | append_singleton ts x ih =>
    obtain ⟨hq₁, hq₂, -⟩ := along_append.1 hq
    obtain ⟨order, hP, htaken, hreal⟩ := ih hq₁
    have hafter : c.after sem inputs (ts ++ [x]) = (c.after sem inputs ts).step sem inputs x :=
      after_append c ts [x]
    have hpast {order' : List ι}
      (htaken' : ∀ t ∈ order', 0 < (c.after sem inputs (ts ++ [x])).taken t) {t u : ι}
        (h : c.Precedes sem inputs (ts ++ [x]) t u) (hu : u ∈ order') :
            c.Precedes sem inputs ts t u := by
      obtain ⟨s, hs, ht, hz⟩ := h
      rcases List.prefix_concat_iff.1 hs with rfl | hs
      · exact absurd hz (htaken' u hu).ne'
      · exact ⟨s, hs, ht, hz⟩
    rcases (c.after sem inputs ts).step_cases sem inputs x with ⟨hs, -⟩ | ⟨a, r, hm⟩
    · have hsame : c.after sem inputs (ts ++ [x]) = c.after sem inputs ts := hafter.trans hs
      rw [← hsame] at hP htaken
      exact ⟨order, hP, htaken, fun t u h hu => hreal t u (hpast htaken h hu) hu⟩
    · rw [← hafter] at hm
      have hgrown (t : ι) (ht : t ∈ order ∨ t = x) :
          0 < (c.after sem inputs (ts ++ [x])).taken t := by
        rw [hm.taken]
        by_cases he : t = x
        · rw [he, Function.update_self]
          exact Nat.succ_pos _
        · rw [Function.update_of_ne he]
          exact htaken t (ht.resolve_right he)
      rcases hstep _ x a r _ order hP hq₂ hm with h | h
      · have ht' (t : ι) (ht : t ∈ order) := hgrown t (.inl ht)
        exact ⟨order, h, ht', fun t u hpre hu => hreal t u (hpast ht' hpre hu) hu⟩
      · have ht' (t : ι) (ht : t ∈ order ++ [x]) : 0 < (c.after sem inputs (ts ++ [x])).taken t :=
          hgrown t ((List.mem_append.1 ht).imp_right List.mem_singleton.1)
        refine ⟨order ++ [x], h, ht', fun t u hpre hu => ?_⟩
        have hbefore := hpast ht' hpre hu
        rcases List.mem_append.1 hu with hu | hu
        · exact (hreal t u hbefore hu).trans (List.sublist_append_left _ _)
        · obtain rfl := List.mem_singleton.1 hu
          obtain ⟨s, ⟨rest, rfl⟩, hret, -⟩ := hbefore
          have hsome : ((c.after sem inputs (s ++ rest)).result t).isSome = true := by
            rw [after_append, result_after rest hret]
            exact hret
          exact (List.singleton_sublist.2 (hdone _ order t hP hsome)).append (.refl [u])

end RedisClone.Lib.Config
