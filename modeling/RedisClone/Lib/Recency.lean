import Mathlib.Tactic

/-! Parties kept in the order in which each has come last, and what those have brought that came
after one of them. -/

namespace RedisClone.Lib.Recency

variable {ι : Type} [DecidableEq ι] {order : List ι} {t u : ι}

def come (order : List ι) (t : ι) : List ι := t :: order.erase t

def since (order : List ι) (t : ι) : List ι := order.takeWhile fun u => decide (u ≠ t)

lemma since_cons_self (order : List ι) (t : ι) : since (t :: order) t = [] := by
  rw [since, List.takeWhile_cons_of_neg]
  simp

lemma since_cons_of_ne (order : List ι) (h : u ≠ t) :
    since (u :: order) t = u :: since order t := by
  rw [since, List.takeWhile_cons_of_pos]
  · rfl
  · simpa using h

lemma notMem_since (order : List ι) (t : ι) : t ∉ since order t := by
  induction order with
  | nil => exact List.not_mem_nil
  | cons x order ih =>
    by_cases hx : x = t
    · subst hx
      rw [since_cons_self]
      exact List.not_mem_nil
    · rw [since_cons_of_ne order hx, List.mem_cons, not_or]
      exact ⟨Ne.symm hx, ih⟩

lemma since_erase (order : List ι) (h : u ≠ t) :
    since (order.erase t) u = (since order u).erase t := by
  induction order with
  | nil => rfl
  | cons x order ih =>
    by_cases hx : x = t
    · subst hx
      rw [List.erase_cons_head, since_cons_of_ne order h.symm, List.erase_cons_head]
    · rw [List.erase_cons_tail (by simpa using hx)]
      by_cases hu : x = u
      · subst hu
        rw [since_cons_self, since_cons_self]
        rfl
      · rw [since_cons_of_ne _ hu, since_cons_of_ne _ hu, List.erase_cons_tail
          (by simpa using hx), ih]

lemma since_come_of_ne (order : List ι) (h : u ≠ t) :
    since (come order t) u = t :: (since order u).erase t := by
  rw [come, since_cons_of_ne _ h.symm, since_erase order h]

lemma since_prefix : u ∈ since order t → since order u ++ [u] <+: since order t := by
  induction order with
  | nil => exact fun h => absurd h List.not_mem_nil
  | cons x order ih =>
    intro h
    by_cases hx : x = t
    · subst hx
      rw [since_cons_self] at h
      exact absurd h List.not_mem_nil
    · rw [since_cons_of_ne order hx] at h ⊢
      by_cases hu : x = u
      · subst hu
        rw [since_cons_self]
        exact List.prefix_append [x] _
      · rw [since_cons_of_ne order hu]
        exact List.cons_prefix_cons.2 ⟨rfl, ih ((List.mem_cons.1 h).resolve_left (Ne.symm hu))⟩

lemma since_prefix_erase (order : List ι) (t : ι) : since order t <+: order.erase t := by
  induction order with
  | nil => exact List.nil_prefix
  | cons x order ih =>
    by_cases hx : x = t
    · subst hx
      rw [since_cons_self]
      exact List.nil_prefix
    · rw [since_cons_of_ne order hx, List.erase_cons_tail (by simpa using hx)]
      exact List.cons_prefix_cons.2 ⟨rfl, ih⟩

section Debt

variable {A : Type} [AddCommMonoid A] [PartialOrder A] [IsOrderedAddMonoid A] {last : ι → A} {x : A}

def brought (last : ι → A) (order : List ι) : A := (order.map last).sum

def debt (last : ι → A) (order : List ι) (t : ι) : A := brought last (since order t)

omit [DecidableEq ι] in
lemma brought_nonneg (hlast : ∀ t, 0 ≤ last t) (order : List ι) : 0 ≤ brought last order := by
  apply List.sum_nonneg
  intro y hy
  obtain ⟨t, -, rfl⟩ := List.mem_map.1 hy
  exact hlast t

omit [PartialOrder A] [IsOrderedAddMonoid A] in
lemma brought_update (h : t ∉ order) :
    brought (Function.update last t x) order = brought last order := by
  apply congrArg List.sum
  apply List.map_congr_left
  intro u hu
  exact Function.update_of_ne (ne_of_mem_of_not_mem hu h) _ _

omit [DecidableEq ι] in
lemma brought_mono (hlast : ∀ t, 0 ≤ last t) {order order' : List ι} (h : order <+: order') :
    brought last order ≤ brought last order' := by
  obtain ⟨rest, rfl⟩ := h
  rw [brought, brought, List.map_append, List.sum_append]
  exact le_add_of_nonneg_right (brought_nonneg hlast rest)

omit [IsOrderedAddMonoid A] in
lemma update_nonneg (hlast : ∀ t, 0 ≤ last t) (hx : 0 ≤ x) (t u : ι) :
    0 ≤ Function.update last t x u := by
  rw [Function.update_apply]
  split_ifs
  · exact hx
  · exact hlast u

omit [PartialOrder A] [IsOrderedAddMonoid A] in
lemma debt_come_of_ne (order : List ι) (h : u ≠ t) :
    debt (Function.update last t x) (come order t) u = x + brought (Function.update last t x)
      ((since order u).erase t) := by
  rw [debt, since_come_of_ne order h, brought, List.map_cons, List.sum_cons, Function.update_self]
  rfl

lemma debt_come_of_mem (hlast : ∀ t, 0 ≤ last t) (hx : 0 ≤ x) (hu : u ≠ t) (h : t ∈ since order u) :
    debt last order t + x ≤ debt (Function.update last t x) (come order t) u := by
  have hprefix : since order t <+: (since order u).erase t := by
    obtain ⟨rest, hrest⟩ := since_prefix h
    rw [← hrest, List.append_assoc, List.erase_append_right _ (notMem_since order t),
      List.singleton_append, List.erase_cons_head]
    exact List.prefix_append _ _
  rw [debt_come_of_ne order hu, add_comm, debt, ← brought_update (x := x) (notMem_since order t)]
  exact add_le_add le_rfl (brought_mono (update_nonneg hlast hx t) hprefix)

omit [PartialOrder A] [IsOrderedAddMonoid A] in
lemma debt_come_of_notMem (hu : u ≠ t) (h : t ∉ since order u) :
    debt (Function.update last t x) (come order t) u = debt last order u + x := by
  rw [debt_come_of_ne order hu, List.erase_of_not_mem h, brought_update h, add_comm]
  rfl

lemma debt_le_brought_come (hlast : ∀ t, 0 ≤ last t) (hx : 0 ≤ x) (order : List ι) (t : ι) :
    debt last order t + x ≤ brought (Function.update last t x) (come order t) := by
  rw [come, brought, List.map_cons, List.sum_cons, Function.update_self, add_comm, debt,
    ← brought_update (x := x) (notMem_since order t)]
  exact add_le_add le_rfl (brought_mono (update_nonneg hlast hx t) (since_prefix_erase order t))

/-- The total keeps to a limit, but for what has been brought since `t` came; or else a part of it
keeps to what is known of it. -/
def Within (total limit part known owed : A) : Prop := total ≤ limit + owed ∨ part ≤ known + owed

lemma Within.come {total total' limit part part' known : A} (hlast : ∀ t, 0 ≤ last t) (hx : 0 ≤ x)
    (hown : total ≤ limit + debt last order t) (htotal : total' ≤ total + x)
    (hpart : part' ≤ part + x) (hu : u ≠ t)
    (h : Within total limit part known (debt last order u)) :
    Within total' limit part' known (debt (Function.update last t x) (come order t) u) := by
  by_cases hmem : t ∈ since order u
  · left
    calc total' ≤ limit + debt last order t + x := htotal.trans (add_le_add hown le_rfl)
      _ = limit + (debt last order t + x) := add_assoc _ _ _
      _ ≤ _ := add_le_add le_rfl (debt_come_of_mem hlast hx hu hmem)
  · rw [debt_come_of_notMem hu hmem]
    refine h.imp (fun h => ?_) fun h => ?_
    · rw [← add_assoc]
      exact htotal.trans (add_le_add h le_rfl)
    · rw [← add_assoc]
      exact hpart.trans (add_le_add h le_rfl)

end Debt

end RedisClone.Lib.Recency
