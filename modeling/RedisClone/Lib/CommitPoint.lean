import RedisClone.Lib.Serial

/-! Threads without a gate, each of which takes effect by one action. A thread may look at the world
before; if the world then stays as it is until the thread has taken effect, the threads leave it
as if they had run one after another, in the order in which they took effect. -/

namespace RedisClone.Lib

open Program

variable {S : Signature} {ι α I V W : Type}

inductive Stage
  | fresh
  | looked
  | settled
  deriving DecidableEq

/-- Actions that do nothing and learn nothing, actions that look at the world, and actions by which
a thread takes effect. -/
structure Sections (S : Signature) where
  stable : S.Act → Prop
  looks : S.Act → Prop
  writes : S.Act → Prop

/-- The program takes effect by one action. It looks at the world right before only if it `rereads`,
and what it sees may be all the effect it has. -/
inductive Staged (K : Sections S) (Q : (a : S.Act) → S.Resp a → Prop) (rereads : Prop) :
    Stage → Program S α → Prop
  | done {b : α} : Staged K Q rereads .settled (.done b)
  | stable {st : Stage} {a : S.Act} {k : S.Resp a → Program S α} (hst : st ≠ .looked)
      (ha : K.stable a) (hk : ∀ r, Q a r → Staged K Q rereads st (k r)) :
        Staged K Q rereads st (.act a k)
  | looks {a : S.Act} {k : S.Resp a → Program S α} (hr : rereads) (ha : K.looks a)
      (st : S.Resp a → Stage) (hst : ∀ r, Q a r → st r ≠ .fresh)
      (hk : ∀ r, Q a r → Staged K Q rereads (st r) (k r)) :
      Staged K Q rereads .fresh (.act a k)
  | writes {st : Stage} {a : S.Act} {k : S.Resp a → Program S α} (hst : st ≠ .settled)
      (ha : K.writes a) (hk : ∀ r, Q a r → Staged K Q rereads .settled (k r)) :
        Staged K Q rereads st (.act a k)

lemma Staged.map {β : Type} {K : Sections S} {Q : (a : S.Act) → S.Resp a → Prop}
    {rereads : Prop} {st : Stage} {p : Program S α} (f : α → β) (hp : Staged K Q rereads st p) :
    Staged K Q rereads st (f <$> p) := by
  rw [map_eq_pure_bind]
  induction hp with
  | done => exact .done
  | stable hst ha _ ih => exact .stable hst ha ih
  | looks hr ha st hst _ ih => exact .looks hr ha st hst ih
  | writes hst ha _ ih => exact .writes hst ha ih

lemma Staged.mono {K K' : Sections S} {Q Q' : (a : S.Act) → S.Resp a → Prop} {rereads : Prop}
    {st : Stage} {p : Program S α} (hstable : ∀ a, K.stable a → K'.stable a)
    (hlooks : ∀ a, K.looks a → K'.looks a) (hwrites : ∀ a, K.writes a → K'.writes a)
    (hQ : ∀ a r, Q' a r → Q a r) (hp : Staged K Q rereads st p) : Staged K' Q' rereads st p := by
  induction hp with
  | done => exact .done
  | stable hst ha _ ih => exact .stable hst (hstable _ ha) fun r hr => ih r (hQ _ r hr)
  | looks hr ha st hst _ ih =>
    exact .looks hr (hlooks _ ha) st (fun r hr => hst r (hQ _ r hr)) fun r hr => ih r (hQ _ r hr)
  | writes hst ha _ ih => exact .writes hst (hwrites _ ha) fun r hr => ih r (hQ _ r hr)

lemma Staged.next {K : Sections S} {Q : (a : S.Act) → S.Resp a → Prop} {rereads : Prop}
    {st : Stage} {a : S.Act} {k : S.Resp a → Program S α} (h : Staged K Q rereads st (.act a k)) :
    K.stable a ∨ K.looks a ∨ K.writes a := by
  cases h with
  | stable _ ha _ => exact .inl ha
  | looks _ ha _ _ _ => exact .inr (.inl ha)
  | writes _ ha _ => exact .inr (.inr ha)

lemma Staged.of_looked {K : Sections S} {Q : (a : S.Act) → S.Resp a → Prop} {rereads : Prop}
    {p : Program S α} (h : Staged K Q rereads .looked p) : ∃ a k, p = .act a k ∧ K.writes a := by
  cases h with
  | stable hst _ _ => exact absurd rfl hst
  | writes _ ha _ => exact ⟨_, _, rfl, ha⟩

section Committed

variable (A : ActionSpec S I W) (inputs : ι → ℕ → I) (p : ι → Program S α) (K : Sections S)
  (Q : (a : S.Act) → S.Resp a → Prop) (rereads : ι → Prop) (P J : W → Prop) (abs : V → W) (w₀ : W)

/-- The thread has not taken effect: the steps it took it would take in any world, or, once it has
looked, in the one that there is. -/
def Waiting (c : Config S ι α V) (t : ι) : Prop :=
  (Staged K Q (rereads t) .fresh (c.prog t) ∧ ∀ w, J w → Alone A inputs p c t w w) ∨
    (rereads t ∧ Staged K Q (rereads t) .looked (c.prog t) ∧
      Alone A inputs p c t (abs c.world) (abs c.world))

structure Committed (c : Config S ι α V) (order : List ι) : Prop where
  nodup : order.Nodup
  ran : Serially (fun t w w' => P w ∧ J w' ∧ Alone A inputs p c t w w') w₀ order (abs c.world)
  settled : ∀ t ∈ order, Staged K Q (rereads t) .settled (c.prog t)
  waiting : ∀ t ∉ order, Waiting A inputs p K Q rereads J abs c t

variable {A inputs p K Q rereads P J abs w₀} {c c' : Config S ι α V} {t : ι}
  {a : S.Act} {r : S.Resp a} {order : List ι}

lemma Committed.start {v : V} (hw : abs v = w₀) (hp : ∀ t, Staged K Q (rereads t) .fresh (p t)) :
    Committed A inputs p K Q rereads P J abs w₀ (.start v p) [] where
  nodup := List.nodup_nil
  ran := hw ▸ .nil
  settled _ ht := absurd ht List.not_mem_nil
  waiting t _ := .inl ⟨hp t, fun _ _ => .refl _ _ _⟩

lemma Committed.mem_of_done (hs : Committed A inputs p K Q rereads P J abs w₀ c order) {b : α}
    (ht : c.prog t = .done b) : t ∈ order := by
  by_contra hn
  rcases hs.waiting t hn with ⟨h, -⟩ | ⟨-, h, -⟩ <;> · rw [ht] at h; cases h

section Step

variable [DecidableEq ι] {sem : Semantics S ι I V}
  (hs : Committed A inputs p K Q rereads P J abs w₀ c order) (hm : c.Moves sem inputs t a r c')

include hm in
lemma Waiting.of_ne {u : ι} (hu : u ≠ t) (h : Waiting A inputs p K Q rereads J abs c u)
    (hw : rereads u → Staged K Q (rereads u) .looked (c.prog u) → abs c'.world = abs c.world) :
    Waiting A inputs p K Q rereads J abs c' u := by
  unfold Waiting
  rw [hm.prog_of_ne hu]
  rcases h with ⟨h₁, h₂⟩ | ⟨h₁, h₂, h₃⟩
  · exact .inl ⟨h₁, fun w hj => (h₂ w hj).of_ne hm hu⟩
  · rw [hw h₁ h₂]
    exact .inr ⟨h₁, h₂, h₃.of_ne hm hu⟩

include hs hm

lemma Committed.acts : K.stable a ∨ K.looks a ∨ K.writes a := by
  obtain ⟨k, hk, -⟩ := hm.prog
  have hany : ∃ st, Staged K Q (rereads t) st (c.prog t) := by
    by_cases hn : t ∈ order
    · exact ⟨.settled, hs.settled t hn⟩
    · rcases hs.waiting t hn with ⟨h, -⟩ | ⟨-, h, -⟩
      · exact ⟨.fresh, h⟩
      · exact ⟨.looked, h⟩
  obtain ⟨st, h⟩ := hany
  rw [hk] at h
  exact h.next

lemma Committed.pass (hn : t ∉ order) (hw : abs c'.world = abs c.world)
    (ht : Waiting A inputs p K Q rereads J abs c' t) :
    Committed A inputs p K Q rereads P J abs w₀ c' order where
  nodup := hs.nodup
  ran := by
    rw [hw]
    exact hs.ran.imp fun u hu w w' h => ⟨h.1, h.2.1, h.2.2.of_ne hm (ne_of_mem_of_not_mem hu hn)⟩
  settled u hu := by
    rw [hm.prog_of_ne (ne_of_mem_of_not_mem hu hn)]
    exact hs.settled u hu
  waiting u hu := by
    by_cases he : u = t
    · exact he ▸ ht
    · exact (hs.waiting u hu).of_ne hm he fun _ _ => hw

lemma Committed.commit (hn : t ∉ order) (hP : P (abs c.world)) (hJ : J (abs c'.world))
    (ha : Alone A inputs p c' t (abs c.world) (abs c'.world))
    (ht : Staged K Q (rereads t) .settled (c'.prog t))
    (hkeep : ∀ u, u ≠ t → u ∉ order → rereads u → Staged K Q (rereads u) .looked (c.prog u) →
      abs c'.world = abs c.world) :
    Committed A inputs p K Q rereads P J abs w₀ c' (order ++ [t]) where
  nodup := List.nodup_append.2 ⟨hs.nodup, List.nodup_singleton t, fun u hu v hv he =>
    hn (List.mem_singleton.1 hv ▸ he ▸ hu)⟩
  ran := .snoc
    (hs.ran.imp fun u hu w w' h => ⟨h.1, h.2.1, h.2.2.of_ne hm (ne_of_mem_of_not_mem hu hn)⟩)
      ⟨hP, hJ, ha⟩
  settled u hu := by
    rcases List.mem_append.1 hu with hu | hu
    · rw [hm.prog_of_ne (ne_of_mem_of_not_mem hu hn)]
      exact hs.settled u hu
    · exact List.mem_singleton.1 hu ▸ ht
  waiting u hu := by
    have hne : u ≠ t := fun he => hu (List.mem_append_right _ (List.mem_singleton.2 he))
    have hno : u ∉ order := fun h => hu (List.mem_append_left _ h)
    exact (hs.waiting u hno).of_ne hm hne (hkeep u hne hno)

lemma Committed.runOut (ht : t ∈ order) (hw : abs c'.world = abs c.world)
    (ha : ∀ w, J w → A a (inputs t (c.taken t)) r w w)
    (hout : Staged K Q (rereads t) .settled (c'.prog t)) :
    Committed A inputs p K Q rereads P J abs w₀ c' order where
  nodup := hs.nodup
  ran := by
    rw [hw]
    refine hs.ran.imp fun u hu w w' h => ⟨h.1, h.2.1, ?_⟩
    by_cases he : u = t
    · subst he
      exact h.2.2.move hm (ha w' h.2.1)
    · exact h.2.2.of_ne hm he
  settled u hu := by
    by_cases he : u = t
    · exact he ▸ hout
    · rw [hm.prog_of_ne he]
      exact hs.settled u hu
  waiting u hu := (hs.waiting u hu).of_ne hm (ne_of_mem_of_not_mem ht hu).symm fun _ _ => hw

lemma Committed.advance {st : Stage} (hn : t ∉ order)
    (hstable : ∀ a, K.stable a → ∀ i r w w', J w → A a i r w w' → w' = w ∧ ∀ v, J v → A a i r v v)
    (hlooks : ∀ a, K.looks a → ∀ i r w w', A a i r w w' → w' = w)
    (ha : A a (inputs t (c.taken t)) r (abs c.world) (abs c'.world)) (hQ : Q a r)
    (hP : P (abs c.world)) (hJ : J (abs c.world)) (hJ' : J (abs c'.world))
    (hkeep : ∀ u, u ≠ t → u ∉ order → rereads u → Staged K Q (rereads u) .looked (c.prog u) →
      abs c'.world = abs c.world)
    (hg : Staged K Q (rereads t) st (c.prog t)) (hst : st ≠ .settled)
    (hfresh : st = .fresh → ∀ w, J w → Alone A inputs p c t w w)
    (hal : Alone A inputs p c t (abs c.world) (abs c.world)) :
    Committed A inputs p K Q rereads P J abs w₀ c' order ∨
    Committed A inputs p K Q rereads P J abs w₀ c' (order ++ [t]) := by
  obtain ⟨k, hk, hprog⟩ := hm.prog
  have hrest : c'.prog t = k r := by rw [hprog, Function.update_self]
  rw [hk] at hg
  cases hg with
  | stable hl hi hn' =>
    obtain ⟨hw, hv⟩ := hstable a hi _ _ _ _ hJ ha
    have hst : st = .fresh := by
      cases st with
      | fresh => rfl
      | looked => exact absurd rfl hl
      | settled => exact absurd rfl hst
    subst hst
    exact .inl
      (hs.pass hm hn hw (.inl ⟨hrest ▸ hn' r hQ, fun w hj => (hfresh rfl w hj).move hm (hv w hj)⟩))
  | looks hr hi st' hst' hn' =>
    have hw := hlooks a hi _ _ _ _ ha
    have hnext := hn' r hQ
    cases hs' : st' r with
    | fresh => exact absurd hs' (hst' r hQ)
    | looked =>
      rw [hs'] at hnext
      exact .inl
        (hs.pass hm hn hw (.inr ⟨hr, hrest ▸ hnext, by rw [hw] at ha ⊢; exact hal.move hm ha⟩))
    | settled =>
      rw [hs'] at hnext
      exact .inr (hs.commit hm hn hP hJ' (hal.move hm ha) (hrest ▸ hnext) hkeep)
  | writes _ _ hn' => exact .inr (hs.commit hm hn hP hJ' (hal.move hm ha) (hrest ▸ hn' r hQ) hkeep)

lemma Committed.step
    (hstable : ∀ a, K.stable a → ∀ i r w w', J w → A a i r w w' → w' = w ∧ ∀ v, J v → A a i r v v)
    (hlooks : ∀ a, K.looks a → ∀ i r w w', A a i r w w' → w' = w)
    (ha : A a (inputs t (c.taken t)) r (abs c.world) (abs c'.world)) (hQ : Q a r)
    (hP : P (abs c.world)) (hJ : J (abs c.world)) (hJ' : J (abs c'.world))
    (hkeep : ∀ u, u ≠ t → u ∉ order → rereads u → Staged K Q (rereads u) .looked (c.prog u) →
      abs c'.world = abs c.world) :
    Committed A inputs p K Q rereads P J abs w₀ c' order ∨
    Committed A inputs p K Q rereads P J abs w₀ c' (order ++ [t]) := by
  by_cases hn : t ∈ order
  · obtain ⟨k, hk, hprog⟩ := hm.prog
    have hg := hs.settled t hn
    rw [hk] at hg
    cases hg with
    | stable _ hi hn' =>
      obtain ⟨hw, hv⟩ := hstable a hi _ _ _ _ hJ ha
      refine .inl (hs.runOut hm hn hw hv ?_)
      rw [hprog, Function.update_self]
      exact hn' r hQ
    | writes hst _ _ => exact absurd rfl hst
  · rcases hs.waiting t hn with ⟨hg, hal⟩ | ⟨-, hg, hal⟩
    · exact hs.advance hm hn hstable hlooks ha hQ hP hJ hJ' hkeep hg Stage.noConfusion
        (fun _ => hal) (hal _ hJ)
    · exact hs.advance hm hn hstable hlooks ha hQ hP hJ hJ' hkeep hg Stage.noConfusion
        Stage.noConfusion hal

end Step

end Committed

end RedisClone.Lib
