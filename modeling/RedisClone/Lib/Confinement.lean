import RedisClone.Lib.Interleaving

namespace RedisClone.Lib

namespace Program

variable {S : Signature} {α β I V W : Type} {alike : (a : S.Act) → S.Resp a → S.Resp a → Prop}

inductive Heedless (alike : (a : S.Act) → S.Resp a → S.Resp a → Prop) : Program S α → Prop
  | done (b : α) : Heedless alike (.done b)
  | act {a : S.Act} {k : S.Resp a → Program S α} (hk : ∀ r, Heedless alike (k r))
      (h : ∀ r r', alike a r r' → k r = k r') : Heedless alike (.act a k)

lemma Heedless.bind {p : Program S α} {f : α → Program S β} (hp : Heedless alike p)
    (hf : ∀ b, Heedless alike (f b)) : Heedless alike (p >>= f) := by
  induction hp with
  | done b => exact hf b
  | act _ h ih => exact .act ih fun r r' hr => congrArg (· >>= f) (h r r' hr)

lemma Heedless.map {p : Program S α} (f : α → β) (hp : Heedless alike p) :
    Heedless alike (f <$> p) := by
  rw [map_eq_pure_bind]
  exact hp.bind fun b => .done _

lemma composes_heedless : Composes fun _ (p : Program S _) => Heedless alike p :=
  ⟨Heedless.done, Heedless.bind⟩

lemma Heedless.run_eq {A : ActionSpec S I W} {perform : (a : S.Act) → I → V → S.Resp a × V}
    (part : V → W) (Inv : V → Prop) (ok : I → Prop) {P : S.Act → Prop}
    {Q : (a : S.Act) → S.Resp a → Prop}
    (hperform : ∀ a i v, ok i → Inv v → P a → Inv (perform a i v).2 ∧ Q a (perform a i v).1 ∧
      A a i (perform a i v).1 (part v) (part (perform a i v).2))
    (hdet : ∀ a i r r' w w₁ w₂, P a → A a i r w w₁ → A a i r' w w₂ → alike a r r' ∧ w₁ = w₂)
    {p : Program S α} (hh : Heedless alike p) :
    ∀ {inputs : ℕ → I} {v : V} {n : ℕ} {b : α} {w : W}, (∀ n, ok (inputs n)) →
      Within P Q p → Inv v → Runs A p inputs (part v) n b w → (run perform p inputs v).1 = b ∧
      part (run perform p inputs v).2.2 = w := by
  induction hh with
  | done b =>
    intro inputs v n b' w _ _ _ h
    obtain ⟨-, rfl, rfl⟩ := runs_done.1 h
    exact ⟨rfl, rfl⟩
  | @act a k _ halike ih =>
    intro inputs v n b' w hok hp hv h
    obtain ⟨ha, hrest⟩ := Obeys.next hp
    obtain ⟨hv', hq, hstep⟩ := hperform a (inputs 0) v (hok 0) hv ha
    obtain ⟨r, w₁, m, hr, hruns, -⟩ := runs_act.1 h
    obtain ⟨hsame, rfl⟩ := hdet a _ r _ _ _ _ ha hr hstep
    rw [halike _ _ hsame] at hruns
    exact ih _ (fun n => hok (n + 1)) (hrest _ hq) hv' hruns

end Program

namespace Config

open Program

variable {S : Signature} {ι α I V W : Type} [DecidableEq ι] {sem : Semantics S ι I V}
  {inputs : ι → ℕ → I} {t : ι}

lemma reaches_of_confined {A : ActionSpec S I W} (part : V → W) (Inv C : V → Prop)
    {P : ι → S.Act → Prop} {Q : (a : S.Act) → S.Resp a → Prop}
    (hact : ∀ u n a r v v', Inv v → P u a → sem u a (inputs u n) v = some (r, v') → Inv v' ∧ Q a r)
    (hown : ∀ n a r v v', Inv v → C v → P t a → sem t a (inputs t n) v = some (r, v') →
    A a (inputs t n) r (part v) (part v'))
    (hother : ∀ u n a r v v', u ≠ t → Inv v → C v → P u a → sem u a (inputs u n) v = some (r, v') →
    part v' = part v) {v : V} {p : ι → Program S α} (hv : Inv v) (hp : ∀ u, Within (P u) Q (p u))
    (schedule : List ι) (hC : (start v p).Along sem inputs (fun c _ => C c.world) schedule) :
    Reaches A (p t) (inputs t) (part v) (((start v p).after sem inputs schedule).taken t)
      (((start v p).after sem inputs schedule).prog t)
        (part ((start v p).after sem inputs schedule).world) := by
  have hrun := after_induction (P := fun c => Inv c.world ∧ (∀ u, Within (P u) Q (c.prog u)) ∧
    Reaches A (p t) (inputs t) (part v) (c.taken t) (c.prog t) (part c.world)) ?_ schedule
      (start v p) ⟨hv, hp, .refl _ _ _⟩ hC
  · exact hrun.2.2
  intro c u a r c' h hc hm
  obtain ⟨hinv, hprogs, hreach⟩ := h
  obtain ⟨k, hk, hprog⟩ := hm.prog
  have hu := hprogs u
  rw [hk] at hu
  obtain ⟨ha, hrest⟩ := Obeys.next hu
  obtain ⟨hinv', hq⟩ := hact u _ a r _ _ hinv ha hm.acts
  refine ⟨hinv', fun u' => ?_, ?_⟩
  · by_cases hu' : u' = u
    · subst hu'
      rw [hprog, Function.update_self]
      exact hrest r hq
    · rw [hm.prog_of_ne hu']
      exact hprogs u'
  · by_cases hut : t = u
    · subst hut
      rw [hk] at hreach
      rw [hprog, hm.taken, Function.update_self, Function.update_self]
      exact hreach.tail (hown _ a r _ _ hinv hc ha hm.acts)
    · rw [hm.prog_of_ne hut, hm.taken_of_ne hut,
        hother u _ a r _ _ (Ne.symm hut) hinv hc ha hm.acts]
      exact hreach

end Config

end RedisClone.Lib
