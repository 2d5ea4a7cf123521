import RedisClone.Lib.Interleaving

/-! Threads that work on the shared world only while they hold one gate. Whatever the interleaving,
they leave it as if they had run one after another, in the order in which they took the gate. -/

namespace RedisClone.Lib

open Program

variable {S : Signature} {ι α I V W : Type}

inductive Phase
  | before
  | inside
  | after
  deriving DecidableEq

structure Gate (S : Signature) where
  acquire : S.Act
  release : S.Act
  idle : S.Act → Prop
  work : S.Act → Prop
  acquire_ne : acquire ≠ release
  idle_ne : ∀ a, idle a → a ≠ acquire ∧ a ≠ release
  work_ne : ∀ a, work a → a ≠ acquire ∧ a ≠ release

/-- The program passes the gate at most once, and may end in a phase only as `ends` says. -/
inductive Gated (G : Gate S) (ends : Phase → α → Prop) : Phase → Program S α → Prop
  | done {ph : Phase} {b : α} (h : ends ph b) : Gated G ends ph (.done b)
  | idle {ph : Phase} {a : S.Act} {k : S.Resp a → Program S α} (hph : ph ≠ .inside) (ha : G.idle a)
      (hk : ∀ r, Gated G ends ph (k r)) : Gated G ends ph (.act a k)
  | enter {k : S.Resp G.acquire → Program S α} (hk : ∀ r, Gated G ends .inside (k r)) :
      Gated G ends .before (.act G.acquire k)
  | work {a : S.Act} {k : S.Resp a → Program S α} (ha : G.work a)
      (hk : ∀ r, Gated G ends .inside (k r)) : Gated G ends .inside (.act a k)
  | leave {k : S.Resp G.release → Program S α} (hk : ∀ r, Gated G ends .after (k r)) :
      Gated G ends .inside (.act G.release k)

section Gated

variable {G : Gate S} {ends : Phase → α → Prop}

lemma Gated.of_work {β : Type} {p : Program S β} {f : β → Program S α} (hp : Only G.work p)
    (hf : ∀ b, Gated G ends .inside (f b)) : Gated G ends .inside (p >>= f) := by
  unfold Only at hp
  induction hp with
  | done _ => exact hf _
  | act ha _ ih => exact .work ha fun r => ih r trivial

lemma Gated.of_idle {β : Type} {ph : Phase} (hph : ph ≠ .inside) {p : Program S β}
    {f : β → Program S α} (hp : Only G.idle p) (hf : ∀ b, Gated G ends ph (f b)) :
    Gated G ends ph (p >>= f) := by
  unfold Only at hp
  induction hp with
  | done _ => exact hf _
  | act ha _ ih => exact .idle hph ha fun r => ih r trivial

lemma Gated.map {β : Type} {ends' : Phase → β → Prop} (f : α → β) {ph : Phase} {p : Program S α}
    (hp : Gated G (fun ph a => ends' ph (f a)) ph p) : Gated G ends' ph (f <$> p) := by
  rw [map_eq_pure_bind]
  induction hp with
  | done h => exact .done h
  | idle hph ha _ ih => exact .idle hph ha ih
  | enter _ ih => exact .enter ih
  | work ha _ ih => exact .work ha ih
  | leave _ ih => exact .leave ih

end Gated

inductive Serially (R : ι → W → W → Prop) (w₀ : W) : List ι → W → Prop
  | nil : Serially R w₀ [] w₀
  | snoc {ts : List ι} {t : ι} {w w' : W} (h : Serially R w₀ ts w) (ht : R t w w') :
      Serially R w₀ (ts ++ [t]) w'

lemma Serially.imp {R R' : ι → W → W → Prop} {w₀ w : W} {ts : List ι} (h : Serially R w₀ ts w)
    (hR : ∀ t ∈ ts, ∀ w w', R t w w' → R' t w w') : Serially R' w₀ ts w := by
  induction h with
  | nil => exact .nil
  | snoc _ ht ih =>
    exact .snoc (ih fun t hm => hR t (List.mem_append_left _ hm))
      (hR _ (List.mem_append_right _ List.mem_cons_self) _ _ ht)

section Alone

variable (A : ActionSpec S I W) (inputs : ι → ℕ → I) (p : ι → Program S α)

def Alone (c : Config S ι α V) (t : ι) (w w' : W) : Prop :=
  Reaches A (p t) (inputs t) w (c.taken t) (c.prog t) w'

variable {A inputs p} [DecidableEq ι] {sem : Semantics S ι I V} {c c' : Config S ι α V} {t : ι}
  {a : S.Act} {r : S.Resp a}

lemma Alone.of_ne (hm : c.Moves sem inputs t a r c') {u : ι} (hu : u ≠ t) {w w' : W}
    (h : Alone A inputs p c u w w') : Alone A inputs p c' u w w' := by
  unfold Alone at h ⊢
  rwa [hm.prog_of_ne hu, hm.taken_of_ne hu]

lemma Alone.move (hm : c.Moves sem inputs t a r c') {w w₁ w₂ : W} (h : Alone A inputs p c t w w₁)
    (ha : A a (inputs t (c.taken t)) r w₁ w₂) : Alone A inputs p c' t w w₂ := by
  obtain ⟨k, hk, hprog⟩ := hm.prog
  unfold Alone at h ⊢
  rw [hk] at h
  rw [hprog, hm.taken, Function.update_self, Function.update_self]
  exact h.tail ha

end Alone

structure Turn (G : Gate S) (gate : V → Option ι) (commits : V → List ι) (t : ι) (a : S.Act)
    (v v' : V) : Prop where
  acquire : a = G.acquire → gate v = none ∧ gate v' = some t ∧ commits v' = commits v ++ [t]
  release : a = G.release → gate v' = none ∧ commits v' = commits v
  other : a ≠ G.acquire → a ≠ G.release → gate v' = gate v ∧ commits v' = commits v

section Serial

variable (A : ActionSpec S I W) (inputs : ι → ℕ → I) (p : ι → Program S α) (G : Gate S)
  (ends : Phase → α → Prop) (watches : ι → Prop) (P : W → Prop) (abs : V → W) (gate : V → Option ι)
    (commits : V → List ι) (w₀ : W)

/-- `settled` have been through the gate and have left the world as `base`. Threads that only watch
never take it. -/
structure SerialAt (c : Config S ι α V) (settled : List ι) (base : W) : Prop where
  order : commits c.world = settled ++ (gate c.world).toList
  nodup : (commits c.world).Nodup
  ran : Serially (fun t w w' => P w ∧ Alone A inputs p c t w w') w₀ settled base
  gone : ∀ t ∈ settled, Gated G ends .after (c.prog t)
  holding : ∀ t ∈ gate c.world, P base ∧ Alone A inputs p c t base (abs c.world) ∧
    Gated G ends .inside (c.prog t)
  free : gate c.world = none → abs c.world = base
  waiting : ∀ t, ¬ watches t → t ∉ commits c.world → Gated G ends .before (c.prog t) ∧
    ∀ w, Alone A inputs p c t w w
  working : ∀ t ∈ commits c.world, ¬ watches t

variable {A inputs p G ends watches P abs gate commits w₀} {c c' : Config S ι α V}
  {t : ι} {a : S.Act} {r : S.Resp a} {settled : List ι} {base : W}

lemma SerialAt.start {v : V} (hg : gate v = none) (hc : commits v = []) (hw : abs v = w₀)
    (hp : ∀ t, ¬ watches t → Gated G ends .before (p t)) :
    SerialAt A inputs p G ends watches P abs gate commits w₀ (.start v p) [] w₀ where
  order := by
    simp only [Config.start, hg, hc, Option.toList_none, List.append_nil]
  nodup := by
    simp only [Config.start, hc, List.nodup_nil]
  ran := .nil
  gone t ht := absurd ht List.not_mem_nil
  holding t ht := by
    simp only [Config.start, hg] at ht
    exact absurd ht (Option.not_mem_none t)
  free _ := hw
  waiting t ht _ := ⟨hp t ht, fun _ => .refl _ _ _⟩
  working t ht := by
    simp only [Config.start, hc] at ht
    exact absurd ht List.not_mem_nil

lemma SerialAt.settled_mem
    (hs : SerialAt A inputs p G ends watches P abs gate commits w₀ c settled base)
    (ht : t ∈ settled) : t ∈ commits c.world := by
  rw [hs.order]
  exact List.mem_append_left _ ht

lemma SerialAt.holder_mem
    (hs : SerialAt A inputs p G ends watches P abs gate commits w₀ c settled base)
    (ht : t ∈ gate c.world) : t ∈ commits c.world := by
  rw [hs.order]
  exact List.mem_append_right _ (Option.mem_toList.2 ht)

lemma SerialAt.holder_notMem
    (hs : SerialAt A inputs p G ends watches P abs gate commits w₀ c settled base)
    (ht : t ∈ gate c.world) : t ∉ settled := by
  have hn := hs.nodup
  rw [hs.order] at hn
  exact fun h => (List.nodup_append.1 hn).2.2 t h t (Option.mem_toList.2 ht) rfl

section Step

variable [DecidableEq ι] {sem : Semantics S ι I V}
  (hs : SerialAt A inputs p G ends watches P abs gate commits w₀ c settled base)
  (hm : c.Moves sem inputs t a r c')

include hs hm

lemma SerialAt.outside (hg : gate c'.world = gate c.world) (hc : commits c'.world = commits c.world)
    (hw : abs c'.world = abs c.world) (hn : t ∉ commits c.world)
    (ht : ¬ watches t → Gated G ends .before (c'.prog t) ∧ ∀ w, Alone A inputs p c' t w w) :
    SerialAt A inputs p G ends watches P abs gate commits w₀ c' settled base where
  order := by rw [hc, hg, hs.order]
  nodup := hc ▸ hs.nodup
  ran := hs.ran.imp fun u hu w w' h => ⟨h.1, h.2.of_ne hm fun he => hn (hs.settled_mem (he ▸ hu))⟩
  gone u hu := by
    rw [hm.prog_of_ne fun he => hn (hs.settled_mem (he ▸ hu))]
    exact hs.gone u hu
  holding u hu := by
    rw [hg] at hu
    have hne : u ≠ t := fun he => hn (hs.holder_mem (he ▸ hu))
    obtain ⟨h₁, h₂, h₃⟩ := hs.holding u hu
    rw [hw, hm.prog_of_ne hne]
    exact ⟨h₁, h₂.of_ne hm hne, h₃⟩
  free h := hw.trans (hs.free (hg ▸ h))
  waiting u hu hnu := by
    by_cases he : u = t
    · subst he
      exact ht hu
    · obtain ⟨h₁, h₂⟩ := hs.waiting u hu (hc ▸ hnu)
      rw [hm.prog_of_ne he]
      exact ⟨h₁, fun w => (h₂ w).of_ne hm he⟩
  working u hu := hs.working u (hc ▸ hu)

lemma SerialAt.enter (hg : gate c.world = none) (hg' : gate c'.world = some t)
    (hc : commits c'.world = commits c.world ++ [t]) (hn : t ∉ commits c.world) (hw : ¬ watches t)
    (hP : P (abs c.world)) (ha : A a (inputs t (c.taken t)) r (abs c.world) (abs c'.world))
    (hin : Gated G ends .inside (c'.prog t)) :
    SerialAt A inputs p G ends watches P abs gate commits w₀ c' settled base where
  order := by
    rw [hc, hg', hs.order, hg, Option.toList_none, List.append_nil, Option.toList_some]
  nodup := by
    rw [hc]
    exact List.nodup_append.2 ⟨hs.nodup, List.nodup_singleton t, fun u hu v hv he =>
      hn (List.mem_singleton.1 hv ▸ he ▸ hu)⟩
  ran := hs.ran.imp fun u hu w w' h => ⟨h.1, h.2.of_ne hm fun he => hn (hs.settled_mem (he ▸ hu))⟩
  gone u hu := by
    rw [hm.prog_of_ne fun he => hn (hs.settled_mem (he ▸ hu))]
    exact hs.gone u hu
  holding u hu := by
    rw [hg'] at hu
    obtain rfl := Option.some.inj hu
    have hb := hs.free hg
    rw [hb] at hP ha
    exact ⟨hP, ((hs.waiting t hw hn).2 base).move hm ha, hin⟩
  free h := absurd (hg'.symm.trans h) (Option.some_ne_none t)
  waiting u hu hnu := by
    rw [hc] at hnu
    have he : u ≠ t := fun he => hnu (List.mem_append_right _ (List.mem_singleton.2 he))
    obtain ⟨h₁, h₂⟩ := hs.waiting u hu fun h => hnu (List.mem_append_left _ h)
    rw [hm.prog_of_ne he]
    exact ⟨h₁, fun w => (h₂ w).of_ne hm he⟩
  working u hu := by
    rw [hc] at hu
    rcases List.mem_append.1 hu with hu | hu
    · exact hs.working u hu
    · exact List.mem_singleton.1 hu ▸ hw

lemma SerialAt.work (ht : gate c.world = some t) (hg : gate c'.world = some t)
    (hc : commits c'.world = commits c.world)
    (ha : A a (inputs t (c.taken t)) r (abs c.world) (abs c'.world))
    (hin : Gated G ends .inside (c'.prog t)) :
    SerialAt A inputs p G ends watches P abs gate commits w₀ c' settled base where
  order := by rw [hc, hg, hs.order, ht]
  nodup := hc ▸ hs.nodup
  ran := hs.ran.imp fun u hu w w' h => ⟨h.1, h.2.of_ne hm fun he => hs.holder_notMem ht (he ▸ hu)⟩
  gone u hu := by
    rw [hm.prog_of_ne fun he => hs.holder_notMem ht (he ▸ hu)]
    exact hs.gone u hu
  holding u hu := by
    rw [hg] at hu
    obtain rfl := Option.some.inj hu
    obtain ⟨h₁, h₂, -⟩ := hs.holding t ht
    exact ⟨h₁, h₂.move hm ha, hin⟩
  free h := absurd (hg.symm.trans h) (Option.some_ne_none t)
  waiting u hu hnu := by
    rw [hc] at hnu
    have he : u ≠ t := fun he => hnu (hs.holder_mem (he ▸ ht))
    obtain ⟨h₁, h₂⟩ := hs.waiting u hu hnu
    rw [hm.prog_of_ne he]
    exact ⟨h₁, fun w => (h₂ w).of_ne hm he⟩
  working u hu := hs.working u (hc ▸ hu)

lemma SerialAt.leave (ht : gate c.world = some t) (hg : gate c'.world = none)
    (hc : commits c'.world = commits c.world)
    (ha : A a (inputs t (c.taken t)) r (abs c.world) (abs c'.world))
    (hout : Gated G ends .after (c'.prog t)) :
    SerialAt A inputs p G ends watches P abs gate commits w₀ c' (settled ++ [t])
      (abs c'.world) where
  order := by rw [hc, hg, hs.order, ht, Option.toList_some, Option.toList_none, List.append_nil]
  nodup := hc ▸ hs.nodup
  ran := by
    obtain ⟨h₁, h₂, -⟩ := hs.holding t ht
    refine .snoc (hs.ran.imp fun u hu w w' h => ⟨h.1, h.2.of_ne hm fun he => ?_⟩)
      ⟨h₁, h₂.move hm ha⟩
    exact hs.holder_notMem ht (he ▸ hu)
  gone u hu := by
    rcases List.mem_append.1 hu with hu | hu
    · rw [hm.prog_of_ne fun he => hs.holder_notMem ht (he ▸ hu)]
      exact hs.gone u hu
    · exact List.mem_singleton.1 hu ▸ hout
  holding u hu := by
    rw [hg] at hu
    exact absurd hu (Option.not_mem_none u)
  free _ := rfl
  waiting u hu hnu := by
    rw [hc] at hnu
    have he : u ≠ t := fun he => hnu (hs.holder_mem (he ▸ ht))
    obtain ⟨h₁, h₂⟩ := hs.waiting u hu hnu
    rw [hm.prog_of_ne he]
    exact ⟨h₁, fun w => (h₂ w).of_ne hm he⟩
  working u hu := hs.working u (hc ▸ hu)

lemma SerialAt.runOut (ht : t ∈ settled) (hg : gate c'.world = gate c.world)
    (hc : commits c'.world = commits c.world) (hw : abs c'.world = abs c.world)
    (ha : ∀ w, A a (inputs t (c.taken t)) r w w) (hout : Gated G ends .after (c'.prog t)) :
    SerialAt A inputs p G ends watches P abs gate commits w₀ c' settled base where
  order := by rw [hc, hg, hs.order]
  nodup := hc ▸ hs.nodup
  ran := by
    refine hs.ran.imp fun u hu w w' h => ⟨h.1, ?_⟩
    by_cases he : u = t
    · subst he
      exact h.2.move hm (ha w')
    · exact h.2.of_ne hm he
  gone u hu := by
    by_cases he : u = t
    · exact he ▸ hout
    · rw [hm.prog_of_ne he]
      exact hs.gone u hu
  holding u hu := by
    rw [hg] at hu
    have hne : u ≠ t := fun he => hs.holder_notMem hu (he ▸ ht)
    obtain ⟨h₁, h₂, h₃⟩ := hs.holding u hu
    rw [hw, hm.prog_of_ne hne]
    exact ⟨h₁, h₂.of_ne hm hne, h₃⟩
  free h := hw.trans (hs.free (hg ▸ h))
  waiting u hu hnu := by
    rw [hc] at hnu
    have he : u ≠ t := fun he => hnu (hs.settled_mem (he ▸ ht))
    obtain ⟨h₁, h₂⟩ := hs.waiting u hu hnu
    rw [hm.prog_of_ne he]
    exact ⟨h₁, fun w => (h₂ w).of_ne hm he⟩
  working u hu := hs.working u (hc ▸ hu)

lemma SerialAt.step (hidle : ∀ a, G.idle a → ∀ i r w w', A a i r w w' → w' = w ∧ ∀ v, A a i r v v)
    (ha : A a (inputs t (c.taken t)) r (abs c.world) (abs c'.world))
    (hturn : Turn G gate commits t a c.world c'.world) (hP : P (abs c.world))
    (hwatch : watches t → abs c'.world = abs c.world ∧ a ≠ G.acquire ∧ a ≠ G.release) :
    ∃ settled' base', SerialAt A inputs p G ends watches P abs gate commits w₀ c'
      settled' base' := by
  obtain ⟨k, hk, hprog⟩ := hm.prog
  have hrest : c'.prog t = k r := by rw [hprog, Function.update_self]
  by_cases hw : watches t
  · obtain ⟨h₁, h₂, h₃⟩ := hwatch hw
    obtain ⟨hg, hc⟩ := hturn.other h₂ h₃
    exact ⟨settled, base, hs.outside hm hg hc h₁ (fun h => hs.working t h hw) fun h => absurd hw h⟩
  by_cases hn : t ∈ commits c.world
  · rw [hs.order] at hn
    rcases List.mem_append.1 hn with hn | hn
    · have hg := hs.gone t hn
      rw [hk] at hg
      cases hg with
      | idle _ hi hk =>
        obtain ⟨h₁, h₂⟩ := hidle a hi _ _ _ _ ha
        obtain ⟨hg, hc⟩ := hturn.other (G.idle_ne a hi).1 (G.idle_ne a hi).2
        exact ⟨settled, base, hs.runOut hm hn hg hc h₁ h₂ (hrest ▸ hk r)⟩
    · have ht : gate c.world = some t := Option.mem_toList.1 hn
      have hg := (hs.holding t ht).2.2
      rw [hk] at hg
      cases hg with
      | idle hph _ _ => exact absurd rfl hph
      | work hi hk =>
        obtain ⟨hg, hc⟩ := hturn.other (G.work_ne a hi).1 (G.work_ne a hi).2
        exact ⟨settled, base, hs.work hm ht (hg.trans ht) hc ha (hrest ▸ hk r)⟩
      | leave hl =>
        obtain ⟨hg, hc⟩ := hturn.release rfl
        exact ⟨settled ++ [t], abs c'.world, hs.leave hm ht hg hc ha (hrest ▸ hl r)⟩
  · obtain ⟨hg, hal⟩ := hs.waiting t hw hn
    rw [hk] at hg
    cases hg with
    | idle _ hi hk =>
      obtain ⟨h₁, h₂⟩ := hidle a hi _ _ _ _ ha
      obtain ⟨hg, hc⟩ := hturn.other (G.idle_ne a hi).1 (G.idle_ne a hi).2
      exact ⟨settled, base, hs.outside hm hg hc h₁ hn fun _ =>
        ⟨hrest ▸ hk r, fun w => (hal w).move hm (h₂ w)⟩⟩
    | enter he =>
      obtain ⟨hg, hg', hc⟩ := hturn.acquire rfl
      exact ⟨settled, base, hs.enter hm hg hg' hc hn hw hP ha (hrest ▸ he r)⟩

end Step

end Serial

end RedisClone.Lib
