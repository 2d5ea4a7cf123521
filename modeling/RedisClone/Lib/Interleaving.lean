import RedisClone.Lib.Program

/-! Threads that run programs against one shared world, one action at a time, in the order
that a schedule gives. -/

namespace RedisClone.Lib

open Program

abbrev Semantics (S : Signature) (ι I W : Type) := ι → (a : S.Act) → I → W → Option (S.Resp a × W)

/-- A thread has taken as many inputs of its own as it has taken actions. -/
structure Config (S : Signature) (ι α W : Type) where
  world : W
  prog : ι → Program S α
  taken : ι → ℕ

def turns (n : ℕ) (schedule : List ℕ) : List (Fin n) :=
  schedule.filterMap fun t => if h : t < n then some ⟨t, h⟩ else none

namespace Config

variable {S : Signature} {ι α I W : Type}

def start (w : W) (p : ι → Program S α) : Config S ι α W := ⟨w, p, fun _ => 0⟩

def result (c : Config S ι α W) (t : ι) : Option α :=
  match c.prog t with
  | .done b => some b
  | .act _ _ => none

lemma result_eq_some {c : Config S ι α W} {t : ι} {b : α} :
    c.result t = some b ↔ c.prog t = .done b := by
  unfold result
  cases c.prog t with
  | done a => simp
  | act a k => simp

variable [DecidableEq ι] (sem : Semantics S ι I W) (inputs : ι → ℕ → I)

/-- A thread that has come to its end, or has to wait, leaves everything as it is. -/
def step (c : Config S ι α W) (t : ι) : Config S ι α W :=
  match c.prog t with
  | .done _ => c
  | .act a k =>
    match sem t a (inputs t (c.taken t)) c.world with
    | none => c
    | some (r, w) => ⟨w, Function.update c.prog t (k r), Function.update c.taken t (c.taken t + 1)⟩

def after (schedule : List ι) (c : Config S ι α W) : Config S ι α W :=
  schedule.foldl (step sem inputs) c

def next (c : Config S ι α W) (t : ι) : Option S.Act :=
  match c.prog t with
  | .done _ => none
  | .act a _ => if (sem t a (inputs t (c.taken t)) c.world).isSome then some a else none

structure Moves (c : Config S ι α W) (t : ι) (a : S.Act) (r : S.Resp a) (c' : Config S ι α W) :
    Prop where
  acts : sem t a (inputs t (c.taken t)) c.world = some (r, c'.world)
  prog : ∃ k, c.prog t = .act a k ∧ c'.prog = Function.update c.prog t (k r)
  taken : c'.taken = Function.update c.taken t (c.taken t + 1)

lemma step_cases (c : Config S ι α W) (t : ι) :
    (c.step sem inputs t = c ∧ c.next sem inputs t = none) ∨
    ∃ a r, c.Moves sem inputs t a r (c.step sem inputs t) := by
  unfold step next
  cases hp : c.prog t with
  | done b => exact .inl ⟨rfl, rfl⟩
  | act a k =>
    cases hs : sem t a (inputs t (c.taken t)) c.world with
    | none => exact .inl (by simp [hs])
    | some rw =>
      obtain ⟨r, w⟩ := rw
      refine .inr ⟨a, r, ?_⟩
      simp only [hs]
      exact ⟨hs, ⟨k, hp, rfl⟩, rfl⟩

variable {sem inputs}

section Moves

variable {c c' : Config S ι α W} {t : ι} {a : S.Act} {r : S.Resp a}

lemma Moves.next (h : c.Moves sem inputs t a r c') : c.next sem inputs t = some a := by
  obtain ⟨k, hk, -⟩ := h.prog
  simp only [Config.next, hk, h.acts, Option.isSome_some, if_true]

lemma Moves.step_eq (h : c.Moves sem inputs t a r c') : c.step sem inputs t = c' := by
  obtain ⟨k, hk, hprog⟩ := h.prog
  simp only [step, hk, h.acts, ← hprog, ← h.taken]

lemma Moves.prog_of_ne (h : c.Moves sem inputs t a r c') {u : ι} (hu : u ≠ t) :
    c'.prog u = c.prog u := by
  obtain ⟨k, -, hk⟩ := h.prog
  rw [hk, Function.update_of_ne hu]

lemma Moves.taken_of_ne (h : c.Moves sem inputs t a r c') {u : ι} (hu : u ≠ t) :
    c'.taken u = c.taken u := by
  rw [h.taken, Function.update_of_ne hu]

end Moves

variable (sem inputs) in
def Along (Q : Config S ι α W → ι → Prop) (c : Config S ι α W) : List ι → Prop
  | [] => True
  | t :: ts => Q c t ∧ Along Q (c.step sem inputs t) ts

instance instDecidableAlong {Q : Config S ι α W → ι → Prop} [∀ c t, Decidable (Q c t)] :
    ∀ (c : Config S ι α W) (schedule : List ι), Decidable (c.Along sem inputs Q schedule)
  | _, [] => isTrue trivial
  | c, t :: ts =>
    have : Decidable ((c.step sem inputs t).Along sem inputs Q ts) := instDecidableAlong _ ts
    inferInstanceAs (Decidable (Q c t ∧ _))

lemma Along.of_forall {Q : Config S ι α W → ι → Prop} (hQ : ∀ c t, Q c t) (schedule : List ι) :
    ∀ c : Config S ι α W, c.Along sem inputs Q schedule := by
  induction schedule with
  | nil => exact fun _ => trivial
  | cons t ts ih => exact fun c => ⟨hQ c t, ih _⟩

lemma Along.mono {Q Q' : Config S ι α W → ι → Prop} (hQ : ∀ c t, Q c t → Q' c t)
    {schedule : List ι} :
    ∀ {c : Config S ι α W}, c.Along sem inputs Q schedule → c.Along sem inputs Q' schedule := by
  induction schedule with
  | nil => exact fun _ => trivial
  | cons t ts ih => exact fun h => ⟨hQ _ t h.1, ih h.2⟩

lemma Along.and {Q Q' : Config S ι α W → ι → Prop} {schedule : List ι} :
    ∀ {c : Config S ι α W}, c.Along sem inputs Q schedule → c.Along sem inputs Q' schedule →
      c.Along sem inputs (fun c t => Q c t ∧ Q' c t) schedule := by
  induction schedule with
  | nil => exact fun _ _ => trivial
  | cons t ts ih => exact fun h h' => ⟨⟨h.1, h'.1⟩, ih h.2 h'.2⟩

lemma after_append (c : Config S ι α W) (s s' : List ι) :
    c.after sem inputs (s ++ s') = (c.after sem inputs s).after sem inputs s' :=
  List.foldl_append

lemma along_append {Q : Config S ι α W → ι → Prop} {s s' : List ι} : ∀ {c : Config S ι α W},
    c.Along sem inputs Q (s ++ s') ↔ c.Along sem inputs Q s ∧
    (c.after sem inputs s).Along sem inputs Q s' := by
  induction s with
  | nil => exact fun {_} => (and_iff_right trivial).symm
  | cons t ts ih => exact fun {_} => (and_congr_right fun _ => ih).trans and_assoc.symm

lemma along_visited (schedule : List ι) : ∀ c : Config S ι α W, c.Along sem inputs
    (fun c' t => ∃ s, s <+: schedule ∧ c'.step sem inputs t = c.after sem inputs s) schedule := by
  induction schedule with
  | nil => exact fun _ => trivial
  | cons t ts ih =>
    refine fun c => ⟨⟨[t], List.prefix_append [t] ts, rfl⟩, (ih (c.step sem inputs t)).mono ?_⟩
    rintro c' u ⟨s, hs, he⟩
    exact ⟨t :: s, List.cons_prefix_cons.2 ⟨rfl, hs⟩, he⟩

lemma forall_prefix {P : Config S ι α W → Prop} {schedule : List ι} : ∀ {c : Config S ι α W}, P c →
    c.Along sem inputs (fun c t => P (c.step sem inputs t)) schedule → ∀ s, s <+: schedule →
    P (c.after sem inputs s) := by
  induction schedule with
  | nil =>
    intro c hc _ s hs
    rw [List.prefix_nil.1 hs]
    exact hc
  | cons t ts ih =>
    intro c hc h s hs
    cases s with
    | nil => exact hc
    | cons u s =>
      obtain ⟨rfl, hrest⟩ := List.cons_prefix_cons.1 hs
      exact ih h.1 h.2 s hrest

variable (sem inputs) in
def tally (P : Config S ι α W → ι → Bool) (c : Config S ι α W) : List ι → ℕ
  | [] => 0
  | t :: ts => (if P c t then 1 else 0) + tally P (c.step sem inputs t) ts

omit [DecidableEq ι] in
lemma next_prog {c : Config S ι α W} {t : ι} {a : S.Act} (h : c.next sem inputs t = some a) :
    ∃ k, c.prog t = .act a k := by
  unfold next at h
  cases hp : c.prog t with
  | done b =>
    rw [hp] at h
    cases h
  | act a' k =>
    rw [hp] at h
    simp only at h
    split_ifs at h
    obtain rfl := Option.some.inj h
    exact ⟨k, rfl⟩

lemma only_step {P : ι → S.Act → Prop} {c : Config S ι α W}
    (hp : ∀ t, Only (P t) (c.prog t)) (t u : ι) : Only (P u) ((c.step sem inputs t).prog u) := by
  rcases c.step_cases sem inputs t with ⟨hs, -⟩ | ⟨a, r, hm⟩
  · rw [hs]
    exact hp u
  · obtain ⟨k, hk, hprog⟩ := hm.prog
    by_cases hu : u = t
    · subst hu
      have ht := hp u
      rw [hk] at ht
      rw [hprog, Function.update_self]
      exact (Obeys.next ht).2 r trivial
    · rw [hm.prog_of_ne hu]
      exact hp u

lemma along_only {P : ι → S.Act → Prop} (schedule : List ι) :
    ∀ {c : Config S ι α W}, (∀ t, Only (P t) (c.prog t)) →
    c.Along sem inputs (fun c t => ∀ a ∈ c.next sem inputs t, P t a) schedule := by
  induction schedule with
  | nil => exact fun _ => trivial
  | cons t ts ih =>
    intro c hp
    refine ⟨fun a ha => ?_, ih fun u => only_step hp t u⟩
    obtain ⟨k, hk⟩ := next_prog ha
    have ht := hp t
    rw [hk] at ht
    exact (Obeys.next ht).1

lemma after_induction {P : Config S ι α W → Prop} {Q : Config S ι α W → ι → Prop}
    (hstep : ∀ c t a r c', P c → Q c t → c.Moves sem inputs t a r c' → P c') (schedule : List ι) :
    ∀ c, P c → c.Along sem inputs Q schedule → P (c.after sem inputs schedule) := by
  induction schedule with
  | nil => exact fun c hc _ => hc
  | cons t ts ih =>
    intro c hc ⟨hq, hrest⟩
    refine ih _ ?_ hrest
    rcases c.step_cases sem inputs t with ⟨hs, -⟩ | ⟨a, r, hm⟩
    · rw [hs]
      exact hc
    · exact hstep c t a r _ hc hq hm

lemma Along.with_invariant {P : Config S ι α W → Prop} {Q : Config S ι α W → ι → Prop}
    (hstep : ∀ c t a r c', P c → Q c t → c.Moves sem inputs t a r c' → P c') {schedule : List ι} :
    ∀ {c : Config S ι α W}, P c → c.Along sem inputs Q schedule →
      c.Along sem inputs (fun c t => P c ∧ Q c t) schedule := by
  induction schedule with
  | nil => exact fun _ _ => trivial
  | cons t ts ih =>
    intro c hc ⟨hq, hrest⟩
    refine ⟨⟨hc, hq⟩, ih ?_ hrest⟩
    rcases c.step_cases sem inputs t with ⟨hs, -⟩ | ⟨a, r, hm⟩
    · rw [hs]
      exact hc
    · exact hstep c t a r _ hc hq hm

lemma after_obeys (Inv : W → Prop) {P : S.Act → Prop}
    {Q : (a : S.Act) → S.Resp a → Prop} {D : α → Prop} {C : W → S.Act → Prop}
    (hact : ∀ t n a r w w', Inv w → P a → C w a → sem t a (inputs t n) w = some (r, w') →
      Inv w' ∧ Q a r)
    (schedule : List ι) (c : Config S ι α W) (hw : Inv c.world) (hp : ∀ t, Obeys P Q D (c.prog t))
    (hc : c.Along sem inputs (fun c t => ∀ a ∈ c.next sem inputs t, C c.world a) schedule) :
    Inv (c.after sem inputs schedule).world ∧
    ∀ t, Obeys P Q D ((c.after sem inputs schedule).prog t) := by
  refine after_induction (P := fun c => Inv c.world ∧ ∀ t, Obeys P Q D (c.prog t)) ?_
    schedule c ⟨hw, hp⟩ hc
  intro c t a r c' ⟨hw, hp⟩ hq hm
  obtain ⟨k, hk, hprog⟩ := hm.prog
  have ht := hp t
  rw [hk] at ht
  obtain ⟨ha, hrest⟩ := ht.next
  obtain ⟨hw', hr⟩ := hact t _ a r _ _ hw ha (hq a hm.next) hm.acts
  refine ⟨hw', fun u => ?_⟩
  by_cases hu : u = t
  · subst hu
    rw [hprog, Function.update_self]
    exact hrest r hr
  · rw [hm.prog_of_ne hu]
    exact hp u

lemma after_follows {H : Type} {Q : (a : S.Act) → S.Resp a → Prop} {ok : H → S.Act → Prop}
    {advance : H → (a : S.Act) → S.Resp a → H} {D : H → α → Prop} {J : H → W → Prop} {t : ι}
    (hown : ∀ n h a r w w', J h w → ok h a → sem t a (inputs t n) w = some (r, w') → Q a r ∧
    J (advance h a r) w')
    (hother : ∀ u n h a r w w', u ≠ t → J h w → sem u a (inputs u n) w = some (r, w') → J h w')
    (schedule : List ι) (c : Config S ι α W) {h : H} (hp : Follows Q ok advance D h (c.prog t))
    (hw : J h c.world) : ∃ h, Follows Q ok advance D h ((c.after sem inputs schedule).prog t) ∧
    J h (c.after sem inputs schedule).world := by
  refine after_induction (P := fun c => ∃ h, Follows Q ok advance D h (c.prog t) ∧ J h c.world)
    (Q := fun _ _ => True) ?_ schedule c ⟨h, hp, hw⟩ (Along.of_forall (fun _ _ => trivial) _ _)
  intro c u a r c' ⟨h, hp, hw⟩ _ hm
  obtain ⟨k, hk, hprog⟩ := hm.prog
  by_cases hu : u = t
  · subst hu
    rw [hk] at hp
    obtain ⟨hok, hrest⟩ := hp.next
    obtain ⟨hq, hj⟩ := hown _ h a r _ _ hw hok hm.acts
    refine ⟨_, ?_, hj⟩
    rw [hprog, Function.update_self]
    exact hrest r hq
  · refine ⟨h, ?_, hother u _ h a r _ _ hu hw hm.acts⟩
    rw [hm.prog_of_ne (Ne.symm hu)]
    exact hp

lemma after_follow {H : Type} {Q : (a : S.Act) → S.Resp a → Prop} {ok : H → S.Act → Prop}
    {advance : H → (a : S.Act) → S.Resp a → H} {D : ι → H → α → Prop} {J : (ι → H) → W → Prop}
    (hact : ∀ t n hs a r w w', J hs w → ok (hs t) a → sem t a (inputs t n) w = some (r, w') →
      Q a r ∧ J (Function.update hs t (advance (hs t) a r)) w')
    (schedule : List ι) (c : Config S ι α W) {hs : ι → H}
    (hp : ∀ t, Follows Q ok advance (D t) (hs t) (c.prog t)) (hw : J hs c.world) :
    ∃ hs, (∀ t, Follows Q ok advance (D t) (hs t) ((c.after sem inputs schedule).prog t)) ∧
      J hs (c.after sem inputs schedule).world := by
  refine after_induction
    (P := fun c => ∃ hs, (∀ t, Follows Q ok advance (D t) (hs t) (c.prog t)) ∧ J hs c.world)
    (Q := fun _ _ => True) ?_ schedule c ⟨hs, hp, hw⟩ (Along.of_forall (fun _ _ => trivial) _ _)
  intro c t a r c' ⟨hs, hp, hw⟩ _ hm
  obtain ⟨k, hk, hprog⟩ := hm.prog
  have ht := hp t
  rw [hk] at ht
  obtain ⟨hok, hrest⟩ := ht.next
  obtain ⟨hq, hj⟩ := hact t _ hs a r _ _ hw hok hm.acts
  refine ⟨_, fun u => ?_, hj⟩
  by_cases hu : u = t
  · subst hu
    rw [hprog, Function.update_self, Function.update_self]
    exact hrest r hq
  · rw [hm.prog_of_ne hu, Function.update_of_ne hu]
    exact hp u

end Config

end RedisClone.Lib
