import Mathlib.Tactic

/-! Programs as trees of atomic actions, and their execution by one thread that
meets no other. -/

namespace RedisClone.Lib

structure Signature where
  Act : Type
  Resp : Act → Type

inductive Program (S : Signature) (α : Type) : Type
  | done (a : α)
  | act (a : S.Act) (k : S.Resp a → Program S α)

namespace Program

variable {S : Signature} {α β γ : Type}

def bind (p : Program S α) (f : α → Program S β) : Program S β :=
  match p with
  | .done a => f a
  | .act a k => .act a (fun r => (k r).bind f)

instance : Monad (Program S) where
  pure := .done
  bind := bind

def call (a : S.Act) : Program S (S.Resp a) := .act a .done

@[simp] lemma pure_eq (a : α) : (pure a : Program S α) = .done a := rfl

@[simp] lemma done_bind (a : α) (f : α → Program S β) : (Program.done a >>= f) = f a := rfl

@[simp] lemma act_bind (a : S.Act) (k : S.Resp a → Program S α) (f : α → Program S β) :
    (Program.act a k >>= f) = .act a (fun r => k r >>= f) := rfl

@[simp] lemma call_bind (a : S.Act) (f : S.Resp a → Program S β) :
    (call a >>= f) = .act a f := rfl

lemma bind_assoc (p : Program S α) (f : α → Program S β) (g : β → Program S γ) :
    (p >>= f >>= g) = (p >>= fun a => f a >>= g) := by
  induction p with
  | done a => rfl
  | act a k ih =>
    simp only [act_bind]
    congr 1
    funext r
    exact ih r

lemma bind_done (p : Program S α) : (p >>= Program.done) = p := by
  induction p with
  | done a => rfl
  | act a k ih =>
    simp only [act_bind]
    congr 1
    funext r
    exact ih r

instance : LawfulMonad (Program S) := LawfulMonad.mk' _
  (fun p => bind_done p) (fun _ _ => rfl) (fun p f g => bind_assoc p f g)

def embed {S' : Signature} (f : S.Act → S'.Act) (g : ∀ a, S'.Resp (f a) → S.Resp a) :
    Program S α → Program S' α
  | .done a => .done a
  | .act a k => .act (f a) fun r => (k (g a r)).embed f g

def through {S' : Signature} (f : (a : S.Act) → Program S' (Option (S.Resp a))) :
    Program S α → Program S' (Option α)
  | .done a => .done (some a)
  | .act a k => f a >>= fun r =>
    match r with
    | none => .done none
    | some r => (k r).through f

def shift {I : Type} (n : ℕ) (inputs : ℕ → I) : ℕ → I := fun i => inputs (i + n)

@[simp] lemma shift_apply {I : Type} (n : ℕ) (inputs : ℕ → I) (i : ℕ) :
    shift n inputs i = inputs (i + n) := rfl

@[simp] lemma shift_zero {I : Type} (inputs : ℕ → I) : shift 0 inputs = inputs := rfl

@[simp] lemma shift_shift {I : Type} (m n : ℕ) (inputs : ℕ → I) :
    shift m (shift n inputs) = shift (m + n) inputs := by
  funext i
  simp only [shift_apply, Nat.add_assoc]

def splice {I : Type} (n : ℕ) (inputs rest : ℕ → I) : ℕ → I :=
  fun i => if i < n then inputs i else rest (i - n)

lemma splice_of_lt {I : Type} {n i : ℕ} (h : i < n) (inputs rest : ℕ → I) :
    splice n inputs rest i = inputs i := if_pos h

@[simp] lemma shift_splice {I : Type} (n : ℕ) (inputs rest : ℕ → I) :
    shift n (splice n inputs rest) = rest := by
  funext i
  simp [splice]

section Run

variable {I W : Type} (perform : (a : S.Act) → I → W → S.Resp a × W)

/-- Each action takes the next input of its environment. The number of inputs taken comes
back with the answer and the final state. -/
def run : Program S α → (ℕ → I) → W → α × ℕ × W
  | .done a, _, w => (a, 0, w)
  | .act a k, inputs, w =>
    let here := perform a (inputs 0) w
    let rest := (k here.1).run (shift 1 inputs) here.2
    (rest.1, rest.2.1 + 1, rest.2.2)

@[simp] lemma run_done (a : α) (inputs : ℕ → I) (w : W) :
    run perform (.done a : Program S α) inputs w = (a, 0, w) := rfl

lemma run_act (a : S.Act) (k : S.Resp a → Program S α) (inputs : ℕ → I) (w : W) :
    run perform (.act a k) inputs w =
      let here := perform a (inputs 0) w
      let rest := (k here.1).run perform (shift 1 inputs) here.2
      (rest.1, rest.2.1 + 1, rest.2.2) := rfl

lemma run_bind (p : Program S α) (f : α → Program S β) (inputs : ℕ → I) (w : W) :
    run perform (p >>= f) inputs w =
      let first := run perform p inputs w
      let rest := (f first.1).run perform (shift first.2.1 inputs) first.2.2
      (rest.1, rest.2.1 + first.2.1, rest.2.2) := by
  induction p generalizing inputs w with
  | done a => rfl
  | act a k ih =>
    simp only [act_bind, run_act, ih, shift_shift]
    rfl

lemma run_congr (p : Program S α) {inputs inputs' : ℕ → I} {w : W}
    (h : ∀ i < (run perform p inputs w).2.1, inputs' i = inputs i) :
    run perform p inputs' w = run perform p inputs w := by
  induction p generalizing inputs inputs' w with
  | done a => rfl
  | act a k ih =>
    have h₀ : inputs' 0 = inputs 0 := h 0 (Nat.succ_pos _)
    rw [run_act, run_act, h₀]
    dsimp only
    have hrest : ∀ i <
      (run perform (k (perform a (inputs 0) w).1) (shift 1 inputs) (perform a (inputs 0) w).2).2.1,
        shift 1 inputs' i = shift 1 inputs i := fun i hi => h (i + 1) (Nat.succ_lt_succ hi)
    rw [ih _ hrest]

lemma run_invariant {P : W → Prop} (h : ∀ a i w, P w → P (perform a i w).2)
    (p : Program S α) (inputs : ℕ → I) (w : W) (hw : P w) : P (run perform p inputs w).2.2 := by
  induction p generalizing inputs w with
  | done a => exact hw
  | act a k ih => exact ih _ _ _ (h a _ w hw)

end Run

/-- As long as the answers to its actions are as `Q` says, the program takes only actions with `P`,
and comes to an end, if at all, with a result that has `D`. -/
inductive Obeys (P : S.Act → Prop) (Q : (a : S.Act) → S.Resp a → Prop) (D : α → Prop) :
    Program S α → Prop
  | done {a : α} (ha : D a) : Obeys P Q D (.done a)
  | act {a : S.Act} {k : S.Resp a → Program S α} (ha : P a) (hk : ∀ r, Q a r → Obeys P Q D (k r)) :
      Obeys P Q D (.act a k)

section Obeys

variable {P : S.Act → Prop} {Q : (a : S.Act) → S.Resp a → Prop} {D : α → Prop} {E : β → Prop}

lemma Obeys.bind {p : Program S α} {f : α → Program S β} (hp : Obeys P Q D p)
    (hf : ∀ a, D a → Obeys P Q E (f a)) : Obeys P Q E (p >>= f) := by
  induction hp with
  | done ha => exact hf _ ha
  | act ha _ ih => exact .act ha ih

lemma Obeys.mono {P' : S.Act → Prop} {Q' : (a : S.Act) → S.Resp a → Prop} {D' : α → Prop}
    (hP : ∀ a, P a → P' a) (hQ : ∀ a r, Q' a r → Q a r) (hD : ∀ a, D a → D' a) {p : Program S α}
    (hp : Obeys P Q D p) : Obeys P' Q' D' p := by
  induction hp with
  | done ha => exact .done (hD _ ha)
  | act ha _ ih => exact .act (hP _ ha) fun r hr => ih r (hQ _ r hr)

lemma Obeys.map {p : Program S α} (f : α → β) (hp : Obeys P Q (fun a => E (f a)) p) :
    Obeys P Q E (f <$> p) := by
  rw [map_eq_pure_bind]
  exact hp.bind fun a ha => .done ha

lemma Obeys.any (p : Program S α) : Obeys (fun _ => True) (fun _ _ => True) (fun _ => True) p := by
  induction p with
  | done a => exact .done trivial
  | act a k ih => exact .act trivial fun r _ => ih r

lemma Obeys.and {P' : S.Act → Prop} {Q' : (a : S.Act) → S.Resp a → Prop} {D' : α → Prop}
    {p : Program S α} (hp : Obeys P Q D p) (hp' : Obeys P' Q' D' p) :
    Obeys (fun a => P a ∧ P' a) (fun a r => Q a r ∧ Q' a r) (fun b => D b ∧ D' b) p := by
  induction hp with
  | done ha =>
    cases hp' with
    | done ha' => exact .done ⟨ha, ha'⟩
  | act ha _ ih =>
    cases hp' with
    | act ha' hk' => exact .act ⟨ha, ha'⟩ fun r hr => ih r hr.1 (hk' r hr.2)

lemma Obeys.next {a : S.Act} {k : S.Resp a → Program S α} (h : Obeys P Q D (.act a k)) :
    P a ∧ ∀ r, Q a r → Obeys P Q D (k r) := by
  cases h with
  | act ha hk => exact ⟨ha, hk⟩

lemma Obeys.result {a : α} (h : Obeys P Q D (.done a)) : D a := by
  cases h with
  | done ha => exact ha

end Obeys

inductive Yields : Program S α → α → Prop
  | done (a : α) : Yields (.done a) a
  | act {a : S.Act} {k : S.Resp a → Program S α} (r : S.Resp a) {b : α} (h : Yields (k r) b) :
      Yields (.act a k) b

lemma Yields.bind {p : Program S α} {f : α → Program S β} {a : α} {b : β} (hp : Yields p a)
    (hf : Yields (f a) b) : Yields (p >>= f) b := by
  induction hp with
  | done a => exact hf
  | act r _ ih => exact .act r (ih hf)

lemma Yields.map {p : Program S α} {a : α} (f : α → β) (hp : Yields p a) :
    Yields (f <$> p) (f a) := by
  rw [map_eq_pure_bind]
  exact hp.bind (.done _)

lemma Obeys.yields {P : S.Act → Prop} {Q : (a : S.Act) → S.Resp a → Prop} {D : α → Prop}
    {p : Program S α} (h : Obeys P Q D p) : Obeys P Q (fun b => D b ∧ Yields p b) p := by
  induction h with
  | done ha => exact .done ⟨ha, .done _⟩
  | act ha _ ih => exact .act ha fun r hr =>
      (ih r hr).mono (fun _ h => h) (fun _ _ h => h) fun b hb => ⟨hb.1, .act r hb.2⟩

abbrev Within (P : S.Act → Prop) (Q : (a : S.Act) → S.Resp a → Prop) (p : Program S α) : Prop :=
  Obeys P Q (fun _ => True) p

lemma Within.done {P : S.Act → Prop} {Q : (a : S.Act) → S.Resp a → Prop} (a : α) :
    Within P Q (.done a : Program S α) := Obeys.done trivial

lemma Within.bind {P : S.Act → Prop} {Q : (a : S.Act) → S.Resp a → Prop} {p : Program S α}
    {f : α → Program S β} (hp : Within P Q p) (hf : ∀ a, Within P Q (f a)) :
    Within P Q (p >>= f) := Obeys.bind hp fun a _ => hf a

def Only (P : S.Act → Prop) (p : Program S α) : Prop := Obeys P (fun _ _ => True) (fun _ => True) p

section Only

variable {P : S.Act → Prop}

lemma Only.done (a : α) : Only P (.done a : Program S α) := Obeys.done trivial

lemma Only.act {a : S.Act} {k : S.Resp a → Program S α} (ha : P a) (hk : ∀ r, Only P (k r)) :
    Only P (.act a k) :=
  Obeys.act ha fun r _ => hk r

lemma Only.bind {p : Program S α} {f : α → Program S β} (hp : Only P p) (hf : ∀ a, Only P (f a)) :
    Only P (p >>= f) := Obeys.bind hp fun a _ => hf a

lemma Only.call {a : S.Act} (ha : P a) : Only P (call a) := Only.act ha Only.done

lemma Only.map {p : Program S α} (f : α → β) (hp : Only P p) : Only P (f <$> p) := Obeys.map f hp

lemma Only.embed {S' : Signature} {f : S.Act → S'.Act} {g : ∀ a, S'.Resp (f a) → S.Resp a}
    {P : S'.Act → Prop} {p : Program S α} (hp : Only (fun a => P (f a)) p) :
    Only P (p.embed f g) := by
  unfold Only at hp
  induction hp with
  | done _ => exact .done _
  | act ha _ ih => exact .act ha fun r => ih (g _ r) trivial

end Only

section Composing

structure Composes (M : (α : Type) → Program S α → Prop) : Prop where
  done : ∀ {α : Type} (a : α), M α (.done a)
  bind : ∀ {α β : Type} {p : Program S α} {f : α → Program S β},
    M α p → (∀ a, M β (f a)) → M β (p >>= f)

lemma composes_within (P : S.Act → Prop) (Q : (a : S.Act) → S.Resp a → Prop) :
    Composes fun _ (p : Program S _) => Within P Q p :=
  ⟨Within.done, Within.bind⟩

lemma composes_only (P : S.Act → Prop) : Composes fun _ (p : Program S _) => Only P p :=
  ⟨Only.done, Only.bind⟩

end Composing

/-- As long as the answers are as `Q` says, the program keeps to a rule on a ghost state, which its
actions and their answers move on. -/
inductive Follows {H : Type} (Q : (a : S.Act) → S.Resp a → Prop) (ok : H → S.Act → Prop)
    (advance : H → (a : S.Act) → S.Resp a → H) (D : H → α → Prop) : H → Program S α → Prop
  | done {h : H} {b : α} (hb : D h b) : Follows Q ok advance D h (.done b)
  | act {h : H} {a : S.Act} {k : S.Resp a → Program S α} (ha : ok h a)
      (hk : ∀ r, Q a r → Follows Q ok advance D (advance h a r) (k r)) :
        Follows Q ok advance D h (.act a k)

section Follows

variable {H : Type} {Q : (a : S.Act) → S.Resp a → Prop} {ok : H → S.Act → Prop}
  {advance : H → (a : S.Act) → S.Resp a → H} {D : H → α → Prop} {E : H → β → Prop} {h : H}

lemma Follows.bind {p : Program S α} {f : α → Program S β} (hp : Follows Q ok advance D h p)
    (hf : ∀ h b, D h b → Follows Q ok advance E h (f b)) : Follows Q ok advance E h (p >>= f) := by
  induction hp with
  | done hb => exact hf _ _ hb
  | act ha _ ih => exact .act ha ih

lemma Follows.map {p : Program S α} (f : α → β)
    (hp : Follows Q ok advance (fun h b => E h (f b)) h p) :
    Follows Q ok advance E h (f <$> p) := by
  rw [map_eq_pure_bind]
  exact hp.bind fun _ _ hb => .done hb

lemma Follows.of_within {P : S.Act → Prop} (hok : ∀ a, P a → ok h a)
    (hnext : ∀ a r, P a → advance h a r = h) {p : Program S α} (hp : Within P Q p) :
    Follows Q ok advance (fun h' _ => h' = h) h p := by
  induction hp with
  | done _ => exact .done rfl
  | act ha _ ih => exact .act (hok _ ha) fun r hr => (hnext _ r ha).symm ▸ ih r hr

lemma Follows.imp {D' : H → α → Prop} {p : Program S α} (hp : Follows Q ok advance D h p)
    (hD : ∀ h b, D h b → D' h b) : Follows Q ok advance D' h p := by
  induction hp with
  | done hb => exact .done (hD _ _ hb)
  | act ha _ ih => exact .act ha ih

lemma Follows.of_answers {Q' : (a : S.Act) → S.Resp a → Prop} (hQ : ∀ a r, Q' a r → Q a r)
    {p : Program S α} (hp : Follows Q ok advance D h p) : Follows Q' ok advance D h p := by
  induction hp with
  | done hb => exact .done hb
  | act ha _ ih => exact .act ha fun r hr => ih r (hQ _ r hr)

lemma Follows.and {P : S.Act → Prop} {Q' : (a : S.Act) → S.Resp a → Prop} {D' : α → Prop}
    {p : Program S α} (hp : Follows Q ok advance D h p) (hp' : Obeys P Q' D' p) :
    Follows (fun a r => Q a r ∧ Q' a r) (fun h a => ok h a ∧ P a) advance
      (fun h b => D h b ∧ D' b) h p := by
  induction hp with
  | done hb => exact .done ⟨hb, hp'.result⟩
  | act ha _ ih =>
    obtain ⟨ha', hk'⟩ := hp'.next
    exact .act ⟨ha, ha'⟩ fun r hr => ih r hr.1 (hk' r hr.2)

lemma Follows.embed {S' : Signature} {f : S.Act → S'.Act} {g : ∀ a, S'.Resp (f a) → S.Resp a}
    {Q' : (a : S'.Act) → S'.Resp a → Prop} {ok' : H → S'.Act → Prop}
    {advance' : H → (a : S'.Act) → S'.Resp a → H} (hQ : ∀ a r, Q' (f a) r → Q a (g a r))
    (hok : ∀ h a, ok h a → ok' h (f a))
    (hadvance : ∀ h a r, advance' h (f a) r = advance h a (g a r)) {p : Program S α}
    (hp : Follows Q ok advance D h p) : Follows Q' ok' advance' D h (p.embed f g) := by
  induction hp with
  | done hb => exact .done hb
  | act ha _ ih => exact .act (hok _ _ ha) fun r hr =>
      (hadvance _ _ r).symm ▸ ih (g _ r) (hQ _ r hr)

lemma Follows.embed_of_obeys {S' : Signature} {f : S.Act → S'.Act}
    {g : ∀ a, S'.Resp (f a) → S.Resp a} {P : S.Act → Prop} {Q' : (a : S'.Act) → S'.Resp a → Prop}
    {ok' : H → S'.Act → Prop} {advance' : H → (a : S'.Act) → S'.Resp a → H}
    {D : α → Prop} (hQ : ∀ a r, Q' (f a) r → Q a (g a r)) (hok : ∀ a, P a → ok' h (f a))
    (hnext : ∀ a r, P a → advance' h (f a) r = h) {p : Program S α} (hp : Obeys P Q D p) :
    Follows Q' ok' advance' (fun h' b => h' = h ∧ D b) h (p.embed f g) := by
  induction hp with
  | done hb => exact .done ⟨rfl, hb⟩
  | act ha _ ih => exact .act (hok _ ha) fun r hr => (hnext _ r ha).symm ▸ ih (g _ r) (hQ _ r hr)

lemma Follows.transport {H' : Type} {R : H → H' → Prop} {ok' : H' → S.Act → Prop}
    {advance' : H' → (a : S.Act) → S.Resp a → H'} {D' : H' → α → Prop}
    (hok : ∀ h h' a, R h h' → ok h a → ok' h' a)
    (hadvance : ∀ h h' a r, R h h' → ok h a → R (advance h a r) (advance' h' a r))
    (hD : ∀ h h' b, R h h' → D h b → D' h' b) {p : Program S α} (hp : Follows Q ok advance D h p)
    {h' : H'} (hR : R h h') : Follows Q ok' advance' D' h' p := by
  induction hp generalizing h' with
  | done hb => exact .done (hD _ _ _ hR hb)
  | act ha _ ih => exact .act (hok _ _ _ hR ha) fun r hr => ih r hr (hadvance _ _ _ r hR ha)

lemma Follows.through {S' : Signature} {f : (a : S.Act) → Program S' (Option (S.Resp a))}
    {H' : Type} {R : H → H' → Prop} {Q' : (a : S'.Act) → S'.Resp a → Prop}
    {ok' : H' → S'.Act → Prop} {advance' : H' → (a : S'.Act) → S'.Resp a → H'}
    (hf : ∀ h h' a, R h h' → ok h a →
      Follows Q' ok' advance' (fun g r => ∃ b, r = some b ∧ Q a b ∧ R (advance h a b) g) h' (f a))
    {p : Program S α} (hp : Follows Q ok advance D h p) {h' : H'} (hR : R h h') :
    Follows Q' ok' advance' (fun g r => ∃ b h, r = some b ∧ D h b ∧ R h g) h' (p.through f) := by
  induction hp generalizing h' with
  | done hb => exact .done ⟨_, _, rfl, hb, hR⟩
  | act ha _ ih =>
    rw [Program.through]
    refine (hf _ h' _ hR ha).bind fun g r hr => ?_
    obtain ⟨b, rfl, hq, hR'⟩ := hr
    exact ih b hq hR'

lemma Follows.next {a : S.Act} {k : S.Resp a → Program S α}
    (hp : Follows Q ok advance D h (.act a k)) :
    ok h a ∧ ∀ r, Q a r → Follows Q ok advance D (advance h a r) (k r) := by
  cases hp with
  | act ha hk => exact ⟨ha, hk⟩

lemma Follows.result {b : α} (hp : Follows Q ok advance D h (.done b)) : D h b := by
  cases hp with
  | done hb => exact hb

end Follows

section Counting

variable {I W : Type} (perform : (a : S.Act) → I → W → S.Resp a × W)
  (count : (a : S.Act) → I → W → ℕ)

def tally : Program S α → (ℕ → I) → W → ℕ
  | .done _, _, _ => 0
  | .act a k, inputs, w =>
    count a (inputs 0) w + (k (perform a (inputs 0) w).1).tally (shift 1 inputs)
      (perform a (inputs 0) w).2

lemma run_tally {P : S.Act → Prop} {f : W → ℕ}
    (h : ∀ a i w, P a → f (perform a i w).2 = f w + count a i w)
    {p : Program S α} (hp : Only P p) (inputs : ℕ → I) (w : W) :
    f (run perform p inputs w).2.2 = f w + tally perform count p inputs w := by
  unfold Only at hp
  induction hp generalizing inputs w with
  | done _ => rfl
  | act ha _ ih =>
    simp only [run_act, tally]
    rw [ih _ trivial, h _ _ _ ha]
    omega

lemma run_constant {P : S.Act → Prop} {f : W → β} (h : ∀ a i w, P a → f (perform a i w).2 = f w)
    {p : Program S α} (hp : Only P p) (inputs : ℕ → I) (w : W) :
    f (run perform p inputs w).2.2 = f w := by
  unfold Only at hp
  induction hp generalizing inputs w with
  | done _ => rfl
  | act ha _ ih =>
    simp only [run_act]
    rw [ih _ trivial, h _ _ _ ha]

lemma tally_add (count' : (a : S.Act) → I → W → ℕ) (p : Program S α) (inputs : ℕ → I) (w : W) :
    tally perform (fun a i w => count a i w + count' a i w) p inputs w =
      tally perform count p inputs w + tally perform count' p inputs w := by
  induction p generalizing inputs w with
  | done a => rfl
  | act a k ih =>
    simp only [tally, ih]
    omega

end Counting

section Checking

variable {I W : Type} (perform : (a : S.Act) → I → W → S.Resp a × W) (check : W → S.Act → Bool)

def passes : Program S α → (ℕ → I) → W → Bool
  | .done _, _, _ => true
  | .act a k, inputs, w =>
    check w a && (k (perform a (inputs 0) w).1).passes (shift 1 inputs) (perform a (inputs 0) w).2

variable {perform check} {P : S.Act → Prop} {Q : (a : S.Act) → S.Resp a → Prop} {D : α → Prop}

lemma Obeys.run_invariant {K : W → Prop}
    (h : ∀ a i w, K w → P a → check w a = true → K (perform a i w).2 ∧ Q a (perform a i w).1)
    {p : Program S α} (hp : Obeys P Q D p) {inputs : ℕ → I} {w : W} (hw : K w)
    (hpass : passes perform check p inputs w = true) : K (run perform p inputs w).2.2 := by
  induction hp generalizing inputs w with
  | done _ => exact hw
  | act ha _ ih =>
    obtain ⟨hcheck, hrest⟩ := Bool.and_eq_true_iff.1 hpass
    obtain ⟨hw', hr⟩ := h _ (inputs 0) w hw ha hcheck
    exact ih _ hr hw' hrest

end Checking

section Relational

variable {I W V : Type}

abbrev ActionSpec (S : Signature) (I W : Type) := (a : S.Act) → I → S.Resp a → W → W → Prop

inductive Reaches (A : ActionSpec S I W) : Program S α → (ℕ → I) → W → ℕ → Program S α → W → Prop
  | refl (p : Program S α) (inputs : ℕ → I) (w : W) : Reaches A p inputs w 0 p w
  | head {a : S.Act} {k : S.Resp a → Program S α} {inputs : ℕ → I} {r : S.Resp a}
      {w w₁ w₂ : W} {n : ℕ} {q : Program S α} (ha : A a (inputs 0) r w w₁)
          (hr : Reaches A (k r) (shift 1 inputs) w₁ n q w₂) :
      Reaches A (.act a k) inputs w (n + 1) q w₂

variable {A : ActionSpec S I W}

lemma Reaches.tail {p : Program S α} {inputs : ℕ → I} {w : W} {n : ℕ} {a : S.Act}
    {k : S.Resp a → Program S α} {w₁ : W} (h : Reaches A p inputs w n (.act a k) w₁)
    {r : S.Resp a} {w₂ : W} (ha : A a (inputs n) r w₁ w₂) :
    Reaches A p inputs w (n + 1) (k r) w₂ := by
  generalize hq : Program.act a k = q at h
  induction h with
  | refl p inputs w =>
    subst hq
    exact .head ha (.refl _ _ _)
  | head hb _ ih => exact .head hb (ih ha hq)

lemma Reaches.mono {B : ActionSpec S I V} {Inv : W → Prop} {f : W → V}
    (hA : ∀ a i r w w', Inv w → A a i r w w' → Inv w' ∧ B a i r (f w) (f w'))
    {p q : Program S α} {inputs : ℕ → I} {w w' : W} {n : ℕ} (hw : Inv w)
    (h : Reaches A p inputs w n q w') : Reaches B p inputs (f w) n q (f w') := by
  induction h with
  | refl p inputs w => exact .refl _ _ _
  | head ha _ ih =>
    obtain ⟨hi, hb⟩ := hA _ _ _ _ _ hw ha
    exact .head hb (ih hi)

def Runs (A : ActionSpec S I W) (p : Program S α) (inputs : ℕ → I) (w : W) (n : ℕ) (b : α)
    (w' : W) : Prop :=
  Reaches A p inputs w n (.done b) w'

@[simp] lemma runs_done {a b : α} {inputs : ℕ → I} {w w' : W} {n : ℕ} :
    Runs A (.done a) inputs w n b w' ↔ n = 0 ∧ b = a ∧ w' = w := by
  refine ⟨fun h => ?_, ?_⟩
  · cases h
    exact ⟨rfl, rfl, rfl⟩
  · rintro ⟨rfl, rfl, rfl⟩
    exact .refl _ _ _

@[simp] lemma runs_act {a : S.Act} {k : S.Resp a → Program S α} {inputs : ℕ → I} {w w' : W}
    {n : ℕ} {b : α} : Runs A (.act a k) inputs w n b w' ↔ ∃ r w₁ m, A a (inputs 0) r w w₁ ∧
      Runs A (k r) (shift 1 inputs) w₁ m b w' ∧ n = m + 1 := by
  refine ⟨fun h => ?_, ?_⟩
  · cases h with
    | head ha hr => exact ⟨_, _, _, ha, hr, rfl⟩
  · rintro ⟨r, w₁, m, ha, hr, rfl⟩
    exact .head ha hr

lemma runs_bind {p : Program S α} {f : α → Program S β} {inputs : ℕ → I} {w w' : W}
    {n : ℕ} {b : β} : Runs A (p >>= f) inputs w n b w' ↔ ∃ a w₁ m m', Runs A p inputs w m a w₁ ∧
      Runs A (f a) (shift m inputs) w₁ m' b w' ∧ n = m' + m := by
  induction p generalizing inputs w n with
  | done a => simp
  | act a k ih =>
    simp only [act_bind, runs_act, ih, shift_shift]
    constructor
    · rintro ⟨r, w₁, _, ha, ⟨c, w₂, m, m', hp, hf, rfl⟩, rfl⟩
      exact ⟨c, w₂, m + 1, m', ⟨r, w₁, m, ha, hp, rfl⟩, hf, by omega⟩
    · rintro ⟨c, w₂, _, m', ⟨r, w₁, m, ha, hp, rfl⟩, hf, rfl⟩
      exact ⟨r, w₁, m' + m, ha, ⟨c, w₂, m, m', hp, hf, rfl⟩, by omega⟩

lemma runs_map {p : Program S α} {f : α → β} {inputs : ℕ → I} {w w' : W} {n : ℕ} {b : β} :
    Runs A (f <$> p) inputs w n b w' ↔ ∃ a, Runs A p inputs w n a w' ∧ b = f a := by
  rw [map_eq_pure_bind, runs_bind]
  simp only [pure_eq, runs_done]
  constructor
  · rintro ⟨a, w₁, m, m', hp, ⟨rfl, rfl, rfl⟩, rfl⟩
    exact ⟨a, by simpa using hp, rfl⟩
  · rintro ⟨a, hp, rfl⟩
    exact ⟨a, w', n, 0, hp, ⟨rfl, rfl, rfl⟩, (Nat.zero_add n).symm⟩

lemma Runs.of_only {P : S.Act → Prop} {R : W → W → Prop} (hrefl : ∀ w, R w w)
    (htrans : ∀ {w₁ w₂ w₃}, R w₁ w₂ → R w₂ w₃ → R w₁ w₃) {p : Program S α} (hp : Only P p)
    {inputs : ℕ → I} (hA : ∀ a r w w' i, P a → A a (inputs i) r w w' → R w w') {w w' : W}
    {n : ℕ} {b : α} (h : Runs A p inputs w n b w') : R w w' := by
  unfold Only at hp
  induction hp generalizing inputs w n with
  | done _ =>
    obtain ⟨-, -, rfl⟩ := runs_done.1 h
    exact hrefl _
  | act ha _ ih =>
    obtain ⟨r, w₁, m, h₁, h₂, -⟩ := runs_act.1 h
    exact htrans (hA _ r w w₁ 0 ha h₁) (ih r trivial (fun a r w w' i => hA a r w w' (i + 1)) h₂)

def performs (perform : (a : S.Act) → I → W → S.Resp a × W) : ActionSpec S I W :=
  fun a i r w w' => perform a i w = (r, w')

lemma runs_run (perform : (a : S.Act) → I → W → S.Resp a × W) (p : Program S α)
    (inputs : ℕ → I) (w : W) :
    Runs (performs perform) p inputs w (run perform p inputs w).2.1 (run perform p inputs w).1
      (run perform p inputs w).2.2 := by
  induction p generalizing inputs w with
  | done a => exact .refl _ _ _
  | act a k ih => exact .head rfl (ih _ _ _)

end Relational

end Program

end RedisClone.Lib
