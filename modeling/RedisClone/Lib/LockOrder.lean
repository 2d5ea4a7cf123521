import RedisClone.Lib.Interleaving

/-! Threads that take reader/writer locks in one order cannot all come to wait. -/

namespace RedisClone.Lib

open Program

section Discipline

variable {S T : Signature} {α β H G : Type}

/-- For its next `n` actions the program follows a rule, which says what an action asks of a
ghost state and what it makes of it. A program that ends before that ends with `Q`. -/
inductive Keeps (rule : H → S.Act → H → Prop) (Q : α → H → Prop) : ℕ → H → Program S α → Prop
  | enough {h : H} {p : Program S α} : Keeps rule Q 0 h p
  | done {n : ℕ} {h : H} {a : α} (hq : Q a h) : Keeps rule Q n h (.done a)
  | act {n : ℕ} {h h' : H} {a : S.Act} {k : S.Resp a → Program S α} (ha : rule h a h')
      (hk : ∀ r, Keeps rule Q n h' (k r)) : Keeps rule Q (n + 1) h (.act a k)

variable {rule : H → S.Act → H → Prop} {Q : α → H → Prop} {R : β → H → Prop}

lemma Keeps.le {n m : ℕ} {h : H} {p : Program S α} (hp : Keeps rule Q n h p) (hm : m ≤ n) :
    Keeps rule Q m h p := by
  induction hp generalizing m with
  | enough => exact Nat.le_zero.1 hm ▸ .enough
  | done hq => exact .done hq
  | act ha _ ih =>
    cases m with
    | zero => exact .enough
    | succ m => exact .act ha fun r => ih r (Nat.le_of_succ_le_succ hm)

lemma Keeps.bind {n : ℕ} {h : H} {p : Program S α} {f : α → Program S β} (hp : Keeps rule Q n h p)
    (hf : ∀ a h m, m ≤ n → Q a h → Keeps rule R m h (f a)) : Keeps rule R n h (p >>= f) := by
  induction hp with
  | enough => exact .enough
  | done hq => exact hf _ _ _ le_rfl hq
  | act ha _ ih => exact .act ha fun r => ih r fun a h m hm => hf a h m (Nat.le_succ_of_le hm)

lemma Keeps.next {n : ℕ} {h : H} {a : S.Act} {k : S.Resp a → Program S α}
    (hp : Keeps rule Q (n + 1) h (.act a k)) :
    ∃ h', rule h a h' ∧ ∀ r, Keeps rule Q n h' (k r) := by
  cases hp with
  | act ha hk => exact ⟨_, ha, hk⟩

lemma Keeps.result {n : ℕ} {h : H} {a : α} (hp : Keeps rule Q (n + 1) h (.done a)) : Q a h := by
  cases hp with
  | done hq => exact hq

inductive Carries (rule : H → S.Act → H → Prop) : H → H → Program S α → Prop
  | done {h : H} (a : α) : Carries rule h h (.done a)
  | step {h h₁ h' : H} {a : S.Act} {k : S.Resp a → Program S α} (ha : rule h a h₁)
      (hk : ∀ r, Carries rule h₁ h' (k r)) : Carries rule h h' (.act a k)

section Carries

variable {h h' h'' : H}

lemma Carries.keeps {p : Program S α} (hp : Carries rule h h' p) :
    ∀ n, Keeps rule (fun _ g => g = h') n h p := by
  induction hp with
  | done a => exact fun n => .done rfl
  | step ha _ ih =>
    intro n
    cases n with
    | zero => exact .enough
    | succ n => exact .act ha fun r => ih r n

lemma Carries.bind {p : Program S α} {f : α → Program S β} (hp : Carries rule h h' p)
    (hf : ∀ a, Carries rule h' h'' (f a)) : Carries rule h h'' (p >>= f) := by
  induction hp with
  | done a => exact hf a
  | step ha _ ih => exact .step ha fun r => ih r hf

lemma Carries.map {p : Program S α} (hp : Carries rule h h' p) (f : α → β) :
    Carries rule h h' (f <$> p) := by
  rw [map_eq_pure_bind]
  exact hp.bind fun a => .done (f a)

lemma Carries.act {a : S.Act} {f : S.Resp a → Program S α} (ha : rule h a h')
    (hf : ∀ r, Carries rule h' h'' (f r)) : Carries rule h h'' (call a >>= f) := .step ha hf

lemma Carries.last {a : S.Act} (ha : rule h a h') : Carries rule h h' (call a) := .step ha .done

lemma Carries.only {P : S.Act → Prop} (hP : ∀ a, P a → rule h a h) {p : Program S α}
    (hp : Only P p) : Carries rule h h p := by
  unfold Only at hp
  induction hp with
  | done _ => exact .done _
  | act ha _ ih => exact .step (hP _ ha) fun r => ih r trivial

lemma Carries.next {a : S.Act} {k : S.Resp a → Program S α} (hp : Carries rule h h' (.act a k)) :
    ∃ h₁, rule h a h₁ ∧ ∀ r, Carries rule h₁ h' (k r) := by
  cases hp with
  | step ha hk => exact ⟨_, ha, hk⟩

end Carries

def Program.expand (σ : (a : S.Act) → Program T (S.Resp a)) : Program S α → Program T α
  | .done a => .done a
  | .act a k => σ a >>= fun r => expand σ (k r)

lemma Keeps.expand {σ : (a : S.Act) → Program T (S.Resp a)} {rule' : G → T.Act → G → Prop}
    {ghost : H → G} {Q' : α → G → Prop} (hact : ∀ a, ∃ b k, σ a = .act b k)
    (hσ : ∀ h a h' n, rule h a h' → Keeps rule' (fun _ g => g = ghost h') n (ghost h) (σ a))
    (hQ : ∀ a h, Q a h → Q' a (ghost h)) {n : ℕ} {h : H} {p : Program S α}
    (hp : Keeps rule Q n h p) : Keeps rule' Q' n (ghost h) (p.expand σ) := by
  induction hp with
  | enough => exact .enough
  | done hq => exact .done (hQ _ _ hq)
  | @act n h h' a k ha _ ih =>
    obtain ⟨b, k', hb⟩ := hact a
    have hk := hσ h a h' (n + 1) ha
    simp only [Program.expand, hb] at hk ⊢
    obtain ⟨g, hg, hrest⟩ := hk.next
    refine .act hg fun r => (hrest r).bind fun r g m hm he => ?_
    subst he
    exact (ih r).le hm

end Discipline

/-- `sync.RWMutex`: a `Lock` first shuts out other writers and new readers, which is its
`claim`, and then waits for the readers inside, which is `enter`. A `sync.Mutex` is one without
readers. -/
inductive LockAct (L A : Type)
  | rlock (l : L)
  | runlock (l : L)
  | claim (l : L)
  | enter (l : L)
  | unlock (l : L)
  | body (a : A)

@[reducible] def LockAct.Resp (S : Signature) {L : Type} : LockAct L S.Act → Type
  | .body a => S.Resp a
  | _ => Unit

@[reducible] def locking (S : Signature) (L : Type) : Signature := ⟨LockAct L S.Act, LockAct.Resp S⟩

structure RWMutex (ι : Type) where
  writer : Option ι
  readers : List ι
  deriving DecidableEq

def RWMutex.free (ι : Type) : RWMutex ι := ⟨none, []⟩

structure Guarded (W L ι : Type) where
  state : W
  table : L → RWMutex ι

section Locks

variable {S : Signature} {L ι I W α : Type} [DecidableEq L] [DecidableEq ι]

def Guarded.setMutex (w : Guarded W L ι) (l : L) (m : RWMutex ι) : Guarded W L ι :=
  { w with table := Function.update w.table l m }

def Guarded.act (perform : (a : S.Act) → I → W → S.Resp a × W) :
    Semantics (locking S L) ι I (Guarded W L ι) := fun t a i w =>
  match a with
  | .rlock l =>
    if (w.table l).writer.isNone then
      some ((), w.setMutex l { w.table l with readers := t :: (w.table l).readers })
    else none
  | .runlock l => some ((), w.setMutex l { w.table l with readers := (w.table l).readers.erase t })
  | .claim l =>
    if (w.table l).writer.isNone then some ((), w.setMutex l { w.table l with writer := some t })
      else none
  | .enter l => if (w.table l).readers = [] then some ((), w) else none
  | .unlock l => some ((), w.setMutex l { w.table l with writer := none })
  | .body b =>
    let done := perform b i w.state
    some (done.1, { w with state := done.2 })

inductive Hold
  | free
  | reading
  | claimed
  | writing
  deriving DecidableEq

def lockRule [Preorder L] (h : L → Hold) : LockAct L S.Act → (L → Hold) → Prop
  | .rlock l, h' => (∀ m, h m ≠ .free → m < l) ∧ h' = Function.update h l .reading
  | .runlock l, h' => h l = .reading ∧ h' = Function.update h l .free
  | .claim l, h' => (∀ m, h m ≠ .free → m < l) ∧ h' = Function.update h l .claimed
  | .enter l, h' =>
    h l = .claimed ∧ (∀ m, h m ≠ .free → m = l ∨ m < l) ∧ h' = Function.update h l .writing
  | .unlock l, h' => h l = .writing ∧ h' = Function.update h l .free
  | .body _, h' => h' = h

structure HeldBy (table : L → RWMutex ι) (holds : ι → L → Hold) : Prop where
  writer : ∀ l t, (table l).writer = some t ↔ holds t l = .claimed ∨ holds t l = .writing
  readers : ∀ l t, (table l).readers.count t = if holds t l = .reading then 1 else 0

omit [DecidableEq L] in
lemma HeldBy.free : HeldBy (fun _ : L => RWMutex.free ι) fun _ _ => .free := by
  constructor <;> intros <;> simp [RWMutex.free]

lemma HeldBy.update {table : L → RWMutex ι} {holds : ι → L → Hold} (h : HeldBy table holds) {t : ι}
    {l : L} {m : RWMutex ι} {x : Hold} (hw : m.writer = some t ↔ x = .claimed ∨ x = .writing)
    (hw' : ∀ u, u ≠ t → (m.writer = some u ↔ (table l).writer = some u))
    (hr : m.readers.count t = if x = .reading then 1 else 0)
    (hr' : ∀ u, u ≠ t → m.readers.count u = (table l).readers.count u) :
    HeldBy (Function.update table l m)
      (Function.update holds t (Function.update (holds t) l x)) := by
  refine ⟨fun l' u => ?_, fun l' u => ?_⟩ <;> by_cases hl : l' = l <;> by_cases hu : u = t
  · subst hl hu
    simpa using hw
  · subst hl
    simpa [hu, h.writer] using hw' u hu
  · subst hu
    simpa [hl] using h.writer l' u
  · simpa [hl, hu] using h.writer l' u
  · subst hl hu
    simpa using hr
  · subst hl
    simpa [hu, h.readers] using hr' u hu
  · subst hu
    simpa [hl] using h.readers l' u
  · simpa [hl, hu] using h.readers l' u

variable [Preorder L] {perform : (a : S.Act) → I → W → S.Resp a × W}

lemma HeldBy.acts {w w' : Guarded W L ι} {holds : ι → L → Hold} {t : ι} {a : LockAct L S.Act}
    {h' : L → Hold} {i : I} {r : LockAct.Resp S a} (h : HeldBy w.table holds)
    (hrule : lockRule (holds t) a h') (ha : Guarded.act perform t a i w = some (r, w')) :
    HeldBy w'.table (Function.update holds t h') := by
  have hfree {l : L} (hbelow : ∀ m, holds t m ≠ .free → m < l) : holds t l = .free :=
    by_contra fun hl => lt_irrefl l (hbelow l hl)
  cases a with
  | rlock l =>
    obtain ⟨hbelow, rfl⟩ := hrule
    simp only [Guarded.act] at ha
    split_ifs at ha with hn
    obtain ⟨-, rfl⟩ := Prod.mk.inj (Option.some.inj ha)
    have hcount := h.readers l t
    rw [hfree hbelow] at hcount
    refine h.update ?_ (fun _ _ => Iff.rfl) ?_ fun u hu => List.count_cons_of_ne (Ne.symm hu)
    · simp [Option.isNone_iff_eq_none.1 hn]
    · simpa using hcount
  | runlock l =>
    obtain ⟨hl, rfl⟩ := hrule
    obtain ⟨-, rfl⟩ := Prod.mk.inj (Option.some.inj ha)
    have hcount := h.readers l t
    have hwriter := h.writer l t
    rw [hl] at hcount hwriter
    refine h.update ?_ (fun _ _ => Iff.rfl) ?_ fun u hu => List.count_erase_of_ne hu
    · simpa using hwriter
    · simp [hcount]
  | claim l =>
    obtain ⟨hbelow, rfl⟩ := hrule
    simp only [Guarded.act] at ha
    split_ifs at ha with hn
    obtain ⟨-, rfl⟩ := Prod.mk.inj (Option.some.inj ha)
    have hcount := h.readers l t
    rw [hfree hbelow] at hcount
    refine h.update ?_ (fun u hu => ?_) hcount fun _ _ => rfl
    · simp
    · simp [Ne.symm hu, Option.isNone_iff_eq_none.1 hn]
  | enter l =>
    obtain ⟨hl, -, rfl⟩ := hrule
    simp only [Guarded.act] at ha
    split_ifs at ha with hn
    obtain ⟨-, rfl⟩ := Prod.mk.inj (Option.some.inj ha)
    have hwriter := h.writer l t
    rw [hl] at hwriter
    rw [← Function.update_eq_self l w.table]
    refine h.update ?_ (fun _ _ => Iff.rfl) ?_ fun _ _ => rfl
    · simpa using hwriter
    · simp [hn]
  | unlock l =>
    obtain ⟨hl, rfl⟩ := hrule
    obtain ⟨-, rfl⟩ := Prod.mk.inj (Option.some.inj ha)
    have hcount := h.readers l t
    have hwriter := (h.writer l t).2 (.inr hl)
    rw [hl] at hcount
    refine h.update ?_ (fun u hu => ?_) hcount fun _ _ => rfl
    · simp
    · simp [hwriter, Ne.symm hu]
  | body b =>
    obtain rfl := hrule
    obtain ⟨-, rfl⟩ := Prod.mk.inj (Option.some.inj ha)
    rwa [Function.update_eq_self]

structure Orderly (c : Config (locking S L) ι α (Guarded W L ι)) (n : ℕ) (holds : ι → L → Hold) :
    Prop where
  held : HeldBy c.world.table holds
  keeps : ∀ t, Keeps lockRule (fun _ h => h = fun _ => .free) n (holds t) (c.prog t)

variable {inputs : ι → ℕ → I} {c : Config (locking S L) ι α (Guarded W L ι)} {n : ℕ}
  {holds : ι → L → Hold}

lemma Orderly.step (h : Orderly c (n + 1) holds) (t : ι) :
    ∃ holds, Orderly (c.step (Guarded.act perform) inputs t) n holds := by
  rcases c.step_cases (Guarded.act perform) inputs t with ⟨hs, -⟩ | ⟨a, r, hm⟩
  · rw [hs]
    exact ⟨holds, h.held, fun u => (h.keeps u).le (Nat.le_succ n)⟩
  · obtain ⟨k, hk, hprog⟩ := hm.prog
    have ht := h.keeps t
    rw [hk] at ht
    obtain ⟨h', hrule, hrest⟩ := ht.next
    refine ⟨Function.update holds t h', h.held.acts hrule hm.acts, fun u => ?_⟩
    by_cases hu : u = t
    · subst hu
      rw [hprog, Function.update_self, Function.update_self]
      exact hrest r
    · rw [hm.prog_of_ne hu, Function.update_of_ne hu]
      exact (h.keeps u).le (Nat.le_succ n)

lemma Orderly.after (schedule : List ι) :
    ∀ {c : Config (locking S L) ι α (Guarded W L ι)} {n : ℕ} {holds : ι → L → Hold},
    Orderly c (n + schedule.length) holds →
    ∃ holds, Orderly (c.after (Guarded.act perform) inputs schedule) n holds := by
  induction schedule with
  | nil => exact fun h => ⟨_, h⟩
  | cons t ts ih =>
    intro c n holds h
    obtain ⟨holds', h'⟩ := Orderly.step (n := n + ts.length) h t
    exact ih h'

lemma Orderly.waits (h : Orderly c (n + 1) holds) {t : ι} (ht : c.result t = none)
    (hstuck : c.next (Guarded.act perform) inputs t = none) :
    ∃ l, (∀ m, holds t m ≠ .free → m = l ∨ m < l) ∧ ((holds t l = .free ∧ ∃ u, holds u l ≠ .free) ∨
        (holds t l = .claimed ∧ ∃ u, holds u l = .reading)) := by
  cases hp : c.prog t with
  | done b =>
    rw [Config.result_eq_some.2 hp] at ht
    cases ht
  | act a k =>
    have hk := h.keeps t
    rw [hp] at hk
    obtain ⟨h', hrule, -⟩ := hk.next
    have hwriter {l : L} (hn : ¬ (c.world.table l).writer.isNone = true) :
        ∃ u, holds u l ≠ .free := by
      obtain ⟨u, hu⟩ := Option.ne_none_iff_exists'.1 fun he => hn (Option.isNone_iff_eq_none.2 he)
      refine ⟨u, fun hf => ?_⟩
      rcases (h.held.writer l u).1 hu with hx | hx <;> cases hf.symm.trans hx
    simp only [Config.next, hp, ite_eq_right_iff, reduceCtorEq, imp_false,
      Bool.not_eq_true] at hstuck
    cases a with
    | rlock l =>
      obtain ⟨hbelow, -⟩ := hrule
      refine ⟨l, fun m hm => .inr (hbelow m hm),
        .inl ⟨by_contra fun hl => lt_irrefl l (hbelow l hl), hwriter ?_⟩⟩
      intro hn
      simp [Guarded.act, hn] at hstuck
    | claim l =>
      obtain ⟨hbelow, -⟩ := hrule
      refine ⟨l, fun m hm => .inr (hbelow m hm),
        .inl ⟨by_contra fun hl => lt_irrefl l (hbelow l hl), hwriter ?_⟩⟩
      intro hn
      simp [Guarded.act, hn] at hstuck
    | enter l =>
      obtain ⟨hl, hbelow, -⟩ := hrule
      refine ⟨l, hbelow, .inr ⟨hl, ?_⟩⟩
      obtain ⟨u, hu⟩ := List.exists_mem_of_ne_nil (c.world.table l).readers fun hn => by
        simp [Guarded.act, hn] at hstuck
      refine ⟨u, by_contra fun hf => ?_⟩
      have hcount := h.held.readers l u
      rw [if_neg hf, List.count_eq_zero] at hcount
      exact hcount hu
    | runlock l => simp [Guarded.act] at hstuck
    | unlock l => simp [Guarded.act] at hstuck
    | body b => simp [Guarded.act] at hstuck

lemma Orderly.unfinished (h : Orderly c (n + 1) holds) {t : ι} {l : L} (hl : holds t l ≠ .free) :
    c.result t = none := by
  cases hr : c.result t with
  | none => rfl
  | some b =>
    have hk := h.keeps t
    rw [Config.result_eq_some.1 hr] at hk
    exact absurd (congrFun hk.result l) hl

lemma Orderly.climbs (h : Orderly c (n + 1) holds)
    (hstuck : ∀ t, c.next (Guarded.act perform) inputs t = none) {t : ι}
    {l : L} (hl : holds t l ≠ .free) : ∃ u l', l < l' ∧ holds u l' ≠ .free := by
  have hhigher {t : ι} {l' : L} (hlt : l < l')
    (hwait : (holds t l' = .free ∧ ∃ u, holds u l' ≠ .free) ∨
      (holds t l' = .claimed ∧ ∃ u, holds u l' = .reading)) : ∃ u l', l < l' ∧
          holds u l' ≠ .free := by
    rcases hwait with ⟨-, u, hu⟩ | ⟨hx, -⟩
    · exact ⟨u, l', hlt, hu⟩
    · exact ⟨t, l', hlt, hx ▸ nofun⟩
  obtain ⟨l', hbelow, hwait⟩ := h.waits (h.unfinished hl) (hstuck t)
  rcases hbelow l hl with rfl | hlt
  · -- it has shut the others out and waits for a reader, who must wait for something else
    obtain ⟨hx, -⟩ | ⟨-, u, hu⟩ := hwait
    · exact absurd hx hl
    · have hul : holds u l ≠ .free := hu ▸ nofun
      obtain ⟨l', hbelow, hwait⟩ := h.waits (h.unfinished hul) (hstuck u)
      rcases hbelow l hul with rfl | hlt
      · obtain ⟨hx, -⟩ | ⟨hx, -⟩ := hwait <;> cases hx.symm.trans hu
      · exact hhigher hlt hwait
  · exact hhigher hlt hwait

lemma Orderly.progress [WellFoundedGT L] (h : Orderly c (n + 1) holds) {t : ι}
    (ht : c.result t = none) : ∃ u, (c.next (Guarded.act perform) inputs u).isSome := by
  by_contra hno
  have hstuck (u : ι) : c.next (Guarded.act perform) inputs u = none :=
    Option.not_isSome_iff_eq_none.1 fun hu => hno ⟨u, hu⟩
  have hnone (l : L) : ∀ u, holds u l = .free := by
    induction l using WellFoundedGT.induction with
    | ind l ih =>
      intro u
      by_contra hl
      obtain ⟨v, l', hlt, hv⟩ := h.climbs hstuck hl
      exact hv (ih l' hlt v)
  obtain ⟨l, -, ⟨-, u, hu⟩ | ⟨-, u, hu⟩⟩ := h.waits ht (hstuck t)
  · exact hu (hnone l u)
  · cases (hnone l u).symm.trans hu

lemma Orderly.released (h : Orderly c (n + 1) holds) {t : ι} {b : α}
    (ht : c.result t = some b) (l : L) :
    (c.world.table l).writer ≠ some t ∧ t ∉ (c.world.table l).readers := by
  have hk := h.keeps t
  rw [Config.result_eq_some.1 ht] at hk
  have hf := congrFun hk.result l
  refine ⟨fun hw => ?_, ?_⟩
  · rcases (h.held.writer l t).1 hw with hx | hx <;> cases hf.symm.trans hx
  · rw [← List.count_eq_zero, h.held.readers l t, hf]
    rfl

end Locks

end RedisClone.Lib
