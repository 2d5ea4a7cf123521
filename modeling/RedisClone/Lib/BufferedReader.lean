import RedisClone.Lib.Program

/-! A buffered reader in front of a source that hands out its bytes piece by piece. What a program
reads this way is set against a function of all the bytes: the program asks for more only as long as
those it has do not settle the answer. -/

namespace RedisClone.Lib

open Program

/-- The one action is a read with room for so many bytes. It answers with some of them, or with none
at the end. -/
@[reducible] def Source (B : Type) : Signature := ⟨ℕ, fun _ => List B⟩

namespace BufferedReader

variable {B α β : Type}

abbrev Reading (B α : Type) := Program (Source B) α

def read (room : ℕ) : Reading B (List B) := Program.call (S := Source B) room

structure Feed (B : Type) where
  src : List B
  ended : Bool

def Feed.next (h : Feed B) (_ : ℕ) (r : List B) : Feed B := ⟨h.src ++ r, r.isEmpty⟩

/-- From the bytes `src` on the program computes `f` of the bytes, and reads while the answer is one
that is `short` of bytes; it is left with such an answer at the end of the source. -/
def Parses (short : α → Prop) (f : List B → α) (src : List B) (p : Reading B α) : Prop :=
  Follows (S := Source B) (fun _ _ => True)
    (fun h room => h.ended = false ∧ short (f h.src) ∧ 0 < room) Feed.next
    (fun h b => b = f h.src ∧ (short b ↔ h.ended = true)) ⟨src, false⟩ p

section Parses

variable {short : α → Prop} {short' : β → Prop} {f : List B → β} {g : List B → α} {src : List B}

lemma Parses.done {b : β} (hb : f src = b) (h : ¬ short' b) : Parses short' f src (.done b) :=
  Follows.done ⟨hb.symm, iff_of_false h Bool.false_ne_true⟩

lemma Parses.read {room : ℕ} (hroom : 0 < room) {k : List B → Reading B β} (hshort : short' (f src))
    (hend : k [] = .done (f src)) (hk : ∀ r, r ≠ [] → Parses short' f (src ++ r) (k r)) :
    Parses short' f src (BufferedReader.read room >>= k) := by
  rw [BufferedReader.read, call_bind]
  refine Follows.act (S := Source B) (a := room) ⟨rfl, hshort, hroom⟩ fun r _ => ?_
  rw [show Feed.next ⟨src, false⟩ room r = ⟨src ++ r, r.isEmpty⟩ from rfl]
  cases r with
  | nil =>
    rw [hend, List.append_nil]
    exact .done ⟨rfl, iff_of_true hshort rfl⟩
  | cons b r => exact hk (b :: r) (List.cons_ne_nil b r)

lemma Parses.bind {p : Reading B α} {k : α → Reading B β} (hp : Parses short g src p)
    (hshort : ∀ s, short (g s) → short' (f s) ∧ k (g s) = .done (f s))
    (hk : ∀ s, ¬ short (g s) → Parses short' f s (k (g s))) : Parses short' f src (p >>= k) := by
  have hasks : Follows (S := Source B) (fun _ _ => True)
    (fun h room => h.ended = false ∧ short' (f h.src) ∧ 0 < room) Feed.next
      (fun h b => b = g h.src ∧ (short b ↔ h.ended = true)) ⟨src, false⟩ p := by
    refine hp.transport (R := Eq) ?_ (fun h h' a r he _ => he ▸ rfl)
      (fun h h' b he hb => he ▸ hb) rfl
    rintro h _ room rfl ⟨hopen, hs, hroom⟩
    exact ⟨hopen, (hshort _ hs).1, hroom⟩
  refine hasks.bind fun h b hb => ?_
  obtain ⟨rfl, hend⟩ := hb
  by_cases hs : short (g h.src)
  · rw [(hshort _ hs).2]
    exact .done ⟨rfl, iff_of_true (hshort _ hs).1 (hend.1 hs)⟩
  · obtain ⟨s, ended⟩ := h
    obtain rfl : ended = false := Bool.eq_false_iff.2 fun he => hs (hend.2 he)
    exact hk s hs

lemma Parses.resume {rest : List B} {φ : α → β} (hf : ∀ x, f (src ++ x) = φ (g (rest ++ x)))
    (hφ : ∀ a, short' (φ a) ↔ short a) {p : Reading B α} (hp : Parses short g rest p) :
    Parses short' f src (φ <$> p) := by
  refine Follows.map φ (hp.transport (R := fun h h' => ∃ x, h.src = rest ++ x ∧ h'.src = src ++ x ∧
      h'.ended = h.ended) ?_ ?_ ?_
    ⟨[], (List.append_nil _).symm, (List.append_nil _).symm, rfl⟩)
  · rintro h h' room ⟨x, hx, hx', he⟩ ⟨hopen, hs, hroom⟩
    refine ⟨he.trans hopen, ?_, hroom⟩
    rw [hx', hf, hφ, ← hx]
    exact hs
  · rintro h h' room r ⟨x, hx, hx', -⟩ -
    exact ⟨x ++ r, by rw [Feed.next, hx, List.append_assoc], by
      rw [Feed.next, hx', List.append_assoc], rfl⟩
  · rintro h h' b ⟨x, hx, hx', he⟩ ⟨rfl, hend⟩
    rw [hx', hf, ← hx, hφ, he]
    exact ⟨rfl, hend⟩

end Parses

section Slice

variable [DecidableEq B] (size : ℕ) (delim : B)

inductive Slice (B : Type)
  | line (l rest : List B)
  | full
  | short (l : List B)

def Slice.Short : Slice B → Prop
  | .short _ => True
  | _ => False

def Slice.more (x : List B) : Slice B → Slice B
  | .line l rest => .line l (rest ++ x)
  | s => s

def slice (src : List B) : Slice B :=
  let l := src.takeWhile (· != delim)
  if l.length < min src.length size then .line (l ++ [delim]) (src.drop (l.length + 1))
  else if size ≤ src.length then .full
  else .short src

/-- `ReadSlice`: while there is neither a delimiter nor a full buffer, the buffer is filled up.
Every fill brings a byte, so there are no more of them than the buffer has room for. -/
def readSlice : ℕ → List B → Reading B (Slice B)
  | fills, buf =>
    match slice size delim buf with
    | .short _ =>
      match fills with
      | 0 => return .full
      | fills + 1 => do
        let r ← read (size - buf.length)
        if r = [] then return .short buf else readSlice fills (buf ++ r)
    | s => return s

variable {size delim} {src : List B}

lemma slice_eq_short {l : List B} (h : slice size delim src = .short l) :
    l = src ∧ src.length < size := by
  simp only [slice] at h
  split_ifs at h with h₁ h₂
  exact ⟨(Slice.short.inj h).symm, not_le.1 h₂⟩

lemma slice_append (h : ¬ (slice size delim src).Short) (x : List B) :
    slice size delim (src ++ x) = (slice size delim src).more x := by
  have hline :
    (src ++ x).takeWhile (· != delim) = if (src.takeWhile (· != delim)).length = src.length
      then src ++ x.takeWhile (· != delim) else src.takeWhile (· != delim) := List.takeWhile_append
  have hlong : (src ++ x).length = src.length + x.length := List.length_append
  simp only [slice] at h ⊢
  by_cases hfound : (src.takeWhile (· != delim)).length < min src.length size
  · rw [if_neg (by omega)] at hline
    rw [hline, if_pos (by omega), if_pos hfound, List.drop_append_of_le_length (by omega)]
    rfl
  · rw [if_neg hfound] at h ⊢
    by_cases hfull : size ≤ src.length
    · have hlate : size ≤ ((src ++ x).takeWhile (· != delim)).length := by
        rw [hline]
        split_ifs
        · rw [List.length_append]
          omega
        · omega
      rw [if_neg (by omega), if_pos (by omega), if_pos hfull]
      rfl
    · rw [if_neg hfull] at h
      exact absurd trivial h

lemma parses_readSlice (fills : ℕ) : ∀ {buf : List B}, size ≤ fills + buf.length →
    Parses Slice.Short (slice size delim) buf (readSlice size delim fills buf) := by
  induction fills with
  | zero =>
    intro buf hroom
    unfold readSlice
    cases hs : slice size delim buf with
    | short l => exact absurd (slice_eq_short hs).2 (by omega)
    | _ => exact Parses.done hs id
  | succ fills ih =>
    intro buf hroom
    unfold readSlice
    cases hs : slice size delim buf with
    | short l =>
      obtain ⟨rfl, hlt⟩ := slice_eq_short hs
      refine Parses.read (Nat.sub_pos_of_lt hlt) (by rw [hs]; exact trivial)
        (by rw [hs]; rfl) fun r hr => ?_
      have hpos := List.length_pos_iff.2 hr
      rw [if_neg hr]
      exact ih (by rw [List.length_append]; omega)
    | _ => exact Parses.done hs id

end Slice

section Full

variable (size : ℕ)

/-- `io.ReadFull` on the buffered reader: the bytes there are, and then, as often as it takes, a
read that fills the buffer, or passes it by when there is more to come than fits into it. -/
def readFull : ℕ → ℕ → List B → List B → Reading B (Option (List B × List B))
  | reads, n, got, buf =>
    if n ≤ buf.length then return some (got ++ buf.take n, buf.drop n)
    else
      match reads with
      | 0 => return none
      | reads + 1 => do
        let r ← read (max size (n - buf.length))
        if r = [] then return none else readFull reads (n - buf.length) (got ++ buf) r

def full (n : ℕ) (src : List B) : Option (List B × List B) :=
  if n ≤ src.length then some (src.take n, src.drop n) else none

lemma full_append {n : ℕ} {got buf : List B} (h : n ≤ buf.length) :
    full (got.length + n) (got ++ buf) = some (got ++ buf.take n, buf.drop n) := by
  rw [full, if_pos (by rw [List.length_append]; omega), List.take_length_add_append,
    List.drop_length_add_append]

lemma parses_readFull (reads : ℕ) : ∀ (n : ℕ) (got buf : List B), n ≤ reads + buf.length →
    Parses (· = none) (full (got.length + n)) (got ++ buf) (readFull size reads n got buf) := by
  induction reads with
  | zero =>
    intro n got buf hn
    have hle : n ≤ buf.length := by omega
    unfold readFull
    rw [if_pos hle]
    exact Parses.done (full_append hle) (Option.some_ne_none _)
  | succ reads ih =>
    intro n got buf hn
    unfold readFull
    by_cases hle : n ≤ buf.length
    · rw [if_pos hle]
      exact Parses.done (full_append hle) (Option.some_ne_none _)
    · have hnone : full (got.length + n) (got ++ buf) = none :=
        if_neg (by rw [List.length_append]; omega)
      have hn' : got.length + n = (got ++ buf).length + (n - buf.length) := by
        rw [List.length_append]
        omega
      rw [if_neg hle]
      refine Parses.read (by omega) hnone (by rw [hnone]; rfl) fun r hr => ?_
      have hpos := List.length_pos_iff.2 hr
      rw [if_neg hr, hn']
      exact ih _ _ _ (by omega)

end Full

end BufferedReader

end RedisClone.Lib
