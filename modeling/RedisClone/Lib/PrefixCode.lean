import Mathlib.Tactic

namespace RedisClone.Lib.PrefixCode

variable {B : Type} [DecidableEq B]

structure PrefixFree (codes : List (List B)) : Prop where
  nonempty : ∀ c ∈ codes, c ≠ []
  unique : ∀ c ∈ codes, ∀ c' ∈ codes, c <+: c' → c = c'

def strip (codes : List (List B)) : ℕ → List B → List B
  | 0, s => s
  | n + 1, s =>
    match codes.find? fun c => c.isPrefixOf s with
    | none => s
    | some c => strip codes n (s.drop c.length)

def Spelled (codes : List (List B)) (s : List B) : Prop :=
  ∃ words : List (List B), (∀ w ∈ words, w ∈ codes) ∧ words.flatten = s

def Bare (codes : List (List B)) (s : List B) : Prop := ∀ c ∈ codes, ¬c <+: s

variable {codes : List (List B)}

omit [DecidableEq B] in
lemma Spelled.nil : Spelled codes [] := ⟨[], fun _ h => absurd h List.not_mem_nil, rfl⟩

omit [DecidableEq B] in
lemma Spelled.cons {w s : List B} (hw : w ∈ codes) (hs : Spelled codes s) :
    Spelled codes (w ++ s) := by
  obtain ⟨words, hwords, rfl⟩ := hs
  exact ⟨w :: words, List.forall_mem_cons.2 ⟨hw, hwords⟩, rfl⟩

lemma find_eq_none {s : List B} : (codes.find? fun c => c.isPrefixOf s) = none ↔ Bare codes s := by
  simp only [List.find?_eq_none, List.isPrefixOf_iff_prefix, Bare]

lemma find_eq_some {s c : List B} (h : (codes.find? fun c => c.isPrefixOf s) = some c) :
    c ∈ codes ∧ c <+: s :=
  ⟨List.mem_of_find?_eq_some h, List.isPrefixOf_iff_prefix.1
    (List.find?_some (p := fun c : List B => c.isPrefixOf s) h)⟩

lemma find_append (hc : PrefixFree codes) {w : List B} (hw : w ∈ codes) (s : List B) :
    (codes.find? fun c => c.isPrefixOf (w ++ s)) = some w := by
  cases hf : codes.find? fun c => c.isPrefixOf (w ++ s) with
  | none => exact absurd (List.prefix_append w s) (find_eq_none.1 hf w hw)
  | some c =>
    obtain ⟨hmem, hpre⟩ := find_eq_some hf
    rcases List.prefix_or_prefix_of_prefix hpre (List.prefix_append w s) with h | h
    · rw [hc.unique c hmem w hw h]
    · rw [hc.unique w hw c hmem h]

variable (codes) in
lemma strip_spelled (n : ℕ) :
    ∀ s : List B, ∃ front, Spelled codes front ∧ s = front ++ strip codes n s := by
  induction n with
  | zero => exact fun s => ⟨[], .nil, rfl⟩
  | succ n ih =>
    intro s
    simp only [strip]
    cases hf : codes.find? fun c => c.isPrefixOf s with
    | none => exact ⟨[], .nil, rfl⟩
    | some c =>
      obtain ⟨hmem, t, rfl⟩ := find_eq_some hf
      obtain ⟨front, hfront, ht⟩ := ih t
      refine ⟨c ++ front, hfront.cons hmem, ?_⟩
      simp only [List.drop_left, List.append_assoc, ← ht]

lemma strip_bare (hc : PrefixFree codes) (n : ℕ) :
    ∀ s : List B, s.length ≤ n → Bare codes (strip codes n s) := by
  induction n with
  | zero =>
    intro s hs c hmem hpre
    rw [List.length_eq_zero_iff.1 (Nat.le_zero.1 hs)] at hpre
    exact hc.nonempty c hmem (List.prefix_nil.1 hpre)
  | succ n ih =>
    intro s hs
    simp only [strip]
    cases hf : codes.find? fun c => c.isPrefixOf s with
    | none => exact find_eq_none.1 hf
    | some c =>
      have hlen := List.length_pos_of_ne_nil (hc.nonempty c (find_eq_some hf).1)
      refine ih _ ?_
      rw [List.length_drop]
      omega

lemma strip_append (hc : PrefixFree codes) {rest : List B} (hrest : Bare codes rest)
    {front : List B} (hf : Spelled codes front) {n : ℕ} (hn : front.length ≤ n) :
    strip codes n (front ++ rest) = rest := by
  obtain ⟨words, hwords, rfl⟩ := hf
  induction words generalizing n with
  | nil =>
    cases n with
    | zero => rfl
    | succ n =>
      simp only [strip, List.flatten_nil, List.nil_append]
      rw [find_eq_none.2 hrest]
  | cons w words ih =>
    have hw := hwords w List.mem_cons_self
    have hlen := List.length_pos_of_ne_nil (hc.nonempty w hw)
    rw [List.flatten_cons, List.length_append] at hn
    obtain ⟨m, rfl⟩ : ∃ m, n = m + 1 := ⟨n - 1, by omega⟩
    simp only [strip, List.flatten_cons, List.append_assoc]
    rw [find_append hc hw]
    dsimp only
    rw [List.drop_left]
    exact ih (fun w' hw' => hwords w' (List.mem_cons_of_mem _ hw')) (by omega)

end RedisClone.Lib.PrefixCode
