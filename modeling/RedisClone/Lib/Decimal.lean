import Mathlib.Data.Nat.Digits.Defs
import Mathlib.Tactic

namespace RedisClone.Lib.Decimal

def byteOf (c : Char) : UInt8 := c.toNat.toUInt8

def formatNat (n : ℕ) : List UInt8 := (Nat.toDigits 10 n).map byteOf

def formatInt (z : ℤ) : List UInt8 :=
  if z < 0 then byteOf '-' :: formatNat z.natAbs else formatNat z.toNat

def digitVal (b : UInt8) : Option ℕ :=
  if byteOf '0' ≤ b ∧ b ≤ byteOf '9' then some (b.toNat - 48) else none

def parseDigits (acc : ℕ) : List UInt8 → Option ℕ
  | [] => some acc
  | b :: bs => (digitVal b).bind fun d => parseDigits (10 * acc + d) bs

def parseNat (bs : List UInt8) : Option ℕ :=
  if bs = [] then none else parseDigits 0 bs

def maxInt64 : ℤ := 9223372036854775807
def minInt64 : ℤ := -9223372036854775808

def inInt64 (z : ℤ) : Bool := decide (minInt64 ≤ z ∧ z ≤ maxInt64)

lemma inInt64_iff {z : ℤ} : inInt64 z = true ↔ minInt64 ≤ z ∧ z ≤ maxInt64 := by
  rw [inInt64, decide_eq_true_iff]

def parseSigned (neg : Bool) (rest : List UInt8) : Option ℤ :=
  (parseNat rest).bind fun n =>
    let z : ℤ := if neg then -n else n
    if inInt64 z then some z else none

def parseInt64 : List UInt8 → Option ℤ
  | [] => none
  | b :: rest =>
    if b = byteOf '-' then parseSigned true rest
    else if b = byteOf '+' then parseSigned false rest
    else parseSigned false (b :: rest)

@[simp] lemma formatInt_natCast (n : ℕ) : formatInt n = formatNat n := by
  rw [formatInt, if_neg (by omega), Int.toNat_natCast]

lemma formatNat_eq (n : ℕ) :
    formatNat n = if n < 10 then [byteOf n.digitChar]
      else formatNat (n / 10) ++ [byteOf (n % 10).digitChar] := by
  unfold formatNat
  rw [Nat.toDigits_eq_if (by omega)]
  split_ifs <;> simp

lemma formatNat_ne_nil (n : ℕ) : formatNat n ≠ [] := by
  simp [formatNat, Nat.toDigits_ne_nil]

lemma digitVal_digitChar {d : ℕ} (h : d < 10) : digitVal (byteOf d.digitChar) = some d := by
  interval_cases d <;> decide

lemma parseDigits_append (acc : ℕ) (xs ys : List UInt8) :
    parseDigits acc (xs ++ ys) = (parseDigits acc xs).bind fun a => parseDigits a ys := by
  induction xs generalizing acc with
  | nil => rfl
  | cons b bs ih =>
    simp only [List.cons_append, parseDigits]
    cases digitVal b with
    | none => rfl
    | some d => exact ih _

lemma parseDigits_formatNat (n : ℕ) : parseDigits 0 (formatNat n) = some n := by
  induction n using Nat.strong_induction_on with
  | h n ih =>
    rw [formatNat_eq]
    split_ifs with h
    · simp [parseDigits, digitVal_digitChar h]
    · have hd : n % 10 < 10 := Nat.mod_lt _ (by omega)
      rw [parseDigits_append, ih (n / 10) (by omega)]
      simp only [Option.bind_some, parseDigits, digitVal_digitChar hd, Option.some.injEq]
      omega

@[simp] lemma parseNat_formatNat (n : ℕ) : parseNat (formatNat n) = some n := by
  rw [parseNat, if_neg (formatNat_ne_nil n), parseDigits_formatNat]

lemma digit_of_mem_formatNat {n : ℕ} {b : UInt8} (h : b ∈ formatNat n) :
    byteOf '0' ≤ b ∧ b ≤ byteOf '9' := by
  induction n using Nat.strong_induction_on with
  | h n ih =>
    have hdigit : ∀ d < 10, byteOf '0' ≤ byteOf d.digitChar ∧ byteOf d.digitChar ≤ byteOf '9' := by
      intro d hd
      interval_cases d <;> decide
    rw [formatNat_eq] at h
    split_ifs at h with hn
    · simp only [List.mem_singleton] at h
      exact h ▸ hdigit n hn
    · rcases List.mem_append.mp h with hl | hl
      · exact ih (n / 10) (by omega) hl
      · simp only [List.mem_singleton] at hl
        exact hl ▸ hdigit _ (Nat.mod_lt _ (by omega))

lemma formatNat_length_le {n k : ℕ} (hk : 0 < k) (h : n < 10 ^ k) : (formatNat n).length ≤ k := by
  simpa [formatNat] using (Nat.length_toDigits_le_iff (by omega) hk).mpr h

lemma formatInt_length_le {z : ℤ} (h : inInt64 z = true) : (formatInt z).length ≤ 20 := by
  rw [inInt64_iff, minInt64, maxInt64] at h
  unfold formatInt
  split_ifs with hz
  · exact Nat.succ_le_succ (formatNat_length_le (by decide) (by omega))
  · exact (formatNat_length_le (k := 19) (by decide) (by omega)).trans (by decide)

lemma head_formatNat_not_sign (n : ℕ) :
    ∃ b bs, formatNat n = b :: bs ∧ b ≠ byteOf '-' ∧ b ≠ byteOf '+' := by
  obtain ⟨b, bs, hb⟩ := List.exists_cons_of_ne_nil (formatNat_ne_nil n)
  have hd := digit_of_mem_formatNat (n := n) (b := b) (by simp [hb])
  refine ⟨b, bs, hb, ?_, ?_⟩ <;>
  · rintro rfl
    revert hd
    decide

lemma parseInt64_formatInt (z : ℤ) :
    parseInt64 (formatInt z) = if inInt64 z then some z else none := by
  unfold formatInt
  by_cases hz : z < 0
  · have hn : (z.natAbs : ℤ) = -z := by omega
    simp [hz, parseInt64, parseSigned, hn]
  · obtain ⟨b, bs, hb, hm, hp⟩ := head_formatNat_not_sign z.toNat
    have hn : (z.toNat : ℤ) = z := by omega
    have hparse := parseNat_formatNat z.toNat
    rw [hb] at hparse
    simp [hz, hb, parseInt64, parseSigned, hm, hp, hparse, hn]

lemma parseInt64_formatNat {n : ℕ} (h : (n : ℤ) ≤ maxInt64) :
    parseInt64 (formatNat n) = some n := by
  have hr : inInt64 n = true := by
    rw [inInt64, decide_eq_true_iff, minInt64]
    exact ⟨by omega, h⟩
  simpa [hr] using parseInt64_formatInt n

lemma parseSigned_inInt64 {neg : Bool} {rest : List UInt8} {z : ℤ}
    (h : parseSigned neg rest = some z) : inInt64 z = true := by
  obtain ⟨n, -, hz⟩ := Option.bind_eq_some_iff.mp h
  dsimp only at hz
  generalize (if neg = true then -(n : ℤ) else n) = y at hz
  split_ifs at hz with hr
  exact Option.some.inj hz ▸ hr

lemma parseInt64_inInt64 {bs : List UInt8} {z : ℤ} (h : parseInt64 bs = some z) :
    inInt64 z = true := by
  cases bs with
  | nil => cases h
  | cons b rest =>
    simp only [parseInt64] at h
    split_ifs at h <;> exact parseSigned_inInt64 h

def parseInt : List UInt8 → Option ℤ
  | [] => none
  | b :: rest => if b = byteOf '-' then (parseNat rest).map fun n =>
      -(n : ℤ) else (parseNat (b :: rest)).map Nat.cast

lemma parseInt_formatInt (z : ℤ) : parseInt (formatInt z) = some z := by
  unfold formatInt
  by_cases hz : z < 0
  · have hn : (z.natAbs : ℤ) = -z := by omega
    simp [hz, parseInt, hn]
  · obtain ⟨b, bs, hb, hm, -⟩ := head_formatNat_not_sign z.toNat
    have hn : (z.toNat : ℤ) = z := by omega
    have hparse := parseNat_formatNat z.toNat
    rw [hb] at hparse
    simp [hz, hb, parseInt, hm, hparse, hn]

section Unbounded

def integer : List UInt8 → Option ℤ
  | [] => none
  | b :: rest =>
    if b = byteOf '-' then (parseNat rest).map fun n : ℕ => -(n : ℤ)
    else if b = byteOf '+' then (parseNat rest).map Nat.cast
    else (parseNat (b :: rest)).map Nat.cast

lemma parseSigned_eq (neg : Bool) (rest : List UInt8) :
    parseSigned neg rest =
    ((parseNat rest).map fun n : ℕ => if neg then -(n : ℤ) else n).filter inInt64 := by
  unfold parseSigned
  cases parseNat rest with
  | none => rfl
  | some n => exact (Option.filter_some ..).symm

lemma parseInt64_eq (bs : List UInt8) : parseInt64 bs = (integer bs).filter inInt64 := by
  cases bs with
  | nil => rfl
  | cons b rest =>
    simp only [parseInt64, integer]
    split_ifs
    · exact parseSigned_eq true rest
    · exact parseSigned_eq false rest
    · exact parseSigned_eq false (b :: rest)

end Unbounded

section Canonical

def Canonical (bs : List UInt8) : Prop :=
  (∀ b ∈ bs, byteOf '0' ≤ b ∧ b ≤ byteOf '9') ∧ (bs.head? = some (byteOf '0') → bs.length = 1)

instance (bs : List UInt8) : Decidable (Canonical bs) :=
  have : Decidable (∀ b ∈ bs, byteOf '0' ≤ b ∧ b ≤ byteOf '9') := List.decidableBAll _ bs
  inferInstanceAs (Decidable (_ ∧ _))

lemma digitVal_eq_some {b : UInt8} {d : ℕ} (h : digitVal b = some d) :
    byteOf '0' ≤ b ∧ b ≤ byteOf '9' ∧ d < 10 ∧ byteOf d.digitChar = b := by
  unfold digitVal at h
  split_ifs at h with hb
  obtain rfl := Option.some.inj h
  have hlo : 48 ≤ b.toNat := UInt8.le_iff_toNat_le.1 hb.1
  have hhi : b.toNat ≤ 57 := UInt8.le_iff_toNat_le.1 hb.2
  have hdigit : ∀ n, 48 ≤ n → n ≤ 57 → byteOf (n - 48).digitChar = UInt8.ofNat n := by
    intro n hlo hhi
    interval_cases n <;> decide
  refine ⟨hb.1, hb.2, by omega, ?_⟩
  rw [hdigit b.toNat hlo hhi, UInt8.ofNat_toNat]

lemma formatNat_push {n d : ℕ} (hn : 0 < n) (hd : d < 10) :
    formatNat (10 * n + d) = formatNat n ++ [byteOf d.digitChar] := by
  have hdiv : (10 * n + d) / 10 = n := by omega
  have hmod : (10 * n + d) % 10 = d := by omega
  rw [formatNat_eq, if_neg (by omega), hdiv, hmod]

lemma formatNat_parseDigits {bs : List UInt8} :
    ∀ {acc n : ℕ}, 0 < acc → parseDigits acc bs = some n → formatNat n = formatNat acc ++ bs := by
  induction bs with
  | nil =>
    intro acc n _ h
    rw [← Option.some.inj h, List.append_nil]
  | cons b bs ih =>
    intro acc n hacc h
    obtain ⟨d, hd, hrest⟩ := Option.bind_eq_some_iff.1 h
    obtain ⟨-, -, hlt, rfl⟩ := digitVal_eq_some hd
    rw [ih (by omega) hrest, formatNat_push hacc hlt, List.append_assoc, List.singleton_append]

lemma parseDigits_digits {bs : List UInt8} : ∀ {acc n : ℕ}, parseDigits acc bs = some n →
    ∀ b ∈ bs, byteOf '0' ≤ b ∧ b ≤ byteOf '9' := by
  induction bs with
  | nil => exact fun _ b hb => absurd hb List.not_mem_nil
  | cons b bs ih =>
    intro acc n h c hc
    obtain ⟨d, hd, h⟩ := Option.bind_eq_some_iff.1 h
    rcases List.mem_cons.1 hc with rfl | hc
    · obtain ⟨h₁, h₂, -⟩ := digitVal_eq_some hd
      exact ⟨h₁, h₂⟩
    · exact ih h c hc

lemma canonical_formatNat (n : ℕ) : Canonical (formatNat n) := by
  refine ⟨fun b hb => digit_of_mem_formatNat hb, ?_⟩
  induction n using Nat.strong_induction_on with
  | h n ih =>
    intro hz
    rw [formatNat_eq] at hz ⊢
    split_ifs at hz ⊢ with hn
    · rfl
    · -- a zero in front would have to come from the digits before the last
      have hfirst : (formatNat (n / 10)).head? = some (byteOf '0') := by
        obtain ⟨b, bs, hb⟩ := List.exists_cons_of_ne_nil (formatNat_ne_nil (n / 10))
        rw [hb] at hz ⊢
        exact hz
      have hlen := ih (n / 10) (by omega) hfirst
      obtain ⟨b, hb⟩ := List.length_eq_one_iff.1 hlen
      rw [hb] at hfirst
      obtain rfl := Option.some.inj hfirst
      have hzero : n / 10 = 0 := by
        have hparse := parseDigits_formatNat (n / 10)
        rw [hb] at hparse
        exact (Option.some.inj hparse).symm
      omega

lemma eq_formatNat_iff {bs : List UInt8} {n : ℕ} (h : parseInt64 bs = some (n : ℤ)) :
    bs = formatNat n ↔ Canonical bs := by
  refine ⟨fun he => he ▸ canonical_formatNat n, fun ⟨hdigits, hzero⟩ => ?_⟩
  cases bs with
  | nil => cases h
  | cons b bs =>
    have hb := hdigits b List.mem_cons_self
    have hsign : b ≠ byteOf '-' ∧ b ≠ byteOf '+' := by
      constructor <;>
      · rintro rfl
        revert hb
        decide
    rw [parseInt64, if_neg hsign.1, if_neg hsign.2] at h
    obtain ⟨m, hm, hn⟩ := Option.bind_eq_some_iff.1 h
    rw [parseNat, if_neg (List.cons_ne_nil _ _)] at hm
    dsimp only at hn
    rw [if_neg Bool.false_ne_true] at hn
    split_ifs at hn
    obtain rfl : m = n := by exact_mod_cast Option.some.inj hn
    obtain ⟨d, hd, hrest⟩ := Option.bind_eq_some_iff.1 hm
    obtain ⟨-, -, hlt, rfl⟩ := digitVal_eq_some hd
    by_cases hpos : 0 < d
    · rw [formatNat_parseDigits (by omega) hrest, Nat.mul_zero, Nat.zero_add,
        formatNat_eq d, if_pos hlt]
      rfl
    · obtain rfl : d = 0 := by omega
      have hnil : bs = [] := by
        have hlen := hzero rfl
        simpa using hlen
      subst hnil
      rw [← Option.some.inj hrest]
      decide

lemma parseNat_digits {bs : List UInt8} {n : ℕ} (h : parseNat bs = some n) :
    ∀ b ∈ bs, byteOf '0' ≤ b ∧ b ≤ byteOf '9' := by
  unfold parseNat at h
  split_ifs at h
  exact parseDigits_digits h

lemma mem_of_integer {bs : List UInt8} {z : ℤ} (h : integer bs = some z) {b : UInt8} (hb : b ∈ bs) :
    b = byteOf '-' ∨ b = byteOf '+' ∨ byteOf '0' ≤ b ∧ b ≤ byteOf '9' := by
  cases bs with
  | nil => cases h
  | cons c rest =>
    simp only [integer] at h
    split_ifs at h with hm hp
    · obtain ⟨n, hn, -⟩ := Option.map_eq_some_iff.1 h
      rcases List.mem_cons.1 hb with rfl | hb
      · exact .inl hm
      · exact .inr (.inr (parseNat_digits hn b hb))
    · obtain ⟨n, hn, -⟩ := Option.map_eq_some_iff.1 h
      rcases List.mem_cons.1 hb with rfl | hb
      · exact .inr (.inl hp)
      · exact .inr (.inr (parseNat_digits hn b hb))
    · obtain ⟨n, hn, -⟩ := Option.map_eq_some_iff.1 h
      exact .inr (.inr (parseNat_digits hn b hb))

lemma integer_of_parseInt64 {bs : List UInt8} {z : ℤ} (h : parseInt64 bs = some z) :
    integer bs = some z := by
  rw [parseInt64_eq] at h
  exact (Option.filter_eq_some_iff.1 h).1

lemma mem_of_parseInt64 {bs : List UInt8} {z : ℤ} (h : parseInt64 bs = some z) {b : UInt8}
    (hb : b ∈ bs) : b = byteOf '-' ∨ b = byteOf '+' ∨ byteOf '0' ≤ b ∧ b ≤ byteOf '9' :=
      mem_of_integer (integer_of_parseInt64 h) hb

lemma formatNat_suffix_digits {bs : List UInt8} {n : ℕ} (h : parseNat bs = some n) :
    formatNat n <:+ bs := by
  induction bs with
  | nil => cases h
  | cons b bs ih =>
    rw [parseNat, if_neg (List.cons_ne_nil _ _)] at h
    obtain ⟨d, hd, hrest⟩ := Option.bind_eq_some_iff.1 h
    obtain ⟨-, -, hlt, rfl⟩ := digitVal_eq_some hd
    rw [Nat.mul_zero, Nat.zero_add] at hrest
    by_cases hpos : 0 < d
    · rw [formatNat_parseDigits hpos hrest, formatNat_eq d, if_pos hlt]
      exact List.suffix_refl _
    · obtain rfl : d = 0 := by omega
      by_cases hnil : bs = []
      · subst hnil
        rw [← Option.some.inj hrest]
        exact List.suffix_refl _
      · exact (ih ((if_neg hnil).trans hrest)).trans (List.suffix_cons _ _)

lemma formatNat_suffix {bs : List UInt8} {n : ℕ} (h : parseInt64 bs = some (n : ℤ)) :
    formatNat n <:+ bs := by
  have hvalue {neg : Bool} {rest : List UInt8} (h : parseSigned neg rest = some (n : ℤ)) :
      parseNat rest = some n := by
    obtain ⟨m, hm, hn⟩ := Option.bind_eq_some_iff.1 h
    dsimp only at hn
    split_ifs at hn
    · have hz := Option.some.inj hn
      rw [hm, show m = n by omega]
    · have hz := Option.some.inj hn
      rw [hm, show m = n by omega]
  cases bs with
  | nil => cases h
  | cons b rest =>
    simp only [parseInt64] at h
    split_ifs at h
    · exact (formatNat_suffix_digits (hvalue h)).trans (List.suffix_cons _ _)
    · exact (formatNat_suffix_digits (hvalue h)).trans (List.suffix_cons _ _)
    · exact formatNat_suffix_digits (hvalue h)

end Canonical

end RedisClone.Lib.Decimal
