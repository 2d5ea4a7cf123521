import RedisClone.Basic
import RedisClone.Lib.PrefixCode

namespace RedisClone.Store

open Lib.Decimal Lib.PrefixCode

def spaceCodes : List Bytes :=
  [[0x09], [0x0a], [0x0b], [0x0c], [0x0d], [0x20], [0xc2, 0x85], [0xc2, 0xa0], [0xe1, 0x9a, 0x80],
    [0xe2, 0x80, 0x80], [0xe2, 0x80, 0x81], [0xe2, 0x80, 0x82], [0xe2, 0x80, 0x83],
      [0xe2, 0x80, 0x84], [0xe2, 0x80, 0x85],
    [0xe2, 0x80, 0x86], [0xe2, 0x80, 0x87], [0xe2, 0x80, 0x88], [0xe2, 0x80, 0x89],
      [0xe2, 0x80, 0x8a], [0xe2, 0x80, 0xa8],
    [0xe2, 0x80, 0xa9], [0xe2, 0x80, 0xaf], [0xe2, 0x81, 0x9f], [0xe3, 0x80, 0x80]]

def spaceCodesBack : List Bytes := spaceCodes.map List.reverse

def trimLeft (s : Bytes) : Bytes := strip spaceCodes s.length s

def trimRight (s : Bytes) : Bytes := (strip spaceCodesBack s.length s.reverse).reverse

def trimSpace (s : Bytes) : Bytes := trimRight (trimLeft s)

structure Trimmed (s : Bytes) : Prop where
  front : Bare spaceCodes s
  back : Bare spaceCodesBack s.reverse

/-- `strings.ToLower`. It goes rune by rune, so that white space neither comes nor goes. -/
structure LowerCasing where
  toLower : Bytes → Bytes
  toLower_ascii : ∀ s, (∀ b ∈ s, b ≤ 127) → toLower s = s.map lowerByte
  trimmed : ∀ s, Trimmed s → Trimmed (toLower s)

def memorySuffixes : List (Bytes × ℤ) :=
  [(ascii "kb", 2 ^ 10), (ascii "mb", 2 ^ 20), (ascii "gb", 2 ^ 30),
    (ascii "k", 2 ^ 10), (ascii "m", 2 ^ 20), (ascii "g", 2 ^ 30), (ascii "b", 1)]

def cutSuffix (t : Bytes) : Bytes × ℤ :=
  match memorySuffixes.find? fun suffix => suffix.1.isSuffixOf t with
  | none => (t, 1)
  | some suffix => (trimSpace (t.take (t.length - suffix.1.length)), suffix.2)

section ParseMemory

variable (L : LowerCasing) (quote : Bytes → Bytes)

def parseMemory (s : Bytes) : Except Bytes ℤ :=
  let (t, mult) := cutSuffix (L.toLower (trimSpace s))
  match parseInt64 t with
  | none => .error (ascii "invalid memory size " ++ quote s)
  | some n =>
    if n < 0 then .error (ascii "invalid memory size " ++ quote s ++ ascii ": negative")
    else .ok (wrap64 (n * mult))

end ParseMemory

inductive Spells (t : Bytes) : ℤ → ℤ → Prop
  | plain {n : ℤ} (hn : integer t = some n) : Spells t n 1
  | suffixed {n mult : ℤ} {digits spaces suffix : Bytes} (hn : integer digits = some n)
      (hspaces : Spelled spaceCodes spaces) (hsuffix : (suffix, mult) ∈ memorySuffixes)
        (ht : t = digits ++ spaces ++ suffix) : Spells t n mult

section White

lemma prefixFree_spaceCodes : PrefixFree spaceCodes := ⟨by decide, by decide⟩

lemma prefixFree_spaceCodesBack : PrefixFree spaceCodesBack := ⟨by decide, by decide⟩

lemma spelled_reverse {s : Bytes} (h : Spelled spaceCodes s) :
    Spelled spaceCodesBack s.reverse := by
  obtain ⟨words, hwords, rfl⟩ := h
  refine ⟨(words.map List.reverse).reverse, fun w hw => ?_, List.reverse_flatten.symm⟩
  obtain ⟨w', hw', rfl⟩ := List.mem_map.1 (List.mem_reverse.1 hw)
  exact List.mem_map_of_mem (hwords w' hw')

lemma spelled_of_back {s : Bytes} (h : Spelled spaceCodesBack s) :
    Spelled spaceCodes s.reverse := by
  obtain ⟨words, hwords, rfl⟩ := h
  refine ⟨(words.map List.reverse).reverse, fun w hw => ?_, List.reverse_flatten.symm⟩
  obtain ⟨w', hw', rfl⟩ := List.mem_map.1 (List.mem_reverse.1 hw)
  obtain ⟨c, hc, rfl⟩ := List.mem_map.1 (hwords w' hw')
  rwa [List.reverse_reverse]

lemma trimSpace_spelled (s : Bytes) :
    ∃ front back, Spelled spaceCodes front ∧ Spelled spaceCodes back ∧
    s = front ++ trimSpace s ++ back := by
  obtain ⟨front, hfront, hl⟩ := strip_spelled spaceCodes s.length s
  obtain ⟨back, hback, hr⟩ := strip_spelled spaceCodesBack (trimLeft s).length (trimLeft s).reverse
  refine ⟨front, back.reverse, hfront, spelled_of_back hback, ?_⟩
  have hright := congrArg List.reverse hr
  rw [List.reverse_reverse, List.reverse_append] at hright
  rw [List.append_assoc, show trimSpace s ++ back.reverse = trimLeft s from hright.symm]
  exact hl

lemma trimSpace_trimmed (s : Bytes) : Trimmed (trimSpace s) := by
  have hback : Bare spaceCodesBack (trimSpace s).reverse := by
    rw [trimSpace, trimRight, List.reverse_reverse]
    exact strip_bare prefixFree_spaceCodesBack _ _ (List.length_reverse ..).le
  refine ⟨fun c hc hpre => ?_, hback⟩
  -- what stands in front of the result stands in front of what it was cut from
  obtain ⟨back, -, hr⟩ := strip_spelled spaceCodesBack (trimLeft s).length (trimLeft s).reverse
  have hleft : trimSpace s <+: trimLeft s := by
    refine ⟨back.reverse, ?_⟩
    have hright := congrArg List.reverse hr
    rw [List.reverse_reverse, List.reverse_append] at hright
    exact hright.symm
  exact strip_bare prefixFree_spaceCodes _ s le_rfl c hc (hpre.trans hleft)

end White

section Numerals

def numeric (b : UInt8) : Bool :=
  decide (b = byteOf '-' ∨ b = byteOf '+' ∨ byteOf '0' ≤ b ∧ b ≤ byteOf '9')

variable {t digits spaces suffix : Bytes} {n mult : ℤ}

lemma numeral_ne_nil (h : integer digits = some n) : digits ≠ [] := by
  rintro rfl
  cases h

lemma numeric_of_mem (h : integer digits = some n) {b : UInt8} (hb : b ∈ digits) :
    numeric b = true :=
  decide_eq_true (mem_of_integer h hb)

lemma bare_of_numeric {codes : List Bytes}
    (hc : ∀ c ∈ codes, c.head?.any (fun b => !numeric b) = true) {b : UInt8}
    (hb : numeric b = true) (s : Bytes) : Bare codes (b :: s) := by
  rintro c hmem ⟨rest, hrest⟩
  have hfirst := hc c hmem
  cases c with
  | nil => exact absurd hfirst Bool.false_ne_true
  | cons b' c =>
    obtain ⟨rfl, -⟩ := List.cons.inj hrest
    rw [List.head?_cons, Option.any_some, hb] at hfirst
    exact absurd hfirst Bool.false_ne_true

lemma trimSpace_numeral (h : integer digits = some n) (hs : Spelled spaceCodes spaces) :
    trimSpace (digits ++ spaces) = digits := by
  have hleft : trimLeft (digits ++ spaces) = digits ++ spaces := by
    obtain ⟨b, rest, hd⟩ := List.exists_cons_of_ne_nil (numeral_ne_nil h)
    have hb := numeric_of_mem h (hd ▸ List.mem_cons_self)
    have hbare : Bare spaceCodes (digits ++ spaces) := by
      rw [hd]
      exact bare_of_numeric (by decide) hb _
    exact strip_append prefixFree_spaceCodes hbare .nil (Nat.zero_le _)
  have hbare : Bare spaceCodesBack digits.reverse := by
    obtain ⟨b, rest, hd⟩ :=
      List.exists_cons_of_ne_nil (List.reverse_ne_nil_iff.2 (numeral_ne_nil h))
    have hb := numeric_of_mem h (List.mem_reverse.1 (hd ▸ List.mem_cons_self))
    rw [hd]
    exact bare_of_numeric (by decide) hb _
  rw [trimSpace, hleft, trimRight, List.reverse_append, strip_append prefixFree_spaceCodesBack hbare
    (spelled_reverse hs), List.reverse_reverse]
  simp only [List.length_reverse, List.length_append, Nat.le_add_left]

lemma cutSuffix_plain (h : integer t = some n) : cutSuffix t = (t, 1) := by
  have hnone : (memorySuffixes.find? fun suffix => suffix.1.isSuffixOf t) = none := by
    refine List.find?_eq_none.2 fun x hx hsuf => ?_
    have hword : x.1.head?.any (fun b => !numeric b) = true :=
      (by decide : ∀ x ∈ memorySuffixes, x.1.head?.any (fun b => !numeric b) = true) x hx
    obtain ⟨b, hb, hnum⟩ := (Option.any_eq_true _ _).1 hword
    have hmem := (List.isSuffixOf_iff_suffix.1 hsuf).subset (List.mem_of_mem_head? hb)
    rw [numeric_of_mem h hmem] at hnum
    exact absurd hnum Bool.false_ne_true
  rw [cutSuffix, hnone]

lemma last_before_suffix (h : integer digits = some n) (hs : Spelled spaceCodes spaces) :
    ∃ u b, digits ++ spaces = u ++ [b] ∧ b ≠ byteOf 'k' ∧ b ≠ byteOf 'm' ∧ b ≠ byteOf 'g' := by
  obtain ⟨words, hwords, rfl⟩ := hs
  rcases List.eq_nil_or_concat words with rfl | ⟨words, w, rfl⟩
  · obtain ⟨u, b, hd⟩ := List.eq_nil_or_concat digits |>.resolve_left (numeral_ne_nil h)
    have hb := numeric_of_mem h (show b ∈ digits by simp [hd])
    refine ⟨u, b, by simp [hd], ?_, ?_, ?_⟩ <;>
    · rintro rfl
      exact absurd hb (by decide)
  · have hw := hwords w (by simp)
    have hlast : ∀ w ∈ spaceCodes, w.getLast?.any
        (fun b => decide (b ≠ byteOf 'k' ∧ b ≠ byteOf 'm' ∧ b ≠ byteOf 'g')) = true := by
      decide
    obtain ⟨b, hb, hne⟩ := (Option.any_eq_true _ _).1 (hlast w hw)
    obtain ⟨u, rfl⟩ := List.getLast?_eq_some_iff.1 hb
    exact ⟨digits ++ words.flatten ++ u, b, by simp, of_decide_eq_true hne⟩

lemma cutSuffix_suffixed (h : integer digits = some n) (hs : Spelled spaceCodes spaces)
    (hsuffix : (suffix, mult) ∈ memorySuffixes) :
    cutSuffix (digits ++ spaces ++ suffix) = (digits, mult) := by
  have hfind : (memorySuffixes.find? fun x => x.1.isSuffixOf (digits ++ spaces ++ suffix)) =
      some (suffix, mult) := by
    obtain ⟨u, b, hu, hk, hm, hg⟩ := last_before_suffix h hs
    rw [hu]
    simp only [memorySuffixes, List.mem_cons, List.not_mem_nil, or_false, Prod.mk.injEq] at hsuffix
    have hbytes : (ascii "kb" = [byteOf 'k', byteOf 'b'] ∧ ascii "mb" = [byteOf 'm', byteOf 'b'] ∧
      ascii "gb" = [byteOf 'g', byteOf 'b']) ∧
        ascii "k" = [byteOf 'k'] ∧ ascii "m" = [byteOf 'm'] ∧ ascii "g" = [byteOf 'g'] ∧
          ascii "b" = [byteOf 'b'] := by decide
    have hdistinct : byteOf 'k' ≠ byteOf 'm' ∧ byteOf 'k' ≠ byteOf 'g' ∧ byteOf 'k' ≠ byteOf 'b' ∧
      byteOf 'm' ≠ byteOf 'g' ∧ byteOf 'm' ≠ byteOf 'b' ∧ byteOf 'g' ≠ byteOf 'b' := by decide
    obtain ⟨⟨hkb, hmb, hgb⟩, hk', hm', hg', hb'⟩ := hbytes
    rcases hsuffix with ⟨rfl, rfl⟩ | ⟨rfl, rfl⟩ | ⟨rfl, rfl⟩ | ⟨rfl, rfl⟩ | ⟨rfl, rfl⟩ | ⟨rfl,
      rfl⟩ | ⟨rfl, rfl⟩ <;>
      simp [memorySuffixes, List.isSuffixOf, hkb, hmb, hgb, hk', hm', hg', hb', hdistinct, hk.symm,
        hm.symm, hg.symm]
  rw [cutSuffix, hfind]
  simp only [List.length_append, Nat.add_sub_cancel, List.take_left']
  rw [trimSpace_numeral h hs]

lemma spells_of_cutSuffix (ht : Trimmed t) (h : integer (cutSuffix t).1 = some n) :
    Spells t n (cutSuffix t).2 := by
  unfold cutSuffix at h ⊢
  cases hf : memorySuffixes.find? fun suffix => suffix.1.isSuffixOf t with
  | none =>
    rw [hf] at h
    exact .plain h
  | some x =>
    rw [hf] at h
    obtain ⟨u, rfl⟩ : x.1 <:+ t :=
      List.isSuffixOf_iff_suffix.1 (List.find?_some (p := fun x : Bytes × ℤ => x.1.isSuffixOf t) hf)
    simp only [List.length_append, Nat.add_sub_cancel, List.take_left'] at h ⊢
    obtain ⟨front, back, hfront, hback, hu⟩ := trimSpace_spelled u
    -- white space in front would stand in front of the whole
    obtain rfl : front = [] := by
      obtain ⟨words, hwords, rfl⟩ := hfront
      cases words with
      | nil => rfl
      | cons w words =>
        refine absurd ?_ (ht.front w (hwords w List.mem_cons_self))
        rw [hu]
        simp
    rw [List.nil_append] at hu
    exact .suffixed h hback (List.mem_of_find?_eq_some hf) (congrArg (· ++ x.1) hu)

lemma cutSuffix_of_spells (h : Spells t n mult) :
    integer (cutSuffix t).1 = some n ∧ (cutSuffix t).2 = mult := by
  cases h with
  | plain hn =>
    rw [cutSuffix_plain hn]
    exact ⟨hn, rfl⟩
  | suffixed hn hspaces hsuffix ht =>
    rw [ht, cutSuffix_suffixed hn hspaces hsuffix]
    exact ⟨hn, rfl⟩

end Numerals

section Exactness

variable {L : LowerCasing} {quote : Bytes → Bytes} {s : Bytes} {n mult : ℤ}

lemma memorySuffixes_pos : ∀ x ∈ memorySuffixes, 0 < x.2 := by decide

lemma Spells.mult_pos {t : Bytes} (h : Spells t n mult) : 0 < mult := by
  cases h with
  | plain _ => exact one_pos
  | suffixed _ _ hsuffix _ => exact memorySuffixes_pos _ hsuffix

lemma parseMemory_ok {v : ℤ} (h : parseMemory L quote s = .ok v) :
    ∃ n mult, Spells (L.toLower (trimSpace s)) n mult ∧ 0 ≤ n ∧ n ≤ maxInt64 ∧
    v = wrap64 (n * mult) := by
  simp only [parseMemory] at h
  cases hp : parseInt64 (cutSuffix (L.toLower (trimSpace s))).1 with
  | none =>
    rw [hp] at h
    cases h
  | some n =>
    rw [hp] at h
    simp only at h
    split_ifs at h with hneg
    refine ⟨n, _, spells_of_cutSuffix (L.trimmed _ (trimSpace_trimmed s))
      (integer_of_parseInt64 hp), not_lt.1 hneg, (inInt64_iff.1 (parseInt64_inInt64 hp)).2,
        (Except.ok.inj h).symm⟩

lemma parseMemory_of_spells (h : Spells (L.toLower (trimSpace s)) n mult) (hn : 0 ≤ n)
    (hmax : n ≤ maxInt64) : parseMemory L quote s = .ok (wrap64 (n * mult)) := by
  obtain ⟨hi, hm⟩ := cutSuffix_of_spells h
  have hr : inInt64 n = true := inInt64_iff.2 ⟨(by decide : minInt64 ≤ 0).trans hn, hmax⟩
  have hp : parseInt64 (cutSuffix (L.toLower (trimSpace s))).1 = some n := by
    rw [parseInt64_eq, hi, Option.filter_some, if_pos hr]
  simp only [parseMemory, hp, hm]
  rw [if_neg (not_lt.2 hn)]

/-- What is returned is the product itself, and a product that is too large is refused. -/
structure ExactSize (L : LowerCasing) (quote : Bytes → Bytes) (s : Bytes) : Prop where
  exact : ∀ v, parseMemory L quote s = .ok v →
    ∃ n mult, Spells (L.toLower (trimSpace s)) n mult ∧ 0 ≤ n ∧ v = n * mult ∧ 0 ≤ v ∧
      (0 < n → 0 < v)
  bounded : ∀ n mult, Spells (L.toLower (trimSpace s)) n mult → maxInt64 < n * mult →
    ∃ e, parseMemory L quote s = .error e

theorem memory_size_exact_iff (L : LowerCasing) (quote : Bytes → Bytes) (s : Bytes) :
    ExactSize L quote s ↔ ∀ n mult, Spells (L.toLower (trimSpace s)) n mult → 0 ≤ n → n ≤ maxInt64 →
    n * mult ≤ maxInt64 := by
  constructor
  · intro h n mult hs hn hmax
    by_contra hlarge
    obtain ⟨e, he⟩ := h.bounded n mult hs (not_le.1 hlarge)
    rw [parseMemory_of_spells hs hn hmax] at he
    cases he
  · intro h
    refine ⟨fun v hv => ?_, fun n mult hs hlarge => ?_⟩
    · obtain ⟨n, mult, hs, hn, hmax, rfl⟩ := parseMemory_ok hv
      have hpos := hs.mult_pos
      have hprod : 0 ≤ n * mult := mul_nonneg hn hpos.le
      have hr : inInt64 (n * mult) = true :=
        inInt64_iff.2 ⟨(by decide : minInt64 ≤ 0).trans hprod, h n mult hs hn hmax⟩
      rw [wrap64_of_inInt64 hr]
      exact ⟨n, mult, hs, hn, rfl, hprod, fun hn' => mul_pos hn' hpos⟩
    · cases hp : parseMemory L quote s with
      | error e => exact ⟨e, rfl⟩
      | ok v =>
        -- the text spells one product only
        obtain ⟨n', mult', hs', hn', hmax', -⟩ := parseMemory_ok hp
        obtain ⟨hi, hm⟩ := cutSuffix_of_spells hs
        obtain ⟨hi', hm'⟩ := cutSuffix_of_spells hs'
        obtain rfl : n = n' := Option.some.inj (hi.symm.trans hi')
        obtain rfl : mult = mult' := hm.symm.trans hm'
        exact absurd (h n mult hs hn' hmax') (not_le.2 hlarge)

end Exactness

section Ascii

lemma eq_of_lowerByte {b c : UInt8} (hc : c < 97 ∨ 122 < c) (h : lowerByte b = c) : b = c := by
  unfold lowerByte at h
  split_ifs at h with hb
  · subst h
    simp only [UInt8.le_iff_toNat_le, UInt8.lt_iff_toNat_lt, UInt8.toNat_add,
      UInt8.reduceToNat] at hb hc
    omega
  · exact h

def unlettered (b : UInt8) : Bool := decide (b < 97 ∨ 122 < b)

lemma prefix_of_map_lowerByte {c : Bytes} (hc : ∀ b ∈ c, unlettered b = true) :
    ∀ {s : Bytes}, c <+: s.map lowerByte → c <+: s := by
  induction c with
  | nil => exact fun _ => List.nil_prefix
  | cons b c ih =>
    intro s h
    cases s with
    | nil => exact absurd (List.prefix_nil.1 h) (List.cons_ne_nil _ _)
    | cons x s =>
      obtain ⟨hx, hrest⟩ := List.cons_prefix_cons.1 h
      obtain rfl := eq_of_lowerByte (of_decide_eq_true (hc b List.mem_cons_self)) hx.symm
      exact List.cons_prefix_cons.2 ⟨rfl, ih (fun b hb => hc b (List.mem_cons_of_mem _ hb)) hrest⟩

lemma Trimmed.map_lowerByte {s : Bytes} (h : Trimmed s) : Trimmed (s.map lowerByte) := by
  have hcodes : ∀ c ∈ spaceCodes, c.all unlettered = true := by decide
  have hback : ∀ c ∈ spaceCodesBack, c.all unlettered = true := by decide
  refine ⟨fun c hc hpre =>
    h.front c hc (prefix_of_map_lowerByte (List.all_eq_true.1 (hcodes c hc)) hpre),
      fun c hc hpre => ?_⟩
  rw [← List.map_reverse] at hpre
  exact h.back c hc (prefix_of_map_lowerByte (List.all_eq_true.1 (hback c hc)) hpre)

def LowerCasing.asciiOnly : LowerCasing where
  toLower s := s.map lowerByte
  toLower_ascii _ _ := rfl
  trimmed _ := Trimmed.map_lowerByte

/-- Sixteen exbibytes are no limit at all, and eight of them a negative one. -/
theorem memory_size_wraps :
    parseMemory .asciiOnly id (ascii "17179869184 GB") = .ok 0 ∧
    parseMemory .asciiOnly id (ascii "8589934592g") = .ok minInt64 ∧
      ¬ExactSize .asciiOnly id (ascii "17179869184 GB") := by
  have hzero : parseMemory .asciiOnly id (ascii "17179869184 GB") = .ok 0 := by decide +kernel
  refine ⟨hzero, by decide +kernel, fun h => ?_⟩
  have hdigits : integer (ascii "17179869184") = some 17179869184 := by decide +kernel
  have hspells : Spells (LowerCasing.asciiOnly.toLower (trimSpace (ascii "17179869184 GB")))
      17179869184 (2 ^ 30) :=
    .suffixed hdigits ⟨[[0x20]], by decide, rfl⟩ (by decide : (ascii "gb", 2 ^ 30) ∈ memorySuffixes)
      (by decide +kernel)
  obtain ⟨e, he⟩ := h.bounded _ _ hspells (by decide)
  rw [hzero] at he
  cases he

end Ascii

end RedisClone.Store
