import RedisClone.Resp.Framing

/-! What the parser accepts: the encoder's framing, but with any numeral for a count or a length. -/

namespace RedisClone.Resp

open Lib.Decimal

def headerLine (typ : UInt8) (numeral : Bytes) : Bytes := typ :: (numeral ++ crlf)

lemma headerLine_formatNat (typ : UInt8) (n : ℕ) :
    headerLine typ (formatNat n) = countLine typ n := by
  rw [headerLine, countLine, formatInt_natCast]

structure Spells (numeral : Bytes) (n : ℕ) : Prop where
  value : parseInt64 numeral = some (n : ℤ)
  fits : numeral.length + 2 < readerBufSize

lemma lf_notMem_of_parse {numeral : Bytes} {z : ℤ} (h : parseInt64 numeral = some z) :
    lf ∉ numeral := by
  intro hm
  have hd := mem_of_parseInt64 h hm
  revert hd
  decide

section Line

lemma takeWhile_lf {src : Bytes} (h : lf ∈ src) :
    ∃ rest, src = src.takeWhile (· != lf) ++ lf :: rest := by
  induction src with
  | nil => cases h
  | cons b src ih =>
    by_cases hb : b = lf
    · exact ⟨src, by simp [hb]⟩
    · obtain ⟨rest, hrest⟩ := ih ((List.mem_cons.1 h).resolve_left (Ne.symm hb))
      refine ⟨rest, ?_⟩
      rw [List.takeWhile_cons_of_pos (by simpa using hb), List.cons_append, ← hrest]

lemma mem_of_takeWhile_lt {src : Bytes} (h : (src.takeWhile (· != lf)).length < src.length) :
    lf ∈ src := by
  by_contra hn
  have hall : src.takeWhile (· != lf) = src := by
    rw [List.takeWhile_eq_self_iff]
    intro b hb
    simpa using ne_of_mem_of_not_mem hb hn
  rw [hall] at h
  exact absurd h (lt_irrefl _)

lemma readSlice_eq_line {src line rest : Bytes} (h : readSlice src = (line, none, rest)) :
    ∃ before, line = before ++ [lf] ∧ src = before ++ lf :: rest ∧ lf ∉ before ∧
    before.length < readerBufSize := by
  simp only [readSlice] at h
  split_ifs at h with hshort
  · obtain ⟨rfl, -, rfl⟩ := h
    rw [lt_min_iff] at hshort
    obtain ⟨rest, hsrc⟩ := takeWhile_lf (mem_of_takeWhile_lt hshort.1)
    refine ⟨_, rfl, ?_, fun hm => by simpa using List.mem_takeWhile_imp hm, hshort.2⟩
    conv_lhs => rw [hsrc]
    generalize src.takeWhile (· != lf) = before at *
    rw [hsrc]
    simp
  · exact absurd (congrArg (·.2.1) h) (Option.some_ne_none _)
  · exact absurd (congrArg (·.2.1) h) (Option.some_ne_none _)

lemma readLine_eq_ok {src line rest : Bytes} :
    readLine src = .ok (line, rest) ↔
      src = line ++ (crlf ++ rest) ∧ line ≠ [] ∧ lf ∉ line ∧ line.length + 1 < readerBufSize := by
  constructor
  · intro h
    unfold readLine at h
    split at h
    · cases h
    · split_ifs at h
    · rename_i hs
      obtain ⟨before, rfl, rfl, hlf, hlen⟩ := readSlice_eq_line hs
      dsimp only at h
      split_ifs at h with hcr hne
      obtain ⟨rfl, rfl⟩ := Prod.mk.inj (Except.ok.inj h)
      -- the line ends in CR, and what is returned is all before that
      rcases List.eq_nil_or_concat before with rfl | ⟨line, last, rfl⟩
      · exact absurd (.inl (by decide)) hcr
      · simp at hcr hne hlf hlen ⊢
        subst hcr
        exact ⟨rfl, hne, hlf.1, hlen⟩
  · rintro ⟨rfl, hne, hlf, hlen⟩
    exact readLine_line line rest hne hlf hlen

end Line

section Spelling

lemma Spells.lf_notMem {typ : UInt8} (htyp : typ ≠ lf) {numeral : Bytes} {n : ℕ}
    (h : Spells numeral n) : lf ∉ typ :: numeral := by
  rw [List.mem_cons, not_or]
  exact ⟨htyp.symm, lf_notMem_of_parse h.value⟩

lemma readLine_headerLine {typ : UInt8} (htyp : typ ≠ lf) {numeral : Bytes} {n : ℕ}
    (h : Spells numeral n) (rest : Bytes) :
    readLine (headerLine typ numeral ++ rest) = .ok (typ :: numeral, rest) := by
  refine readLine_eq_ok.2 ⟨?_, List.cons_ne_nil _ _, h.lf_notMem htyp, h.fits⟩
  simp only [headerLine, List.cons_append, List.append_assoc]

lemma headerLine_of_readLine {typ : UInt8} {src line rest : Bytes} {z : ℤ}
    (h : readLine src = .ok (line, rest)) (htyp : line.headD 0 = typ)
    (hparse : parseInt64 line.tail = some z) (hz : 0 ≤ z) :
    ∃ numeral, line = typ :: numeral ∧ Spells numeral z.toNat ∧
    src = headerLine typ numeral ++ rest := by
  obtain ⟨rfl, hne, -, hlen⟩ := readLine_eq_ok.1 h
  obtain ⟨b, numeral, rfl⟩ := List.exists_cons_of_ne_nil hne
  obtain rfl : b = typ := htyp
  refine ⟨numeral, rfl, ⟨?_, hlen⟩, ?_⟩
  · rw [Int.toNat_of_nonneg hz]
    exact hparse
  · simp only [headerLine, List.cons_append, List.append_assoc]

def bulkAs (numeral p : Bytes) : Bytes := headerLine (byteOf '$') numeral ++ (p ++ crlf)

structure SpellsBulk (numeral p : Bytes) : Prop where
  spells : Spells numeral p.length
  limit : p.length ≤ maxBulkLength

lemma split_terminated {body : Bytes} {n : ℕ} (hlen : n + 2 ≤ body.length)
    (hcr : (body.take (n + 2)).getD n 0 = cr) (hlf : (body.take (n + 2)).getD (n + 1) 0 = lf) :
    body = body.take n ++ (crlf ++ body.drop (n + 2)) := by
  have h₁ : n < body.length := by omega
  have h₂ : n + 1 < body.length := by omega
  rw [List.getD_eq_getElem?_getD, List.getElem?_take_of_lt (by omega), List.getElem?_eq_getElem h₁,
    Option.getD_some] at hcr
  rw [List.getD_eq_getElem?_getD, List.getElem?_take_of_lt (by omega), List.getElem?_eq_getElem h₂,
    Option.getD_some] at hlf
  conv_lhs =>
    rw [← List.take_append_drop n body, List.drop_eq_getElem_cons h₁,
      List.drop_eq_getElem_cons h₂, hcr, hlf]
  rfl

lemma readBulkString_eq_ok {src p rest : Bytes} :
    readBulkString src = .ok (p, rest) ↔ ∃ numeral, SpellsBulk numeral p ∧
    src = bulkAs numeral p ++ rest := by
  constructor
  · intro h
    unfold readBulkString at h
    split at h
    · cases h
    · rename_i line body hl
      split_ifs at h with htyp
      split at h
      · cases h
      · rename_i z hz
        dsimp only at h
        split_ifs at h with hrange hshort hcrlf
        obtain ⟨rfl, rfl⟩ := Prod.mk.inj (Except.ok.inj h)
        rw [not_or, not_lt, not_lt] at hrange
        rw [not_lt] at hshort
        rw [not_or, not_not, not_not] at hcrlf
        obtain ⟨numeral, -, hspells, hsrc⟩ := headerLine_of_readLine hl (not_not.1 htyp) hz hrange.1
        have hlen : ((body.take (z.toNat + 2)).take z.toNat).length = z.toNat := by
          rw [List.take_take, List.length_take]
          omega
        refine ⟨numeral, ⟨?_, ?_⟩, ?_⟩
        · rwa [hlen]
        · rw [hlen]
          omega
        · have hbody := split_terminated hshort hcrlf.1 hcrlf.2
          rw [hsrc, bulkAs, List.append_assoc, List.append_assoc, List.take_take,
            Nat.min_eq_left (Nat.le_add_right _ _), ← hbody]
  · rintro ⟨numeral, h, rfl⟩
    have hrange : ¬ ((p.length : ℤ) < 0 ∨ (p.length : ℤ) > maxBulkLength) := by
      have := h.limit
      omega
    have htake : (p ++ (crlf ++ rest)).take (p.length + 2) = p ++ crlf := by
      rw [← List.append_assoc]
      exact List.take_left' (by simp [crlf])
    have hdrop : (p ++ (crlf ++ rest)).drop (p.length + 2) = rest := by
      rw [← List.append_assoc]
      exact List.drop_left' (by simp [crlf])
    rw [bulkAs, List.append_assoc, List.append_assoc, readBulkString,
      readLine_headerLine (by decide) h.spells]
    simp only [List.headD_cons, List.tail_cons, h.spells.value, Int.toNat_natCast, htake,
      hdrop, if_neg hrange]
    simp [crlf]

def argsAs (lengths args : List Bytes) : Bytes := (List.zipWith bulkAs lengths args).flatten

lemma readArgs_eq_ok {n : ℕ} :
    ∀ {src rest : Bytes} {args : List Bytes}, readArgs n src = .ok (args, rest) ↔
    args.length = n ∧ ∃ lengths, List.Forall₂ SpellsBulk lengths args ∧
    src = argsAs lengths args ++ rest := by
  induction n with
  | zero =>
    intro src rest args
    simp only [readArgs, Except.ok.injEq, Prod.mk.injEq, List.length_eq_zero_iff]
    constructor
    · rintro ⟨rfl, rfl⟩
      exact ⟨rfl, [], .nil, rfl⟩
    · rintro ⟨rfl, lengths, hl, rfl⟩
      cases hl
      exact ⟨rfl, rfl⟩
  | succ n ih =>
    intro src rest args
    constructor
    · intro h
      simp only [readArgs] at h
      split at h
      · cases h
      · rename_i hb
        split at h
        · cases h
        · rename_i ha
          obtain ⟨rfl, rfl⟩ := Prod.mk.inj (Except.ok.inj h)
          obtain ⟨numeral, hn, rfl⟩ := readBulkString_eq_ok.1 hb
          obtain ⟨hlen, lengths, hl, rfl⟩ := ih.1 ha
          exact ⟨congrArg (· + 1) hlen, numeral :: lengths, .cons hn hl, by simp [argsAs]⟩
    · rintro ⟨hlen, lengths, hl, rfl⟩
      cases hl with
      | nil => cases hlen
      | @cons numeral p lengths args hn hl =>
        have hb : readBulkString (argsAs (numeral :: lengths) (p :: args) ++ rest) =
            .ok (p, argsAs lengths args ++ rest) :=
          readBulkString_eq_ok.2 ⟨numeral, hn, by simp [argsAs]⟩
        have ha : readArgs n (argsAs lengths args ++ rest) = .ok (args, rest) :=
          ih.2 ⟨Nat.succ.inj hlen, lengths, hl, rfl⟩
        simp only [readArgs, hb, ha]

def commandAs (count : Bytes) (lengths args : List Bytes) : Bytes :=
  headerLine (byteOf '*') count ++ argsAs lengths args

structure SpellsCommand (count : Bytes) (lengths args : List Bytes) : Prop where
  count : Spells count args.length
  limit : args.length ≤ maxArrayLength
  lengths : List.Forall₂ SpellsBulk lengths args

lemma readCommand_eq_ok {src rest : Bytes} {args : List Bytes} :
    readCommand src = .ok (args, rest) ↔ ∃ count lengths, SpellsCommand count lengths args ∧
      src = commandAs count lengths args ++ rest := by
  constructor
  · intro h
    unfold readCommand at h
    split at h
    · cases h
    · rename_i line body hl
      split_ifs at h with htyp
      split at h
      · cases h
      · rename_i z hz
        split_ifs at h with hneg hmany
        obtain ⟨numeral, -, hspells, hsrc⟩ :=
          headerLine_of_readLine hl (not_not.1 htyp) hz (not_lt.1 hneg)
        obtain ⟨hlen, lengths, hlengths, rfl⟩ := readArgs_eq_ok.1 h
        refine ⟨numeral, lengths, ⟨hlen ▸ hspells, by omega, hlengths⟩, ?_⟩
        rw [hsrc, commandAs, List.append_assoc]
  · rintro ⟨count, lengths, h, rfl⟩
    have hlimit := h.limit
    rw [commandAs, List.append_assoc, readCommand, readLine_headerLine (by decide) h.count]
    simp only [List.headD_cons, List.tail_cons, h.count.value, Int.toNat_natCast,
      if_neg (by omega : ¬ (args.length : ℤ) < 0),
        if_neg (by omega : ¬ (args.length : ℤ) > maxArrayLength)]
    rw [if_neg (not_not.2 rfl)]
    exact readArgs_eq_ok.2 ⟨rfl, lengths, h.lengths, rfl⟩

lemma readCommand_withinLimits {src rest : Bytes} {args : List Bytes}
    (h : readCommand src = .ok (args, rest)) (hne : args ≠ []) :
    WithinLimits args := by
  obtain ⟨count, lengths, hs, -⟩ := readCommand_eq_ok.1 h
  refine ⟨hne, hs.limit, ?_⟩
  have hbulk : List.Forall₂ (fun p _ => p.length ≤ maxBulkLength ∧ True) args lengths :=
    hs.lengths.flip.imp fun _ _ hp => ⟨hp.limit, trivial⟩
  exact ((List.forall₂_and_left args lengths).1 hbulk).1

end Spelling

section Canonical

variable {count rest : Bytes} {lengths args : List Bytes}

lemma Spells.canonical_iff {numeral : Bytes} {n : ℕ} (h : Spells numeral n) :
    numeral = formatNat n ↔ Canonical numeral :=
  eq_formatNat_iff h.value

lemma Spells.length_le {numeral : Bytes} {n : ℕ} (h : Spells numeral n) :
    (formatNat n).length ≤ numeral.length :=
  (formatNat_suffix h.value).length_le

lemma Spells.canonical_of_length {numeral : Bytes} {n : ℕ} (h : Spells numeral n)
    (hl : numeral.length ≤ (formatNat n).length) : Canonical numeral :=
  h.canonical_iff.1 ((formatNat_suffix h.value).eq_of_length (le_antisymm h.length_le hl)).symm

lemma headerLine_length (typ : UInt8) (numeral : Bytes) :
    (headerLine typ numeral).length = numeral.length + 3 := by
  simp [headerLine, crlf]

lemma bulkAs_length (numeral p : Bytes) :
    (bulkAs numeral p).length = numeral.length + p.length + 5 := by
  simp only [bulkAs, List.length_append, headerLine_length, crlf, List.length_cons, List.length_nil]
  omega

lemma bulkString_eq_bulkAs (p : Bytes) : bulkString p = bulkAs (formatNat p.length) p := by
  rw [bulkString_eq, bulkAs, headerLine_formatNat]

lemma argsAs_cons (numeral p : Bytes) (lengths args : List Bytes) :
    argsAs (numeral :: lengths) (p :: args) = bulkAs numeral p ++ argsAs lengths args := rfl

lemma argsAs_length_le (h : List.Forall₂ SpellsBulk lengths args) :
    (args.flatMap bulkString).length ≤ (argsAs lengths args).length := by
  induction h with
  | nil => exact le_rfl
  | cons hn _ ih =>
    have hl := hn.spells.length_le
    rw [List.flatMap_cons, argsAs_cons, List.length_append, List.length_append,
      bulkString_eq_bulkAs, bulkAs_length, bulkAs_length]
    omega

lemma argsAs_tight (h : List.Forall₂ SpellsBulk lengths args)
    (hl : (argsAs lengths args).length ≤ (args.flatMap bulkString).length) :
    ∀ numeral ∈ lengths, Canonical numeral := by
  induction h with
  | nil => exact fun _ hm => absurd hm List.not_mem_nil
  | cons hn hrest ih =>
    have hle := hn.spells.length_le
    have hargs := argsAs_length_le hrest
    rw [List.flatMap_cons, argsAs_cons, List.length_append, List.length_append,
      bulkString_eq_bulkAs, bulkAs_length, bulkAs_length] at hl
    intro numeral hm
    rcases List.mem_cons.1 hm with rfl | hm
    · exact hn.spells.canonical_of_length (by omega)
    · exact ih (by omega) numeral hm

lemma argsAs_canonical (h : List.Forall₂ SpellsBulk lengths args)
    (hc : ∀ numeral ∈ lengths, Canonical numeral) :
    argsAs lengths args = args.flatMap bulkString := by
  induction h with
  | nil => rfl
  | cons hn _ ih =>
    have hfirst := hn.spells.canonical_iff.2 (hc _ List.mem_cons_self)
    rw [argsAs_cons, List.flatMap_cons, ih fun numeral hm => hc numeral (List.mem_cons_of_mem _ hm),
      bulkString_eq_bulkAs, ← hfirst]

lemma writeCommand_length_le (h : SpellsCommand count lengths args) :
    (writeCommand args).length ≤ (commandAs count lengths args).length := by
  have hc := h.count.length_le
  have hl := argsAs_length_le h.lengths
  rw [writeCommand_eq, commandAs, List.length_append, List.length_append, arrayHeader_eq,
    ← headerLine_formatNat, headerLine_length, headerLine_length]
  omega

lemma commandAs_tight (h : SpellsCommand count lengths args)
    (hl : (commandAs count lengths args).length ≤ (writeCommand args).length) :
    ∀ numeral ∈ count :: lengths, Canonical numeral := by
  have hc := h.count.length_le
  have ha := argsAs_length_le h.lengths
  rw [writeCommand_eq, commandAs, List.length_append, List.length_append, arrayHeader_eq,
    ← headerLine_formatNat, headerLine_length, headerLine_length] at hl
  intro numeral hm
  rcases List.mem_cons.1 hm with rfl | hm
  · exact h.count.canonical_of_length (by omega)
  · exact argsAs_tight h.lengths (by omega) numeral hm

lemma commandAs_canonical (h : SpellsCommand count lengths args)
    (hc : ∀ numeral ∈ count :: lengths, Canonical numeral) :
    commandAs count lengths args = writeCommand args := by
  have hcount := h.count.canonical_iff.2 (hc count List.mem_cons_self)
  rw [commandAs, argsAs_canonical h.lengths fun numeral hm => hc numeral
    (List.mem_cons_of_mem _ hm), hcount, headerLine_formatNat, writeCommand_eq, arrayHeader_eq]

def lengthNumerals : ℕ → Bytes → List Bytes
  | 0, _ => []
  | n + 1, src =>
    match readLine src, readBulkString src with
    | .ok (line, _), .ok (_, rest) => line.tail :: lengthNumerals n rest
    | _, _ => []

def headerNumerals (src : Bytes) : List Bytes :=
  match readLine src, readCommand src with
  | .ok (line, body), .ok (args, _) => line.tail :: lengthNumerals args.length body
  | _, _ => []

lemma lengthNumerals_argsAs (h : List.Forall₂ SpellsBulk lengths args) (rest : Bytes) :
    lengthNumerals args.length (argsAs lengths args ++ rest) = lengths := by
  induction h with
  | nil => rfl
  | @cons numeral p lengths args hn _ ih =>
    have hb : readBulkString (bulkAs numeral p ++ (argsAs lengths args ++ rest)) =
        .ok (p, argsAs lengths args ++ rest) :=
      readBulkString_eq_ok.2 ⟨numeral, hn, rfl⟩
    have hline := readLine_headerLine (by decide : byteOf '$' ≠ lf) hn.spells
      (p ++ crlf ++ (argsAs lengths args ++ rest))
    rw [← List.append_assoc, ← bulkAs] at hline
    rw [argsAs_cons, List.append_assoc, List.length_cons, lengthNumerals, hline, hb]
    simp only [List.tail_cons, ih]

lemma headerNumerals_commandAs (h : SpellsCommand count lengths args) (rest : Bytes) :
    headerNumerals (commandAs count lengths args ++ rest) = count :: lengths := by
  have hread : readCommand (commandAs count lengths args ++ rest) = .ok (args, rest) :=
    readCommand_eq_ok.2 ⟨count, lengths, h, rfl⟩
  have hline :=
    readLine_headerLine (by decide : byteOf '*' ≠ lf) h.count (argsAs lengths args ++ rest)
  rw [← List.append_assoc, ← commandAs] at hline
  simp only [headerNumerals, hline, hread, List.tail_cons, lengthNumerals_argsAs h.lengths]

/-- What was read is what the encoder writes exactly when no count or length has a sign or a leading
zero. -/
theorem accepts_encoding_iff_canonical {src rest : Bytes} {args : List Bytes}
    (h : readCommand src = .ok (args, rest)) :
    (src = writeCommand args ++ rest ↔ ∀ numeral ∈ headerNumerals src, Canonical numeral) ∧
      ∀ src' rest', readCommand src' = .ok (args, rest') →
      (∀ numeral ∈ headerNumerals src, Canonical numeral) →
        (∀ numeral ∈ headerNumerals src', Canonical numeral) → ∃ consumed, src = consumed ++ rest ∧
        src' = consumed ++ rest' := by
  have hiff {src rest : Bytes} (h : readCommand src = .ok (args, rest)) :
      src = writeCommand args ++ rest ↔ ∀ numeral ∈ headerNumerals src, Canonical numeral := by
    obtain ⟨count, lengths, hs, rfl⟩ := readCommand_eq_ok.1 h
    rw [headerNumerals_commandAs hs, List.append_cancel_right_eq]
    exact ⟨fun he => commandAs_tight hs (congrArg List.length he).le, commandAs_canonical hs⟩
  refine ⟨hiff h, fun src' rest' h' hc hc' => ?_⟩
  exact ⟨writeCommand args, (hiff h).2 hc, (hiff h').2 hc'⟩

theorem accepts_encoding_ping :
    readCommand (ascii "*1\r\n$4\r\nPING\r\n*1") = .ok ([ascii "PING"], ascii "*1") ∧
      (∀ numeral ∈ headerNumerals (ascii "*1\r\n$4\r\nPING\r\n*1"), Canonical numeral) ∧
      ascii "*1\r\n$4\r\nPING\r\n*1" = writeCommand [ascii "PING"] ++ ascii "*1" := by
  have hread : readCommand (ascii "*1\r\n$4\r\nPING\r\n*1") = .ok ([ascii "PING"], ascii "*1") := by
    decide
  have hc : ∀ numeral ∈ headerNumerals (ascii "*1\r\n$4\r\nPING\r\n*1"), Canonical numeral := by
    decide
  exact ⟨hread, hc, (accepts_encoding_iff_canonical hread).1.2 hc⟩

/-- A sign and a leading zero are accepted: three byte sequences for one command. -/
theorem accepts_signs_and_zeros :
    readCommand (ascii "*+1\r\n$4\r\nPING\r\n") = .ok ([ascii "PING"], []) ∧
      readCommand (ascii "*1\r\n$04\r\nPING\r\n") = .ok ([ascii "PING"], []) ∧
      readCommand (writeCommand [ascii "PING"]) = .ok ([ascii "PING"], []) ∧
      ascii "*+1\r\n$4\r\nPING\r\n" ≠ writeCommand [ascii "PING"] ∧
      ascii "*1\r\n$04\r\nPING\r\n" ≠ writeCommand [ascii "PING"] := by
  decide

end Canonical

end RedisClone.Resp
