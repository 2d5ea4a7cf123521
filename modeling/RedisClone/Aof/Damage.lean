import RedisClone.Aof.Repair

/-! A log with one framing byte changed in a record that is not the last: only a changed payload
length can make the parser meet the end of the file inside a command. -/

namespace RedisClone.Aof

open Resp Lib.Decimal

section Marks

abbrev Marked := List (UInt8 × Bool)

def unmark (m : Marked) : Bytes := m.map Prod.fst

def framing (bs : Bytes) : Marked := bs.map (·, true)
def payload (bs : Bytes) : Marked := bs.map (·, false)

def markedBulk (p : Bytes) : Marked :=
  framing (countLine (byteOf '$') p.length) ++ (payload p ++ framing crlf)

def markedCommand (args : List Bytes) : Marked :=
  framing (countLine (byteOf '*') args.length) ++ args.flatMap markedBulk

lemma unmark_append (m m' : Marked) : unmark (m ++ m') = unmark m ++ unmark m' := List.map_append

lemma unmark_framing (bs : Bytes) : unmark (framing bs) = bs := by
  simp [unmark, framing, Function.comp_def]

lemma unmark_payload (bs : Bytes) : unmark (payload bs) = bs := by
  simp [unmark, payload, Function.comp_def]

lemma unmark_markedBulk (p : Bytes) : unmark (markedBulk p) = bulkString p := by
  simp only [markedBulk, unmark_append, unmark_framing, unmark_payload, bulkString_eq]

lemma unmark_markedBulks (args : List Bytes) :
    unmark (args.flatMap markedBulk) = args.flatMap bulkString := by
  induction args with
  | nil => rfl
  | cons p args ih =>
    rw [List.flatMap_cons, List.flatMap_cons, unmark_append, unmark_markedBulk, ih]

def Flawed (m : Marked) (d : Bytes) : Prop :=
  ∃ before b₀ behind b, m = before ++ (b₀, true) :: behind ∧ b ≠ b₀ ∧
    d = unmark before ++ b :: unmark behind

lemma Flawed.append {m m' : Marked} {d : Bytes} (h : Flawed (m ++ m') d) :
    (∃ d', Flawed m d' ∧ d = d' ++ unmark m') ∨ ∃ d', Flawed m' d' ∧ d = unmark m ++ d' := by
  obtain ⟨before, b₀, behind, b, hm, hb, rfl⟩ := h
  rcases List.append_eq_append_iff.1 hm with ⟨rest, rfl, rfl⟩ | ⟨rest, rfl, hrest⟩
  · refine .inr ⟨_, ⟨rest, b₀, behind, b, rfl, hb, rfl⟩, ?_⟩
    rw [unmark_append, List.append_assoc]
  · cases rest with
    | nil =>
      rw [List.nil_append] at hrest
      exact .inr ⟨_, ⟨[], b₀, behind, b, hrest.symm, hb, rfl⟩, by rw [List.append_nil]; rfl⟩
    | cons x rest =>
      rw [List.cons_append, List.cons.injEq] at hrest
      obtain ⟨rfl, rfl⟩ := hrest
      refine .inl ⟨_, ⟨before, b₀, rest, b, rfl, hb, rfl⟩, ?_⟩
      rw [unmark_append, List.append_assoc, List.cons_append]

lemma not_flawed_payload (p d : Bytes) : ¬ Flawed (payload p) d := by
  rintro ⟨before, b₀, behind, b, hm, -⟩
  have hmem : (b₀, true) ∈ payload p := hm ▸ List.mem_append_right _ List.mem_cons_self
  obtain ⟨c, -, hc⟩ := List.mem_map.1 hmem
  exact Bool.false_ne_true (congrArg Prod.snd hc)

lemma Flawed.framing {bs d : Bytes} (h : Flawed (framing bs) d) :
    ∃ u b₀ v b, bs = u ++ b₀ :: v ∧ b ≠ b₀ ∧ d = u ++ b :: v := by
  obtain ⟨before, b₀, behind, b, hm, hb, rfl⟩ := h
  refine ⟨unmark before, b₀, unmark behind, b, ?_, hb, rfl⟩
  have hu := congrArg unmark hm
  rwa [unmark_framing, unmark_append] at hu

lemma Flawed.bulks {args : List Bytes} : ∀ {d : Bytes}, Flawed (args.flatMap markedBulk) d →
    ∃ args₁ p args₂ d', args = args₁ ++ p :: args₂ ∧ Flawed (markedBulk p) d' ∧
      d = args₁.flatMap bulkString ++ (d' ++ args₂.flatMap bulkString) := by
  induction args with
  | nil =>
    rintro d ⟨before, b₀, behind, b, hm, -⟩
    exact absurd hm.symm (List.append_ne_nil_of_right_ne_nil _ (List.cons_ne_nil _ _))
  | cons p args ih =>
    intro d h
    rw [List.flatMap_cons] at h
    rcases h.append with ⟨d', hd, rfl⟩ | ⟨d', hd, rfl⟩
    · exact ⟨[], p, args, d', rfl, hd, by rw [unmark_markedBulks]; rfl⟩
    · obtain ⟨args₁, q, args₂, d'', rfl, hq, rfl⟩ := ih hd
      exact ⟨p :: args₁, q, args₂, d'', rfl, hq, by
        rw [unmark_markedBulk, List.flatMap_cons, List.append_assoc]⟩

inductive BadLine (typ : UInt8) (n : ℕ) : Bytes → Prop
  | head {b : UInt8} (hb : b ≠ typ) : BadLine typ n (b :: (formatNat n ++ crlf))
  | digit {ds ds' : Bytes} {b₀ b : UInt8} (hn : formatNat n = ds ++ b₀ :: ds') (hb : b ≠ b₀) :
      BadLine typ n (headerLine typ (ds ++ b :: ds'))
  | carriage {b : UInt8} (hb : b ≠ cr) : BadLine typ n (typ :: (formatNat n ++ [b, lf]))
  | feed {b : UInt8} (hb : b ≠ lf) : BadLine typ n (typ :: (formatNat n ++ [cr, b]))

lemma change_pair {x y b₀ b : UInt8} {u v : Bytes} (h : [x, y] = u ++ b₀ :: v) (hb : b ≠ b₀) :
    (b ≠ x ∧ u ++ b :: v = [b, y]) ∨ (b ≠ y ∧ u ++ b :: v = [x, b]) := by
  cases u with
  | nil =>
    rw [List.nil_append, List.cons.injEq] at h
    obtain ⟨rfl, rfl⟩ := h
    exact .inl ⟨hb, rfl⟩
  | cons z u =>
    rw [List.cons_append, List.cons.injEq] at h
    obtain ⟨rfl, h⟩ := h
    cases u with
    | nil =>
      rw [List.nil_append, List.cons.injEq] at h
      obtain ⟨rfl, rfl⟩ := h
      exact .inr ⟨hb, rfl⟩
    | cons z u =>
      rw [List.cons_append, List.cons.injEq] at h
      exact absurd h.2.symm (List.append_ne_nil_of_right_ne_nil _ (List.cons_ne_nil _ _))

lemma Flawed.line {typ : UInt8} {n : ℕ} {d : Bytes} (h : Flawed (Aof.framing (countLine typ n)) d) :
    BadLine typ n d := by
  obtain ⟨u, b₀, v, b, hu, hb, rfl⟩ := h.framing
  rw [← headerLine_formatNat, headerLine] at hu
  cases u with
  | nil =>
    rw [List.nil_append, List.cons.injEq] at hu
    obtain ⟨rfl, rfl⟩ := hu
    exact .head hb
  | cons x u =>
    rw [List.cons_append, List.cons.injEq] at hu
    obtain ⟨rfl, hu⟩ := hu
    rcases List.append_eq_append_iff.1 hu with ⟨rest, rfl, hrest⟩ | ⟨rest, hn, hrest⟩
    · rcases change_pair hrest hb with ⟨hb, he⟩ | ⟨hb, he⟩
      · rw [List.cons_append, List.append_assoc, he]
        exact .carriage hb
      · rw [List.cons_append, List.append_assoc, he]
        exact .feed hb
    · cases rest with
      | nil =>
        rw [List.append_nil] at hn
        rw [List.nil_append] at hrest
        rcases change_pair (u := []) hrest.symm hb with ⟨hb, he⟩ | ⟨hb, he⟩
        · rw [List.nil_append] at he
          rw [List.cons_append, he, ← hn]
          exact .carriage hb
        · rw [List.nil_append] at he
          rw [List.cons_append, he, ← hn]
          exact .feed hb
      | cons y rest =>
        rw [List.cons_append, List.cons.injEq] at hrest
        obtain ⟨rfl, rfl⟩ := hrest
        have hd : BadLine typ _ _ := .digit hn hb
        simpa [headerLine] using hd

end Marks

section Refusal

def Refused {α : Type} (x : Except ReadError α) : Prop := ∃ msg, x = .error (.protocol msg)

lemma readLine_cases {src : Bytes} (h : lf ∈ src) :
    Refused (readLine src) ∨ ∃ line rest, readLine src = .ok (line, rest) := by
  have hlt : (src.takeWhile (· != lf)).length < src.length := by
    obtain ⟨rest, hrest⟩ := takeWhile_lf h
    conv_rhs => rw [hrest, List.length_append, List.length_cons]
    omega
  unfold readLine readSlice
  dsimp only
  by_cases hbuf : (src.takeWhile (· != lf)).length < readerBufSize
  · rw [if_pos (lt_min hlt hbuf)]
    dsimp only
    split_ifs
    · exact .inl ⟨_, rfl⟩
    · exact .inl ⟨_, rfl⟩
    · exact .inr ⟨_, _, rfl⟩
  · rw [if_neg (fun hm => hbuf (lt_min_iff.1 hm).2), if_pos (by omega)]
    exact .inl ⟨_, rfl⟩

lemma readLine_split {u v line rest : Bytes} (hu : lf ∉ u)
    (h : readLine (u ++ lf :: v) = .ok (line, rest)) : u = line ++ [cr] ∧ v = rest := by
  obtain ⟨hsrc, -, hlf, -⟩ := readLine_eq_ok.1 h
  have hline : lf ∉ line ++ [cr] := by
    rw [List.mem_append, List.mem_singleton, not_or]
    exact ⟨hlf, by decide⟩
  have hsrc' : u ++ lf :: v = (line ++ [cr]) ++ lf :: rest := by
    rw [hsrc]
    simp [crlf]
  rcases List.append_eq_append_iff.1 hsrc' with ⟨w, hw, hv⟩ | ⟨w, hw, hv⟩
  · cases w with
    | nil =>
      rw [List.append_nil] at hw
      exact ⟨hw.symm, (List.cons.inj hv).2⟩
    | cons x w =>
      rw [List.cons_append, List.cons.injEq] at hv
      exact absurd (hw ▸ List.mem_append_right _ (hv.1 ▸ List.mem_cons_self)) hline
  · cases w with
    | nil =>
      rw [List.append_nil] at hw
      exact ⟨hw, (List.cons.inj hv).2.symm⟩
    | cons x w =>
      rw [List.cons_append, List.cons.injEq] at hv
      exact absurd (hw ▸ List.mem_append_right _ (hv.1 ▸ List.mem_cons_self)) hu

def NoHeader (typ : UInt8) (src : Bytes) : Prop :=
  ∀ line rest, readLine src = .ok (line, rest) → line.headD 0 = typ → parseInt64 line.tail = none

lemma NoHeader.readCommand {src : Bytes} (h : NoHeader (byteOf '*') src) (hlf : lf ∈ src) :
    Refused (readCommand src) := by
  unfold Resp.readCommand
  rcases readLine_cases hlf with ⟨msg, hl⟩ | ⟨line, rest, hl⟩
  · rw [hl]
    exact ⟨_, rfl⟩
  · rw [hl]
    dsimp only
    split_ifs with htyp
    · exact ⟨_, rfl⟩
    · rw [h line rest hl (not_not.1 htyp)]
      exact ⟨_, rfl⟩

lemma NoHeader.readBulkString {src : Bytes} (h : NoHeader (byteOf '$') src) (hlf : lf ∈ src) :
    Refused (readBulkString src) := by
  unfold Resp.readBulkString
  rcases readLine_cases hlf with ⟨msg, hl⟩ | ⟨line, rest, hl⟩
  · rw [hl]
    exact ⟨_, rfl⟩
  · rw [hl]
    dsimp only
    split_ifs with htyp
    · exact ⟨_, rfl⟩
    · rw [h line rest hl (not_not.1 htyp)]
      exact ⟨_, rfl⟩

lemma noHeader_of_head {typ b : UInt8} (hb : b ≠ typ) (src : Bytes) : NoHeader typ (b :: src) := by
  intro line rest h htyp
  obtain ⟨hsrc, hne, -⟩ := readLine_eq_ok.1 h
  obtain ⟨c, line, rfl⟩ := List.exists_cons_of_ne_nil hne
  rw [List.cons_append, List.cons.injEq] at hsrc
  exact absurd (hsrc.1.trans htyp) hb

lemma noHeader_of_bareLf {typ b : UInt8} (hb : b ≠ cr) {u : Bytes}
    (hu : lf ∉ u ++ [b]) (v : Bytes) : NoHeader typ (u ++ [b] ++ lf :: v) := by
  intro line rest h _
  have hend := (readLine_split hu h).1
  exact absurd (List.append_inj_right' hend rfl) (fun he => hb (List.cons.inj he).1)

lemma lf_notMem_header {typ : UInt8} (htyp : typ ≠ lf) (n : ℕ) : lf ∉ typ :: formatNat n := by
  rw [List.mem_cons, not_or]
  exact ⟨htyp.symm, lf_notMem_formatNat n⟩

lemma cr_notMem_digits {ds : Bytes} (h : ∀ b ∈ ds, byteOf '0' ≤ b ∧ b ≤ byteOf '9') :
    cr ∉ ds ∧ lf ∉ ds := by
  constructor <;>
  · intro hm
    have hd := h _ hm
    revert hd
    decide

lemma noHeader_of_digits {typ : UInt8} (hcr : typ ≠ cr) (hlf : typ ≠ lf) {ds : Bytes}
    (hds : cr ∉ ds ∧ lf ∉ ds) (v : Bytes) : NoHeader typ (typ :: ds ++ lf :: v) := by
  rcases List.eq_nil_or_concat ds with rfl | ⟨ds, c, rfl⟩
  · exact noHeader_of_bareLf (u := []) hcr (by simpa using hlf.symm) v
  · rw [List.concat_eq_append] at hds ⊢
    have hc : c ≠ cr := fun he => hds.1 (he ▸ List.mem_append_right _ (List.mem_singleton_self _))
    have hu : lf ∉ typ :: ds ++ [c] := by
      rw [List.cons_append, List.mem_cons, not_or]
      exact ⟨hlf.symm, hds.2⟩
    exact noHeader_of_bareLf hc hu v

lemma noHeader_of_unended {typ b : UInt8} (hlf : typ ≠ lf) (hb : b ≠ lf) (n : ℕ) {rest : Bytes}
    (hrest : lf ∈ rest) : NoHeader typ (typ :: (formatNat n ++ [cr, b]) ++ rest) := by
  intro line rest' hl _
  obtain ⟨v, hv⟩ := takeWhile_lf hrest
  have hu : lf ∉ typ :: (formatNat n ++ [cr, b]) ++ rest.takeWhile (· != lf) := by
    have hbefore : lf ∉ rest.takeWhile (· != lf) := fun hm => by
      simpa using List.mem_takeWhile_imp hm
    have hhead := lf_notMem_header hlf n
    simp only [List.cons_append, List.mem_cons, List.mem_append, List.not_mem_nil, or_false,
      not_or] at hhead ⊢
    exact ⟨hhead.1, ⟨hhead.2, by decide, Ne.symm hb⟩, hbefore⟩
  rw [hv, ← List.append_assoc] at hl
  have hend := (readLine_split hu hl).1
  have hwhole : typ :: (formatNat n ++ [cr]) <+: line ++ [cr] := by
    rw [← hend]
    exact ⟨b :: rest.takeWhile (· != lf), by simp⟩
  have hlen : (typ :: (formatNat n ++ [cr])).length ≤ line.length := by
    have hlen := congrArg List.length hend
    simp only [List.length_append, List.length_cons, List.length_nil] at hlen ⊢
    omega
  obtain ⟨w, rfl⟩ := List.prefix_of_prefix_length_le hwhole (List.prefix_append _ _) hlen
  by_contra hsome
  obtain ⟨z, hz⟩ := Option.ne_none_iff_exists'.1 hsome
  have hmem : cr ∈ (typ :: (formatNat n ++ [cr]) ++ w).tail := by simp
  have hd := mem_of_parseInt64 hz hmem
  revert hd
  decide

lemma badLine_cases {typ : UInt8} (hcr : typ ≠ cr) (hlf : typ ≠ lf) {n : ℕ} {l : Bytes}
    (h : BadLine typ n l) {rest : Bytes} (hrest : lf ∈ rest) :
    NoHeader typ (l ++ rest) ∨ ∃ ds b₀ ds' b, formatNat n = ds ++ b₀ :: ds' ∧ b ≠ b₀ ∧
    lf ∉ ds ++ b :: ds' ∧ l = headerLine typ (ds ++ b :: ds') := by
  have hdigits := cr_notMem_digits fun c (hc : c ∈ formatNat n) => digit_of_mem_formatNat hc
  cases h with
  | head hb => exact .inl (noHeader_of_head hb _)
  | @digit ds ds' b₀ b hn hb =>
    simp only [hn, List.mem_append, List.mem_cons, not_or] at hdigits
    by_cases hb' : b = lf
    · subst hb'
      have hh := noHeader_of_digits hcr hlf ⟨hdigits.1.1, hdigits.2.1⟩ (ds' ++ (crlf ++ rest))
      exact .inl (by simpa [headerLine] using hh)
    · refine .inr ⟨ds, b₀, ds', b, hn, hb, ?_, rfl⟩
      rw [List.mem_append, List.mem_cons, not_or, not_or]
      exact ⟨hdigits.2.1, Ne.symm hb', hdigits.2.2.2⟩
  | @carriage b hb =>
    left
    by_cases hb' : b = lf
    · subst hb'
      have hh := noHeader_of_digits hcr hlf hdigits (lf :: rest)
      simpa using hh
    · have hu : lf ∉ typ :: formatNat n ++ [b] := by
        rw [List.mem_append, List.mem_singleton, not_or]
        exact ⟨lf_notMem_header hlf n, Ne.symm hb'⟩
      have hh : NoHeader typ _ := noHeader_of_bareLf hb hu rest
      simpa using hh
  | @feed b hb => exact .inl (noHeader_of_unended hlf hb n hrest)

end Refusal

section Course

def Stops (src : Bytes) (e : ReadError) : Prop := ∃ reads tail, Scans src reads tail e

def StopsIn (k : ℕ) (src : Bytes) (e : ReadError) : Prop :=
  readArgs k src = .error e ∨ ∃ args rest, readArgs k src = .ok (args, rest) ∧ Stops rest e

variable {src rest : Bytes} {e e' : ReadError} {k : ℕ}

lemma exists_stops (src : Bytes) : ∃ e, Stops src e := by
  obtain ⟨reads, tail, e, h⟩ := exists_scans _ src (Nat.lt_succ_self _)
  exact ⟨e, reads, tail, h⟩

lemma stops_of_error (h : readCommand src = .error e) : Stops src e := ⟨_, _, .stop h⟩

lemma stops_of_ok {args : List Bytes} (h : readCommand src = .ok (args, rest)) :
    Stops src e ↔ Stops rest e := by
  constructor
  · rintro ⟨reads, tail, hs⟩
    cases hs with
    | stop hstop => cases hstop.symm.trans h
    | next hnext hrest =>
      obtain ⟨rfl, rfl⟩ := Prod.mk.inj (Except.ok.inj (hnext.symm.trans h))
      exact ⟨_, _, hrest⟩
  · rintro ⟨reads, tail, hs⟩
    exact ⟨_, _, .next h hs⟩

lemma Stops.unique (h : Stops src e) (h' : Stops src e') : e = e' := by
  obtain ⟨reads, tail, hs⟩ := h
  induction hs with
  | stop hstop =>
    obtain ⟨_, _, hs'⟩ := h'
    cases hs' with
    | stop hstop' => exact Except.error.inj (hstop.symm.trans hstop')
    | next hnext _ => cases hstop.symm.trans hnext
  | next hnext _ ih => exact ih ((stops_of_ok hnext).1 h')

lemma stopsIn_zero : StopsIn 0 src e ↔ Stops src e := by
  constructor
  · rintro (h | ⟨args, rest, h, hs⟩)
    · cases h
    · obtain ⟨-, rfl⟩ := Prod.mk.inj (Except.ok.inj h)
      exact hs
  · exact fun hs => .inr ⟨[], src, rfl, hs⟩

lemma stopsIn_of_error (h : readBulkString src = .error e) : StopsIn (k + 1) src e := by
  left
  rw [readArgs, h]

lemma stopsIn_of_ok {p : Bytes} (h : readBulkString src = .ok (p, rest)) :
    StopsIn (k + 1) src e ↔ StopsIn k rest e := by
  simp only [StopsIn, readArgs, h]
  cases ha : readArgs k rest with
  | error e' => simp
  | ok read => simp [Prod.ext_iff]

lemma stops_of_readArgs (h : readCommand src = readArgs k rest) :
    Stops src e ↔ StopsIn k rest e := by
  cases ha : readArgs k rest with
  | error e' =>
    have hstop := stops_of_error (h.trans ha)
    constructor
    · intro hs
      exact .inl (ha.trans (congrArg _ (hstop.unique hs)))
    · rintro (h' | ⟨_, _, h', -⟩)
      · rwa [← Except.error.inj (ha.symm.trans h')]
      · cases ha.symm.trans h'
  | ok read =>
    rw [stops_of_ok (h.trans ha)]
    constructor
    · exact fun hs => .inr ⟨_, _, ha, hs⟩
    · rintro (h' | ⟨_, _, h', hs⟩)
      · cases ha.symm.trans h'
      · obtain ⟨-, rfl⟩ := Prod.mk.inj (Except.ok.inj (ha.symm.trans h'))
        exact hs

lemma StopsIn.unique (h : StopsIn k src e) (h' : StopsIn k src e') : e = e' := by
  rcases h with h | ⟨_, _, h, hs⟩ <;> rcases h' with h' | ⟨_, _, h', hs'⟩
  · exact Except.error.inj (h.symm.trans h')
  · cases h.symm.trans h'
  · cases h.symm.trans h'
  · obtain ⟨-, rfl⟩ := Prod.mk.inj (Except.ok.inj (h.symm.trans h'))
    exact hs.unique hs'

end Course

section Encoded

structure Readable (args : List Bytes) : Prop where
  count : args.length ≤ maxArrayLength
  bulk : ∀ p ∈ args, p.length ≤ maxBulkLength

lemma lf_mem_crlf : lf ∈ crlf := by decide

lemma lf_mem_headerLine (typ : UInt8) (numeral : Bytes) : lf ∈ headerLine typ numeral :=
  List.mem_cons_of_mem _ (List.mem_append_right _ lf_mem_crlf)

lemma lf_mem_bulkString (p : Bytes) : lf ∈ bulkString p := by
  rw [bulkString_eq_bulkAs]
  exact List.mem_append_left _ (lf_mem_headerLine _ _)

lemma lf_mem_writeCommand (args : List Bytes) : lf ∈ writeCommand args := by
  rw [writeCommand_eq, arrayHeader_eq, ← headerLine_formatNat]
  exact List.mem_append_left _ (lf_mem_headerLine _ _)

variable {numeral : Bytes}

lemma readLine_numeral {typ : UInt8} (htyp : typ ≠ lf) (hn : lf ∉ numeral) (rest : Bytes) :
    Refused (readLine (headerLine typ numeral ++ rest)) ∨
      readLine (headerLine typ numeral ++ rest) = .ok (typ :: numeral, rest) ∧
      numeral.length + 2 < readerBufSize := by
  rcases readLine_cases
    (List.mem_append_left rest (lf_mem_headerLine typ numeral)) with h | ⟨line, rest', h⟩
  · exact .inl h
  · right
    have hu : lf ∉ typ :: numeral ++ [cr] := by
      simp only [List.cons_append, List.mem_cons, List.mem_append, List.not_mem_nil,
        or_false, not_or]
      exact ⟨htyp.symm, hn, by decide⟩
    have hsrc : headerLine typ numeral ++ rest = typ :: numeral ++ [cr] ++ lf :: rest := by
      simp [headerLine, crlf]
    have hfits := (readLine_eq_ok.1 h).2.2.2
    rw [hsrc] at h ⊢
    obtain ⟨hline, rfl⟩ := readLine_split hu h
    have hline := List.append_inj_left' hline rfl
    rw [← hline] at h hfits
    exact ⟨h, hfits⟩

lemma readBulkString_numeral (hn : lf ∉ numeral) (rest : Bytes) :
    Refused (readBulkString (headerLine (byteOf '$') numeral ++ rest)) ∨
      ∃ n : ℕ, Spells numeral n ∧ n ≤ maxBulkLength ∧
        (rest.length < n + 2 ∧ readBulkString (headerLine (byteOf '$') numeral ++ rest) = .error
          .unexpectedEOF ∨ (n + 2 ≤ rest.length ∧ rest.getD n 0 = cr ∧ rest.getD (n + 1) 0 = lf) ∧
            readBulkString (headerLine (byteOf '$') numeral ++ rest) =
              .ok (rest.take n, rest.drop (n + 2))) := by
  rcases readLine_numeral (by decide : byteOf '$' ≠ lf) hn rest with ⟨msg, hl⟩ | ⟨hl, hfits⟩
  · left
    unfold readBulkString
    rw [hl]
    exact ⟨_, rfl⟩
  · generalize hr : readBulkString (headerLine (byteOf '$') numeral ++ rest) = read
    unfold readBulkString at hr
    rw [hl] at hr
    simp only [List.headD_cons, List.tail_cons, ne_eq, not_true_eq_false, if_false] at hr
    cases hz : parseInt64 numeral with
    | none =>
      rw [hz] at hr
      exact .inl ⟨_, hr.symm⟩
    | some z =>
      rw [hz] at hr
      dsimp only at hr
      by_cases hrange : z < 0 ∨ z > maxBulkLength
      · rw [if_pos hrange] at hr
        exact .inl ⟨_, hr.symm⟩
      · rw [if_neg hrange] at hr
        rw [not_or, not_lt, not_lt] at hrange
        have hspells : Spells numeral z.toNat := ⟨by rw [Int.toNat_of_nonneg hrange.1, hz], hfits⟩
        have hget (i : ℕ) (hi : i < z.toNat + 2) : (rest.take (z.toNat + 2)).getD i 0 =
            rest.getD i 0 := by
          rw [List.getD_eq_getElem?_getD, List.getD_eq_getElem?_getD, List.getElem?_take_of_lt hi]
        rw [hget _ (by omega), hget _ (by omega), List.take_take,
          Nat.min_eq_left (Nat.le_add_right _ _)] at hr
        split_ifs at hr with hshort hcrlf
        · exact .inr ⟨z.toNat, hspells, by omega, .inl ⟨hshort, hr.symm⟩⟩
        · exact .inl ⟨_, hr.symm⟩
        · rw [not_or, not_not, not_not] at hcrlf
          exact .inr ⟨z.toNat, hspells, by omega, .inr ⟨⟨not_lt.1 hshort, hcrlf⟩, hr.symm⟩⟩

lemma spells_formatNat_eq {m n : ℕ} (h : Spells (formatNat m) n) : m = n := by
  have hv := h.value
  rw [← formatInt_natCast, parseInt64_formatInt] at hv
  split_ifs at hv
  exact_mod_cast Option.some.inj hv

lemma readBulkString_encoded (p rest : Bytes) :
    p.length ≤ maxBulkLength ∧ readBulkString (bulkString p ++ rest) = .ok (p, rest) ∨
      ¬ p.length ≤ maxBulkLength ∧ Refused (readBulkString (bulkString p ++ rest)) := by
  by_cases hp : p.length ≤ maxBulkLength
  · exact .inl ⟨hp, readBulkString_bulkString hp rest⟩
  · refine .inr ⟨hp, ?_⟩
    rw [bulkString_eq_bulkAs, bulkAs, List.append_assoc]
    rcases readBulkString_numeral (lf_notMem_formatNat p.length)
      (p ++ crlf ++ rest) with h | ⟨n, hs, hn, -⟩
    · exact h
    · rw [spells_formatNat_eq hs] at hp
      exact absurd hn hp

lemma readCommand_numeral (hn : lf ∉ numeral) (rest : Bytes) :
    Refused (readCommand (headerLine (byteOf '*') numeral ++ rest)) ∨
      ∃ n : ℕ, Spells numeral n ∧ n ≤ maxArrayLength ∧
      readCommand (headerLine (byteOf '*') numeral ++ rest) = readArgs n rest := by
  unfold readCommand
  rcases readLine_numeral (by decide : byteOf '*' ≠ lf) hn rest with ⟨msg, hl⟩ | ⟨hl, hfits⟩
  · rw [hl]
    exact .inl ⟨_, rfl⟩
  · rw [hl]
    simp only [List.headD_cons, List.tail_cons, ne_eq, not_true_eq_false, if_false]
    cases hz : parseInt64 numeral with
    | none => exact .inl ⟨_, rfl⟩
    | some z =>
      simp only
      split_ifs with hneg hmany
      · exact .inl ⟨_, rfl⟩
      · exact .inl ⟨_, rfl⟩
      · exact .inr
          ⟨z.toNat, ⟨by rw [Int.toNat_of_nonneg (not_lt.1 hneg), hz], hfits⟩, by omega, rfl⟩

lemma Refused.stops {src : Bytes} (h : Refused (readCommand src)) :
    ∃ msg, Stops src (.protocol msg) := by
  obtain ⟨msg, hmsg⟩ := h
  exact ⟨msg, stops_of_error hmsg⟩

lemma Refused.stopsIn {src : Bytes} (h : Refused (readBulkString src)) (k : ℕ) :
    ∃ msg, StopsIn (k + 1) src (.protocol msg) := by
  obtain ⟨msg, hmsg⟩ := h
  exact ⟨msg, stopsIn_of_error hmsg⟩

lemma stopsIn_bulks (k : ℕ) (src : Bytes) (args : List Bytes) :
    ((∀ p ∈ args, p.length ≤ maxBulkLength) ∧
      ∀ e, StopsIn (args.length + k) (args.flatMap bulkString ++ src) e ↔ StopsIn k src e) ∨
    ¬ (∀ p ∈ args, p.length ≤ maxBulkLength) ∧
    ∃ msg, StopsIn (args.length + k) (args.flatMap bulkString ++ src) (.protocol msg) := by
  induction args with
  | nil =>
    refine .inl ⟨fun _ hp => absurd hp List.not_mem_nil, fun e => ?_⟩
    rw [List.length_nil, Nat.zero_add]
    rfl
  | cons p args ih =>
    rw [List.flatMap_cons, List.append_assoc, List.length_cons, Nat.succ_add]
    rcases readBulkString_encoded p (args.flatMap bulkString ++ src) with ⟨hp, hr⟩ | ⟨hp, hr⟩
    · rcases ih with ⟨hargs, h⟩ | ⟨hargs, msg, h⟩
      · exact .inl ⟨List.forall_mem_cons.2 ⟨hp, hargs⟩, fun e => (stopsIn_of_ok hr).trans (h e)⟩
      · exact .inr ⟨fun hall => hargs (List.forall_mem_cons.1 hall).2, msg, (stopsIn_of_ok hr).2 h⟩
    · exact .inr ⟨fun hall => hp (List.forall_mem_cons.1 hall).1, hr.stopsIn _⟩

lemma stops_arrayHeader (n : ℕ) (src : Bytes) :
    (n ≤ maxArrayLength ∧ ∀ e, Stops (arrayHeader n ++ src) e ↔ StopsIn n src e) ∨
      ¬ n ≤ maxArrayLength ∧ ∃ msg, Stops (arrayHeader n ++ src) (.protocol msg) := by
  rw [arrayHeader_eq, ← headerLine_formatNat]
  by_cases hn : n ≤ maxArrayLength
  · have hread : readCommand (headerLine (byteOf '*') (formatNat n) ++ src) = readArgs n src := by
      have hh : _ = readArgs (List.replicate n []).length src :=
        readCommand_header (by rwa [List.length_replicate]) src
      rwa [List.length_replicate, arrayHeader_eq, ← headerLine_formatNat] at hh
    exact .inl ⟨hn, fun e => stops_of_readArgs hread⟩
  · rcases readCommand_numeral (lf_notMem_formatNat n) src with h | ⟨m, hs, hm, -⟩
    · exact .inr ⟨hn, h.stops⟩
    · exact absurd (spells_formatNat_eq hs ▸ hm) hn

lemma stops_writeCommand (args : List Bytes) (src : Bytes) :
    (Readable args ∧ ∀ e, Stops (writeCommand args ++ src) e ↔ Stops src e) ∨
      ¬ Readable args ∧ ∃ msg, Stops (writeCommand args ++ src) (.protocol msg) := by
  rw [writeCommand_eq, List.append_assoc]
  rcases stops_arrayHeader args.length (args.flatMap bulkString ++ src) with ⟨hn, h⟩ | ⟨hn, h⟩
  · rcases stopsIn_bulks 0 src args with ⟨hargs, hb⟩ | ⟨hargs, msg, hb⟩
    · exact .inl ⟨⟨hn, hargs⟩, fun e => (h e).trans ((hb e).trans stopsIn_zero)⟩
    · exact .inr ⟨fun hr => hargs hr.bulk, msg, (h _).2 hb⟩
  · exact .inr ⟨fun hr => hn hr.count, h⟩

lemma stops_encodeAll (src : Bytes) (cs : List (List Bytes)) :
    ((∀ c ∈ cs, Readable c) ∧ ∀ e, Stops (encodeAll cs ++ src) e ↔ Stops src e) ∨
      ¬ (∀ c ∈ cs, Readable c) ∧ ∃ msg, Stops (encodeAll cs ++ src) (.protocol msg) := by
  induction cs with
  | nil => exact .inl ⟨fun _ hc => absurd hc List.not_mem_nil, fun e => Iff.rfl⟩
  | cons c cs ih =>
    rw [encodeAll_cons, List.append_assoc]
    rcases stops_writeCommand c (encodeAll cs ++ src) with ⟨hc, h⟩ | ⟨hc, h⟩
    · rcases ih with ⟨hcs, h'⟩ | ⟨hcs, msg, h'⟩
      · exact .inl ⟨List.forall_mem_cons.2 ⟨hc, hcs⟩, fun e => (h e).trans (h' e)⟩
      · exact .inr ⟨fun hall => hcs (List.forall_mem_cons.1 hall).2, msg, (h _).2 h'⟩
    · exact .inr ⟨fun hall => hc (List.forall_mem_cons.1 hall).1, h⟩

end Encoded

section Breaking

/-- The file ends too soon. There were `due` bulk strings to come and then commands, each as long as
its numerals say, but nothing is left where a bulk string is due, or too little for a payload and
its CRLF. -/
inductive BreaksOff : ℕ → Bytes → Prop
  | missing (due : ℕ) : BreaksOff (due + 1) []
  | short {due n : ℕ} {numeral rest : Bytes} (hs : Spells numeral n) (hle : n ≤ maxBulkLength)
      (hshort : rest.length < n + 2) : BreaksOff (due + 1) (headerLine (byteOf '$') numeral ++ rest)
  | bulk {due : ℕ} {numeral p rest : Bytes} (hp : SpellsBulk numeral p) (h : BreaksOff due rest) :
      BreaksOff (due + 1) (bulkAs numeral p ++ rest)
  | command {n : ℕ} {count rest : Bytes} (hs : Spells count n) (hle : n ≤ maxArrayLength)
      (h : BreaksOff n rest) : BreaksOff 0 (headerLine (byteOf '*') count ++ rest)

def Ended (src : Bytes) : Prop := src = [] ∨ [lf] <:+ src

variable {src u v : Bytes}

lemma Ended.mem (h : Ended src) (hne : src ≠ []) : lf ∈ src :=
  (h.resolve_left hne).mem (List.mem_singleton_self lf)

lemma Ended.right (h : Ended (u ++ v)) : Ended v := by
  by_cases hv : v = []
  · exact .inl hv
  · right
    rcases h with h | h
    · exact absurd (List.append_eq_nil_iff.1 h).2 hv
    · exact List.suffix_of_suffix_length_le h (List.suffix_append u v) (List.length_pos_iff.2 hv)

lemma ended_encodeAll (cs : List (List Bytes)) : Ended (encodeAll cs) := by
  have hbulks (args : List Bytes) : [lf] <:+ crlf ++ args.flatMap bulkString := by
    rcases List.eq_nil_or_concat args with rfl | ⟨args, p, rfl⟩
    · exact ⟨[cr], rfl⟩
    · rw [List.concat_eq_append, List.flatMap_append, List.flatMap_singleton, bulkString_eq,
        ← List.append_assoc, ← List.append_assoc, ← List.append_assoc]
      exact ⟨_, (List.append_assoc _ [cr] [lf])⟩
  rcases List.eq_nil_or_concat cs with rfl | ⟨cs, c, rfl⟩
  · exact .inl rfl
  · right
    rw [List.concat_eq_append, encodeAll_append, encodeAll_cons, encodeAll_nil, List.append_nil,
      writeCommand_eq, arrayHeader_eq, ← headerLine_formatNat, headerLine, List.cons_append,
        List.append_assoc]
    refine List.IsSuffix.trans (hbulks c) ⟨encodeAll cs ++ byteOf '*' :: formatNat c.length, ?_⟩
    simp only [List.append_assoc, List.cons_append]

lemma ended_append {cs : List (List Bytes)} (hcs : cs ≠ []) (u : Bytes) :
    Ended (u ++ encodeAll cs) := by
  obtain ⟨c, cs, rfl⟩ := List.exists_cons_of_ne_nil hcs
  have hne : encodeAll (c :: cs) ≠ [] := by
    rw [encodeAll_cons]
    exact List.append_ne_nil_of_left_ne_nil (List.length_pos_iff.1 (writeCommand_length_pos c)) _
  exact .inr (((ended_encodeAll _).resolve_left hne).trans (List.suffix_append _ _))

lemma noHeader_or_headerLine (typ : UInt8) (h : lf ∈ src) :
    NoHeader typ src ∨ ∃ numeral rest, lf ∉ numeral ∧ src = headerLine typ numeral ++ rest := by
  rcases readLine_cases h with ⟨msg, hl⟩ | ⟨line, rest, hl⟩
  · left
    intro line rest hok
    cases hl.symm.trans hok
  · obtain ⟨hsrc, hne, hlf, -⟩ := readLine_eq_ok.1 hl
    obtain ⟨b, numeral, rfl⟩ := List.exists_cons_of_ne_nil hne
    by_cases hb : b = typ
    · subst hb
      refine .inr ⟨numeral, rest, fun hm => hlf (List.mem_cons_of_mem _ hm), ?_⟩
      rw [hsrc, headerLine, List.cons_append, List.cons_append, List.append_assoc]
    · left
      rw [hsrc, List.cons_append]
      exact noHeader_of_head hb _

lemma readBulkString_short {n : ℕ} {numeral rest : Bytes} (hs : Spells numeral n)
    (hle : n ≤ maxBulkLength) (hshort : rest.length < n + 2) :
    readBulkString (headerLine (byteOf '$') numeral ++ rest) = .error .unexpectedEOF := by
  have hrange : ¬ ((n : ℤ) < 0 ∨ (n : ℤ) > maxBulkLength) := by omega
  rw [readBulkString, readLine_headerLine (by decide) hs]
  simp only [List.headD_cons, List.tail_cons, hs.value, Int.toNat_natCast, if_neg hrange,
    if_pos hshort, ne_eq, not_true_eq_false, if_false]

lemma readCommand_spelled {n : ℕ} {count rest : Bytes} (hs : Spells count n)
    (hle : n ≤ maxArrayLength) :
    readCommand (headerLine (byteOf '*') count ++ rest) = readArgs n rest := by
  rw [readCommand, readLine_headerLine (by decide) hs]
  simp only [List.headD_cons, List.tail_cons, hs.value, Int.toNat_natCast, ne_eq,
    not_true_eq_false, if_false, if_neg (by omega : ¬ (n : ℤ) < 0),
      if_neg (by omega : ¬ (n : ℤ) > maxArrayLength)]

lemma BreaksOff.stopsIn {due : ℕ} (h : BreaksOff due src) : StopsIn due src .unexpectedEOF := by
  induction h with
  | missing due => exact stopsIn_of_error rfl
  | short hs hle hshort => exact stopsIn_of_error (readBulkString_short hs hle hshort)
  | bulk hp _ ih => exact (stopsIn_of_ok (readBulkString_eq_ok.2 ⟨_, hp, rfl⟩)).2 ih
  | command hs hle _ ih =>
    exact stopsIn_zero.2 ((stops_of_readArgs (readCommand_spelled hs hle)).2 ih)

lemma StopsIn.breaksOff (n : ℕ) : ∀ {due : ℕ} {src : Bytes}, src.length < n → Ended src →
    StopsIn due src .unexpectedEOF → BreaksOff due src := by
  induction n with
  | zero => exact fun hn => absurd hn (Nat.not_lt_zero _)
  | succ n ih =>
    intro due src hn hended h
    cases due with
    | zero =>
      have hs := stopsIn_zero.1 h
      by_cases hne : src = []
      · subst hne
        cases hs.unique (stops_of_error readCommand_nil)
      rcases noHeader_or_headerLine (byteOf '*') (hended.mem hne) with hno | ⟨count, rest, hlf, rfl⟩
      · obtain ⟨msg, hrefused⟩ := (hno.readCommand (hended.mem hne)).stops
        cases hs.unique hrefused
      rcases readCommand_numeral hlf rest with hr | ⟨m, hspells, hle, hr⟩
      · obtain ⟨msg, hrefused⟩ := hr.stops
        cases hs.unique hrefused
      · refine .command hspells hle (ih ?_ hended.right ((stops_of_readArgs hr).1 hs))
        rw [List.length_append, headerLine_length] at hn
        omega
    | succ due =>
      by_cases hne : src = []
      · subst hne
        exact .missing due
      rcases noHeader_or_headerLine (byteOf '$')
        (hended.mem hne) with hno | ⟨numeral, rest, hlf, rfl⟩
      · obtain ⟨msg, hrefused⟩ := (hno.readBulkString (hended.mem hne)).stopsIn due
        cases h.unique hrefused
      rcases readBulkString_numeral hlf rest with hr | ⟨m, hspells, hle, ⟨hshort, -⟩ | ⟨-, hr⟩⟩
      · obtain ⟨msg, hrefused⟩ := hr.stopsIn due
        cases h.unique hrefused
      · exact .short hspells hle hshort
      · obtain ⟨numeral', hp, hsrc⟩ := readBulkString_eq_ok.1 hr
        have hrest := (stopsIn_of_ok hr).1 h
        rw [hsrc] at hended hn ⊢
        refine .bulk hp (ih ?_ hended.right hrest)
        rw [List.length_append, bulkAs_length] at hn
        omega

end Breaking

section Damage

lemma refused_behind {cs : List (List Bytes)} (hcs : cs ≠ []) :
    Refused (readBulkString (encodeAll cs)) := by
  obtain ⟨c, cs, rfl⟩ := List.exists_cons_of_ne_nil hcs
  have hlf : lf ∈ encodeAll (c :: cs) := List.mem_append_left _ (lf_mem_writeCommand c)
  refine NoHeader.readBulkString ?_ hlf
  rw [encodeAll_cons, writeCommand_eq, arrayHeader_eq, countLine]
  exact noHeader_of_head (by decide) _

lemma refused_inside (p rest : Bytes) : Refused (readCommand (bulkString p ++ rest)) := by
  refine NoHeader.readCommand ?_ (List.mem_append_left _ (lf_mem_bulkString p))
  rw [bulkString_eq, countLine]
  exact noHeader_of_head (by decide) _

lemma stopsIn_wrongCount {cs : List (List Bytes)} (hcs : cs ≠ []) (args : List Bytes) :
    ∀ {m : ℕ}, m ≠ args.length → ∃ msg, StopsIn m (args.flatMap bulkString ++ encodeAll cs)
      (.protocol msg) := by
  induction args with
  | nil =>
    intro m hm
    obtain ⟨k, rfl⟩ := Nat.exists_eq_succ_of_ne_zero hm
    exact (refused_behind hcs).stopsIn k
  | cons p args ih =>
    intro m hm
    rw [List.flatMap_cons, List.append_assoc]
    cases m with
    | zero =>
      obtain ⟨msg, h⟩ := (refused_inside p (args.flatMap bulkString ++ encodeAll cs)).stops
      exact ⟨msg, stopsIn_zero.2 h⟩
    | succ k =>
      rcases readBulkString_encoded p
        (args.flatMap bulkString ++ encodeAll cs) with ⟨-, hr⟩ | ⟨-, hr⟩
      · obtain ⟨msg, h⟩ := ih (fun he => hm (congrArg (· + 1) he) : k ≠ args.length)
        exact ⟨msg, (stopsIn_of_ok hr).2 h⟩
      · exact hr.stopsIn k

lemma spells_changed {n m : ℕ} {ds ds' : Bytes} {b₀ b : UInt8}
    (hn : formatNat n = ds ++ b₀ :: ds') (hb : b ≠ b₀) (h : Spells (ds ++ b :: ds') m) : m ≠ n := by
  rintro rfl
  have hlen : (formatNat m).length = (ds ++ b :: ds').length := by
    rw [hn, List.length_append, List.length_append, List.length_cons, List.length_cons]
  have he := (formatNat_suffix h.value).eq_of_length hlen
  rw [hn, List.append_cancel_left_eq, List.cons.injEq] at he
  exact hb he.1.symm

lemma stops_badCount {args : List Bytes} {cs : List (List Bytes)} (hcs : cs ≠ []) {l : Bytes}
    (h : BadLine (byteOf '*') args.length l) :
    ∃ msg, Stops (l ++ (args.flatMap bulkString ++ encodeAll cs)) (.protocol msg) := by
  have hlf : lf ∈ args.flatMap bulkString ++ encodeAll cs := by
    obtain ⟨c, cs, rfl⟩ := List.exists_cons_of_ne_nil hcs
    exact List.mem_append_right _ (List.mem_append_left _ (lf_mem_writeCommand c))
  rcases badLine_cases (by decide) (by decide) h hlf with hno | ⟨ds, b₀, ds', b, hn, hb, hnum, rfl⟩
  · exact (hno.readCommand (List.mem_append_right _ hlf)).stops
  · rcases readCommand_numeral hnum
      (args.flatMap bulkString ++ encodeAll cs) with hr | ⟨m, hs, -, hr⟩
    · exact hr.stops
    · obtain ⟨msg, h⟩ := stopsIn_wrongCount hcs args (spells_changed hn hb hs)
      exact ⟨msg, (stops_of_readArgs hr).2 h⟩

lemma flawed_bulk {p d : Bytes} (h : Flawed (markedBulk p) d) (rest : Bytes) :
    Refused (readBulkString (d ++ rest)) ∨ ∃ ds b₀ ds' b, formatNat p.length = ds ++ b₀ :: ds' ∧
    b ≠ b₀ ∧ lf ∉ ds ++ b :: ds' ∧ d = bulkAs (ds ++ b :: ds') p := by
  rcases h.append with ⟨l, hl, rfl⟩ | ⟨d, hd, rfl⟩
  · rw [unmark_append, unmark_payload, unmark_framing]
    have hlf : lf ∈ p ++ crlf ++ rest :=
      List.mem_append_left _ (List.mem_append_right _ lf_mem_crlf)
    rcases badLine_cases (by decide)
      (by decide) hl.line hlf with hno | ⟨ds, b₀, ds', b, hn, hb, hnum, rfl⟩
    · rw [List.append_assoc]
      exact .inl (hno.readBulkString (List.mem_append_right _ hlf))
    · exact .inr ⟨ds, b₀, ds', b, hn, hb, hnum, rfl⟩
  · left
    rcases hd.append with ⟨d', hd', -⟩ | ⟨d', hd', rfl⟩
    · exact absurd hd' (not_flawed_payload _ _)
    · obtain ⟨u, b₀, v, b, hu, hb, rfl⟩ := hd'.framing
      rw [unmark_framing, unmark_payload, ← headerLine_formatNat, List.append_assoc,
        List.append_assoc]
      rcases readBulkString_numeral (lf_notMem_formatNat p.length)
        (p ++ (u ++ b :: v ++ rest)) with hr | ⟨n, hs, -, h⟩
      · exact hr
      · obtain rfl := spells_formatNat_eq hs
        rcases change_pair hu hb with ⟨hb, he⟩ | ⟨hb, he⟩
        · rw [he] at h
          rcases h with ⟨hshort, -⟩ | ⟨⟨-, hcr, -⟩, -⟩
          · simp at hshort
          · exact absurd (by simpa using hcr) hb
        · rw [he] at h
          rcases h with ⟨hshort, -⟩ | ⟨⟨-, -, hlf⟩, -⟩
          · simp at hshort
          · exact absurd (by simpa using hlf) hb

/-- The change has put another length before a payload, and from there on, going by the lengths, the
file breaks off. -/
def Misled (cs₁ : List (List Bytes)) (args : List Bytes) (cs₂ : List (List Bytes)) (d : Bytes) :
    Prop :=
  ∃ args₁ p args₂ numeral, args = args₁ ++ p :: args₂ ∧ numeral ≠ formatNat p.length ∧
    d = arrayHeader args.length ++
      (args₁.flatMap bulkString ++ (bulkAs numeral p ++ args₂.flatMap bulkString)) ∧
    (∀ c ∈ cs₁, Readable c) ∧ args.length ≤ maxArrayLength ∧
      (∀ q ∈ args₁, q.length ≤ maxBulkLength) ∧
    BreaksOff (args₂.length + 1) (bulkAs numeral p ++ (args₂.flatMap bulkString ++ encodeAll cs₂))

lemma stops_damaged_iff {cs₁ cs₂ : List (List Bytes)} (hcs₂ : cs₂ ≠ [])
    {args : List Bytes} {d : Bytes} (hd : Flawed (markedCommand args) d) :
    Stops (encodeAll cs₁ ++ (d ++ encodeAll cs₂)) .unexpectedEOF ↔ Misled cs₁ args cs₂ d := by
  constructor
  · intro h
    have hfound {msg : Bytes} {src : Bytes} (h : Stops src .unexpectedEOF)
        (h' : Stops src (.protocol msg)) : False := by
      cases h.unique h'
    rcases stops_encodeAll (d ++ encodeAll cs₂) cs₁ with ⟨hcs₁, hiff⟩ | ⟨-, msg, h'⟩
    swap
    · exact (hfound h h').elim
    rw [hiff] at h
    rcases hd.append with ⟨l, hl, rfl⟩ | ⟨d, hrest, rfl⟩
    · rw [unmark_markedBulks, List.append_assoc] at h
      obtain ⟨msg, h'⟩ := stops_badCount hcs₂ hl.line
      exact (hfound h h').elim
    · obtain ⟨args₁, p, args₂, d, rfl, hp, rfl⟩ := hrest.bulks
      rw [unmark_framing, ← arrayHeader_eq]
      rw [unmark_framing, ← arrayHeader_eq, List.append_assoc] at h
      rcases stops_arrayHeader (args₁ ++ p :: args₂).length
        (args₁.flatMap bulkString ++ (d ++ args₂.flatMap bulkString) ++ encodeAll cs₂) with ⟨hcount,
          hiff⟩ | ⟨-, msg, h'⟩
      swap
      · exact (hfound h h').elim
      rw [hiff, List.length_append, List.length_cons, List.append_assoc, List.append_assoc] at h
      rcases stopsIn_bulks (args₂.length + 1)
        (d ++ (args₂.flatMap bulkString ++ encodeAll cs₂)) args₁ with
        ⟨hargs₁, hiff⟩ | ⟨-, msg, h'⟩
      swap
      · cases h.unique h'
      rw [hiff] at h
      rcases flawed_bulk hp (args₂.flatMap bulkString ++ encodeAll cs₂) with hr | ⟨ds, b₀, ds', b,
        hn, hb, hnum, rfl⟩
      · obtain ⟨msg, h'⟩ := hr.stopsIn args₂.length
        cases h.unique h'
      · have hended :
            Ended (bulkAs (ds ++ b :: ds') p ++ (args₂.flatMap bulkString ++ encodeAll cs₂)) := by
          rw [← List.append_assoc]
          exact ended_append hcs₂ _
        have hchanged : ds ++ b :: ds' ≠ formatNat p.length := by
          rw [hn]
          exact fun he => hb (List.cons.inj (List.append_cancel_left he)).1
        exact ⟨args₁, p, args₂, _, rfl, hchanged, rfl, hcs₁, hcount, hargs₁,
          StopsIn.breaksOff _ (Nat.lt_succ_self _) hended h⟩
  · rintro ⟨args₁, p, args₂, numeral, rfl, -, rfl, hcs₁, hcount, hargs₁, h⟩
    have h₁ := ((stopsIn_bulks _ _ args₁).resolve_right fun hno => hno.1 hargs₁).2 _ |>.2 h.stopsIn
    have h₂ := ((stops_arrayHeader _ _).resolve_right fun hno => hno.1 hcount).2 _ |>.2 (by
      rw [List.length_append, List.length_cons]
      exact h₁)
    have h₃ := ((stops_encodeAll _ cs₁).resolve_right fun hno => hno.1 hcs₁).2 _ |>.2 h₂
    simpa only [List.append_assoc] using h₃

end Damage

section Outcome

variable {σ ε : Type} {apply : σ → List Bytes → Except ε σ} {file : Bytes}

def LeavesAlone (apply : σ → List Bytes → Except ε σ) (st : σ) (file : Bytes) : Prop :=
  ∃ r, replay apply st (some file) = some r ∧ r.file = some file ∧ r.result.truncated = 0 ∧
    (r.error = none → ∃ reads, Scans file reads [] .eof)

lemma replayLoop_alone {src tail : Bytes} {reads : List (Bytes × List Bytes)} {e : ReadError}
    (h : Scans src reads tail e) (he : e ≠ .unexpectedEOF) :
    ∀ (fuel : ℕ) (res : Result) (st : σ), reads.length < fuel →
    ∃ r, replayLoop apply file fuel src res st = some r ∧ r.file = some file ∧
    r.result.truncated = res.truncated ∧ (r.error = none → e = .eof) := by
  induction h with
  | @stop src e h =>
    intro fuel res st hf
    obtain ⟨fuel, rfl⟩ := Nat.exists_eq_succ_of_ne_zero (by omega : fuel ≠ 0)
    rw [replayLoop, h]
    cases e with
    | eof => exact ⟨_, rfl, rfl, rfl, fun _ => rfl⟩
    | unexpectedEOF => exact absurd rfl he
    | protocol msg => exact ⟨_, rfl, rfl, rfl, fun hn => absurd hn (Option.some_ne_none _)⟩
  | @next src rest tail args reads e h _ ih =>
    intro fuel res st hf
    obtain ⟨fuel, rfl⟩ := Nat.exists_eq_succ_of_ne_zero (by omega : fuel ≠ 0)
    rw [List.length_cons] at hf
    rw [replayLoop, h]
    cases args with
    | nil => exact ih he fuel res st (by omega)
    | cons name args =>
      dsimp only
      cases apply st (name :: args) with
      | error err => exact ⟨_, rfl, rfl, rfl, fun hn => absurd hn (Option.some_ne_none _)⟩
      | ok st' => exact ih he fuel _ st' (by omega)

lemma leavesAlone_of_stops {e : ReadError} (h : Stops file e) (he : e ≠ .unexpectedEOF) (st : σ) :
    LeavesAlone apply st file := by
  obtain ⟨reads, tail, hs⟩ := h
  have hlen := hs.length_le
  obtain ⟨r, hr, hfile, htrunc, herr⟩ : ∃ r, replayLoop apply file _ _ _ _ = some r ∧ _ :=
    replayLoop_alone hs he (file.length + 1) ⟨0, 0, 0⟩ st (by omega)
  refine ⟨r, hr, hfile, htrunc, fun hnone => ?_⟩
  obtain rfl := herr hnone
  obtain rfl := eq_nil_of_readCommand_eof hs.stops
  exact ⟨reads, hs⟩

lemma not_leavesAlone_of_torn (f : σ → List Bytes → σ) (h : Stops file .unexpectedEOF) (st : σ) :
    ¬ LeavesAlone (infallible f ε) st file := by
  obtain ⟨reads, tail, hs⟩ := h
  rintro ⟨r, hr, hfile, -⟩
  obtain rfl := Option.some.inj (hr.symm.trans (replay_scans f hs st))
  obtain ⟨consumed, rfl, hle, -⟩ := hs.consumed
  have htail : tail ≠ [] := by
    rintro rfl
    cases hs.stops.symm.trans readCommand_nil
  have hpos := List.length_pos_iff.2 htail
  have hlen := congrArg List.length (Option.some.inj hfile)
  simp only [truncateFile, Int.toNat_natCast, List.length_append, List.length_take,
    List.length_replicate] at hlen
  omega

end Outcome

/-- One framing byte changed in a record that is not the last is reported or does no harm, exactly
when it has not put a misleading length before a payload. -/
theorem damage_refused_iff_not_misled (cs₁ : List (List Bytes)) (args : List Bytes)
    {cs₂ : List (List Bytes)} (hcs₂ : cs₂ ≠ []) {d : Bytes} (hd : Flawed (markedCommand args) d) :
    (∀ (σ ε : Type) (apply : σ → List Bytes → Except ε σ) (st : σ), LeavesAlone apply st
      (encodeAll cs₁ ++ (d ++ encodeAll cs₂))) ↔ ¬ Misled cs₁ args cs₂ d := by
  rw [← stops_damaged_iff hcs₂ hd]
  constructor
  · exact fun h htorn => not_leavesAlone_of_torn (ε := Unit) (fun _ _ => ()) htorn ()
      (h Unit Unit _ ())
  · intro h σ ε apply st
    obtain ⟨e, he⟩ := exists_stops (encodeAll cs₁ ++ (d ++ encodeAll cs₂))
    exact leavesAlone_of_stops he (fun hu => h (hu ▸ he)) st

/-- A length is changed from 10 to 11, where no CRLF stands behind the payload. -/
theorem damage_refused_longer :
    let damaged := ascii "*3\r\n$3\r\nSET\r\n$1\r\nk\r\n$11\r\n0123456789\r\n"
    Flawed (markedCommand [ascii "SET", ascii "k", ascii "0123456789"]) damaged ∧
      LeavesAlone (infallible (fun seen c => seen ++ [c]) Unit)
      [] (damaged ++ writeCommand [ascii "PING"]) := by
  intro damaged
  have hd : Flawed (markedCommand [ascii "SET", ascii "k", ascii "0123456789"]) damaged :=
    ⟨(markedCommand [ascii "SET", ascii "k", ascii "0123456789"]).take 22, byteOf '0',
      (markedCommand [ascii "SET", ascii "k", ascii "0123456789"]).drop 23, byteOf '1', by
        decide, by decide, by decide⟩
  have hrefused : readCommand (damaged ++ writeCommand [ascii "PING"]) =
      .error (.protocol (ascii "bulk string not terminated by CRLF")) := by decide
  have hno : ¬ Misled [] [ascii "SET", ascii "k", ascii "0123456789"] [[ascii "PING"]] damaged := by
    intro hm
    have htorn := (stops_damaged_iff (List.cons_ne_nil _ _) hd).2 hm
    cases htorn.unique (stops_of_error hrefused)
  have hall := (damage_refused_iff_not_misled [] _ (List.cons_ne_nil _ _) hd).2 hno
  exact ⟨hd, hall _ Unit (infallible (fun seen c => seen ++ [c]) Unit) []⟩

/-- The first digit of a length is changed, and the file is too short for it: the whole log is cut
off as a torn tail. -/
theorem damage_truncates_log :
    let log :=
      writeCommand [ascii "SET", ascii "k", ascii "0123456789"] ++ writeCommand [ascii "PING"]
    let damaged := ascii "*3\r\n$3\r\nSET\r\n$1\r\nk\r\n$90\r\n0123456789\r\n*1\r\n$4\r\nPING\r\n"
    (damaged = log.set 21 (byteOf '9')) ∧ log.getD 21 0 = byteOf '1' ∧
      replay (infallible (fun seen c => seen ++ [c]) Unit) [] (some damaged) =
          some ⟨⟨0, 0, 51⟩, none, [], some []⟩ := by
  refine ⟨by decide, by decide, by decide⟩

end RedisClone.Aof
