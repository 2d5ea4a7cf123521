import RedisClone.Resp.Reader
import Mathlib.Data.List.TakeWhile

namespace RedisClone.Resp

open Lib.Decimal

lemma readSlice_line (line rest : Bytes) (hlf : lf ∉ line)
    (hlen : line.length < readerBufSize) :
    readSlice (line ++ lf :: rest) = (line ++ [lf], none, rest) := by
  have ht : (line ++ lf :: rest).takeWhile (· != lf) = line := by
    rw [List.takeWhile_append_of_pos (by intro b hb; simpa using ne_of_mem_of_not_mem hb hlf)]
    simp
  have hm : line.length < min (line ++ lf :: rest).length readerBufSize := by
    simp only [List.length_append, List.length_cons]
    omega
  have hd : (line ++ lf :: rest).drop (line.length + 1) = rest := by simp
  simp only [readSlice, ht, if_pos hm, hd]

lemma readSlice_short {src : Bytes} (hlf : lf ∉ src) (hlen : src.length < readerBufSize) :
    readSlice src = (src, some .eof, []) := by
  have ht : src.takeWhile (· != lf) = src := by
    rw [List.takeWhile_eq_self_iff]
    intro b hb
    simpa using ne_of_mem_of_not_mem hb hlf
  have hm : ¬ src.length < min src.length readerBufSize := by omega
  simp only [readSlice, ht, if_neg hm, if_neg (by omega : ¬ readerBufSize ≤ src.length)]

lemma readLine_line (line rest : Bytes) (hne : line ≠ []) (hlf : lf ∉ line)
    (hlen : line.length + 1 < readerBufSize) :
    readLine (line ++ (crlf ++ rest)) = .ok (line, rest) := by
  have hs : readSlice (line ++ (crlf ++ rest)) = (line ++ crlf, none, rest) := by
    have hh := readSlice_line (line ++ [cr]) rest
      (by simpa [hlf] using (by decide : lf ≠ cr)) (by simpa using hlen)
    simpa [crlf] using hh
  have hl : (line ++ crlf).length = line.length + 2 := by simp [crlf]
  have hc : (line ++ crlf).getD line.length 0 = cr := by simp [crlf]
  simp only [readLine, hs, hl, Nat.add_sub_cancel, hc, List.take_left]
  rw [if_neg (by simp), if_neg hne]

lemma readLine_short {src : Bytes} (hlf : lf ∉ src) (hlen : src.length < readerBufSize) :
    readLine src = .error (if src = [] then .eof else .unexpectedEOF) := by
  simp only [readLine, readSlice_short hlf hlen]
  split_ifs <;> rfl

section CountLine

variable {typ : UInt8} (htyp : typ ≠ lf) {n : ℕ} (hn : n < 10 ^ 20)

lemma lf_notMem_formatNat (n : ℕ) : lf ∉ formatNat n := by
  intro h
  have hd := digit_of_mem_formatNat h
  revert hd
  decide

include htyp hn

lemma readLine_countLine (rest : Bytes) :
    readLine (countLine typ n ++ rest) = .ok (typ :: formatNat n, rest) := by
  have hl := formatNat_length_le (by omega) hn
  have hh := readLine_line (typ :: formatNat n) rest (by simp)
    (by simpa [lf_notMem_formatNat] using htyp.symm)
    (by simp only [List.length_cons, readerBufSize]; omega)
  simpa [countLine] using hh

lemma readLine_countLine_take {q : ℕ} (hq : q < (countLine typ n).length) :
    readLine ((countLine typ n).take q) = .error (if q = 0 then .eof else .unexpectedEOF) := by
  have hl := formatNat_length_le (by omega) hn
  have hcut : (countLine typ n).take q = (typ :: (formatNat n ++ [cr])).take q := by
    have he : countLine typ n = typ :: (formatNat n ++ [cr]) ++ [lf] := by simp [countLine, crlf]
    have hlen : q ≤ (typ :: (formatNat n ++ [cr])).length := by
      rw [he, List.length_append, List.length_singleton] at hq
      omega
    rw [he, List.take_append_of_le_length hlen]
  have hlf : lf ∉ (typ :: (formatNat n ++ [cr])).take q := by
    intro h
    have hm := List.mem_of_mem_take h
    simp only [List.mem_cons, List.mem_append, List.not_mem_nil, or_false] at hm
    rcases hm with hm | hm | hm
    · exact htyp hm.symm
    · exact lf_notMem_formatNat n hm
    · exact absurd hm (by decide)
  rw [hcut, readLine_short hlf (by simp [readerBufSize]; omega)]
  cases q <;> simp

end CountLine

lemma readBulkString_bulkString {p : Bytes} (hp : p.length ≤ maxBulkLength) (rest : Bytes) :
    readBulkString (bulkString p ++ rest) = .ok (p, rest) := by
  have hn : p.length < 10 ^ 20 := by simp only [maxBulkLength] at hp; omega
  have hparse : parseInt64 (formatNat p.length) = some (p.length : ℤ) :=
    parseInt64_formatNat (by simp only [maxBulkLength, maxInt64] at *; omega)
  have hrange : ¬ ((p.length : ℤ) < 0 ∨ (p.length : ℤ) > maxBulkLength) := by omega
  have htake : (p ++ (crlf ++ rest)).take (p.length + 2) = p ++ crlf := by
    rw [← List.append_assoc]
    exact List.take_left' (by simp [crlf])
  have hdrop : (p ++ (crlf ++ rest)).drop (p.length + 2) = rest := by
    rw [← List.append_assoc]
    exact List.drop_left' (by simp [crlf])
  rw [bulkString_eq, List.append_assoc, List.append_assoc, readBulkString,
    readLine_countLine (by decide) hn]
  simp only [List.headD_cons, List.tail_cons, hparse, Int.toNat_natCast, htake,
    hdrop, if_neg hrange]
  simp [crlf]

lemma readBulkString_tooLong {p : Bytes} (hp : maxBulkLength < p.length)
    (hint : (p.length : ℤ) ≤ maxInt64) (rest : Bytes) :
    readBulkString (bulkString p ++ rest) = .error (.protocol (ascii "invalid bulk length")) := by
  have hn : p.length < 10 ^ 20 := by simp only [maxInt64] at hint; omega
  have hrange : (p.length : ℤ) < 0 ∨ (p.length : ℤ) > maxBulkLength := .inr (by exact_mod_cast hp)
  rw [bulkString_eq, List.append_assoc, readBulkString, readLine_countLine (by decide) hn]
  have hparse : parseInt64 (formatNat p.length) = some (p.length : ℤ) := parseInt64_formatNat hint
  simp only [List.headD_cons, List.tail_cons, hparse]
  rw [if_neg (by simp), if_pos hrange]

lemma readBulkString_take {p : Bytes} (hp : p.length ≤ maxBulkLength) {q : ℕ}
    (hq : q < (bulkString p).length) :
    readBulkString ((bulkString p).take q) = .error .unexpectedEOF := by
  have hn : p.length < 10 ^ 20 := by simp only [maxBulkLength] at hp; omega
  rw [bulkString_eq] at hq ⊢
  by_cases hh : q < (countLine (byteOf '$') p.length).length
  · rw [List.take_append_of_le_length hh.le, readBulkString, readLine_countLine_take
      (by decide) hn hh]
    dsimp only
    split_ifs <;> rfl
  · have hparse : parseInt64 (formatNat p.length) = some (p.length : ℤ) :=
      parseInt64_formatNat (by simp only [maxBulkLength, maxInt64] at *; omega)
    have hrange : ¬ ((p.length : ℤ) < 0 ∨ (p.length : ℤ) > maxBulkLength) := by omega
    have hshort : ((p ++ crlf).take (q - (countLine (byteOf '$') p.length).length)).length
        < p.length + 2 := by
      simp only [List.length_append, List.length_take, crlf, List.length_cons, List.length_nil] at *
      omega
    rw [List.take_append, List.take_of_length_le (by omega), readBulkString,
      readLine_countLine (by decide) hn]
    simp only [List.headD_cons, List.tail_cons, hparse, Int.toNat_natCast, if_neg hrange,
      if_pos hshort]
    simp

lemma readArgs_args {args : List Bytes} (h : ∀ p ∈ args, p.length ≤ maxBulkLength) (rest : Bytes) :
    readArgs args.length (args.flatMap bulkString ++ rest) = .ok (args, rest) := by
  induction args with
  | nil => rfl
  | cons p args ih =>
    have hp := readBulkString_bulkString (h p (by simp)) (args.flatMap bulkString ++ rest)
    have ht := ih (fun p hp => h p (by simp [hp]))
    simp only [List.length_cons, List.flatMap_cons, List.append_assoc, readArgs, hp, ht]

lemma readArgs_tooLong {p : Bytes} (hp : maxBulkLength < p.length)
    (hint : (p.length : ℤ) ≤ maxInt64) {args : List Bytes}
    (h : ∀ b ∈ args, b.length ≤ maxBulkLength) (rest : Bytes) :
    readArgs (args.length + 1) (args.flatMap bulkString ++ (bulkString p ++ rest)) =
      .error (.protocol (ascii "invalid bulk length")) := by
  induction args with
  | nil => simp only [List.flatMap_nil, List.nil_append, readArgs, readBulkString_tooLong hp hint]
  | cons b args ih =>
    have hb := readBulkString_bulkString (h b List.mem_cons_self)
      (args.flatMap bulkString ++ (bulkString p ++ rest))
    have ht := ih fun b hb => h b (List.mem_cons_of_mem _ hb)
    simp only [List.length_cons, List.flatMap_cons, List.append_assoc]
    rw [readArgs, hb]
    simp only [ht]

lemma readArgs_take {args : List Bytes} (h : ∀ p ∈ args, p.length ≤ maxBulkLength) {q : ℕ}
    (hq : q < (args.flatMap bulkString).length) :
    readArgs args.length ((args.flatMap bulkString).take q) = .error .unexpectedEOF := by
  induction args generalizing q with
  | nil => simp at hq
  | cons p args ih =>
    simp only [List.flatMap_cons, List.length_append] at hq
    simp only [List.length_cons, List.flatMap_cons, readArgs]
    by_cases hh : q < (bulkString p).length
    · rw [List.take_append_of_le_length hh.le, readBulkString_take (h p (by simp)) hh]
    · rw [List.take_append, List.take_of_length_le (by omega),
        readBulkString_bulkString (h p (by simp))]
      simp only [ih (fun p hp => h p (by simp [hp])) (by omega : q - (bulkString p).length < _)]

/-- What the parser accepts of a command: at least one argument, at most
`MaxArrayLength` of them, each of at most `MaxBulkLength` bytes. -/
structure WithinLimits (args : List Bytes) : Prop where
  nonempty : args ≠ []
  count : args.length ≤ maxArrayLength
  bulk : ∀ p ∈ args, p.length ≤ maxBulkLength

lemma readCommand_header {args : List Bytes} (h : args.length ≤ maxArrayLength) (rest : Bytes) :
    readCommand (arrayHeader args.length ++ rest) = readArgs args.length rest := by
  have hn : args.length < 10 ^ 20 := by simp only [maxArrayLength] at h; omega
  have hparse : parseInt64 (formatNat args.length) = some (args.length : ℤ) :=
    parseInt64_formatNat (by simp only [maxArrayLength, maxInt64] at *; omega)
  rw [arrayHeader_eq, readCommand, readLine_countLine (by decide) hn]
  simp only [List.headD_cons, List.tail_cons, hparse, Int.toNat_natCast,
    if_neg (by omega : ¬ (args.length : ℤ) < 0),
    if_neg (by omega : ¬ (args.length : ℤ) > maxArrayLength)]
  simp

lemma readCommand_writeCommand {args : List Bytes} (h : WithinLimits args) (rest : Bytes) :
    readCommand (writeCommand args ++ rest) = .ok (args, rest) := by
  rw [writeCommand_eq, List.append_assoc, readCommand_header h.count, readArgs_args h.bulk]

lemma readCommand_tooLong {p : Bytes} (hp : maxBulkLength < p.length)
    (hint : (p.length : ℤ) ≤ maxInt64) (args : List Bytes) (hcount : args.length < maxArrayLength)
    (h : ∀ b ∈ args, b.length ≤ maxBulkLength) (rest : Bytes) :
    readCommand (writeCommand (args ++ [p]) ++ rest) =
    .error (.protocol (ascii "invalid bulk length")) := by
  have hlen : (args ++ [p]).length = args.length + 1 := List.length_append
  rw [writeCommand_eq, List.append_assoc, readCommand_header (by omega), hlen, List.flatMap_append,
    List.flatMap_singleton, List.append_assoc, readArgs_tooLong hp hint h]

lemma readCommand_nil : readCommand [] = .error .eof := by decide

lemma readCommand_take {args : List Bytes} (hcount : args.length ≤ maxArrayLength)
    (hbulk : ∀ p ∈ args, p.length ≤ maxBulkLength) {q : ℕ} (hpos : 0 < q)
    (hq : q < (writeCommand args).length) :
    readCommand ((writeCommand args).take q) = .error .unexpectedEOF := by
  have hn : args.length < 10 ^ 20 := by simp only [maxArrayLength] at hcount; omega
  rw [writeCommand_eq] at hq ⊢
  by_cases hh : q < (arrayHeader args.length).length
  · rw [List.take_append_of_le_length hh.le]
    rw [arrayHeader_eq] at hh ⊢
    rw [readCommand, readLine_countLine_take (by decide) hn hh, if_neg (by omega)]
  · rw [List.take_append, List.take_of_length_le (by omega), readCommand_header hcount]
    apply readArgs_take hbulk
    simp only [List.length_append] at hq
    omega

def readCommands : ℕ → Bytes → Except ReadError (List (List Bytes) × Bytes)
  | 0, src => .ok ([], src)
  | n + 1, src =>
    match readCommand src with
    | .error e => .error e
    | .ok (args, rest) =>
      match readCommands n rest with
      | .error e => .error e
      | .ok (cs, rest) => .ok (args :: cs, rest)

lemma readCommands_writeCommands {cs : List (List Bytes)} (h : ∀ c ∈ cs, WithinLimits c)
    (rest : Bytes) : readCommands cs.length (cs.flatMap writeCommand ++ rest) = .ok (cs, rest) := by
  induction cs with
  | nil => rfl
  | cons c cs ih =>
    have hc := readCommand_writeCommand (h c List.mem_cons_self) (cs.flatMap writeCommand ++ rest)
    have ht := ih fun d hd => h d (List.mem_cons_of_mem c hd)
    simp only [List.length_cons, List.flatMap_cons, List.append_assoc, readCommands, hc, ht]

theorem commands_framed :
    (∀ cs : List (List Bytes), (∀ c ∈ cs, WithinLimits c) → ∀ rest : Bytes,
      readCommands cs.length (cs.flatMap writeCommand ++ rest) = .ok (cs, rest)) ∧
    readCommand [] = .error .eof ∧
    ∀ c : List Bytes, c.length ≤ maxArrayLength → (∀ p ∈ c, p.length ≤ maxBulkLength) →
      ∀ cut, cut <+: writeCommand c → cut ≠ [] → cut ≠ writeCommand c →
      readCommand cut = .error .unexpectedEOF := by
  refine ⟨fun cs h rest => readCommands_writeCommands h rest, readCommand_nil, ?_⟩
  intro c hcount hbulk cut hcut hne hproper
  have htake := List.prefix_iff_eq_take.1 hcut
  have hlen : cut.length < (writeCommand c).length := by
    refine lt_of_le_of_ne hcut.length_le fun he => hproper ?_
    rw [htake, he, List.take_length]
  rw [htake]
  exact readCommand_take hcount hbulk (List.length_pos_iff.2 hne) hlen

theorem commands_framed_headerInPayload :
    readCommands 2 (writeCommand [ascii "SET", ascii "k", ascii "$3\r\n"] ++
        (writeCommand [ascii "PING"] ++ ascii "*1")) =
        .ok ([[ascii "SET", ascii "k", ascii "$3\r\n"], [ascii "PING"]], ascii "*1") ∧
      readCommand ((writeCommand [ascii "SET", ascii "k", ascii "$3\r\n"]).take 26) =
      .error .unexpectedEOF := by
  have hlimits : ∀ c ∈ [[ascii "SET", ascii "k", ascii "$3\r\n"], [ascii "PING"]],
      WithinLimits c := by
    intro c hc
    rcases List.mem_pair.1 hc with rfl | rfl <;> exact ⟨by decide, by decide, by decide⟩
  refine ⟨?_, commands_framed.2.2 _ (by decide) (by decide) _ (List.take_prefix _ _)
    (by decide) (by decide)⟩
  have hh := commands_framed.1 _ hlimits (ascii "*1")
  simpa using hh

end RedisClone.Resp
