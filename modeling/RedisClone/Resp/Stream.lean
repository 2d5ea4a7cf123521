import RedisClone.Lib.BufferedReader
import RedisClone.Resp.Reader

/-! The parser as it runs, on a buffered reader whose source brings the stream piece by piece. -/

namespace RedisClone.Resp

open Lib Lib.Program Lib.Decimal Lib.BufferedReader

def Truncated {α : Type} : Except ReadError α → Prop
  | .error .eof | .error .unexpectedEOF => True
  | _ => False

def lineOf : Slice UInt8 → Except ReadError (Bytes × Bytes)
  | .full => .error (.protocol (ascii "too big inline request"))
  | .short line => if line = [] then .error .eof else .error .unexpectedEOF
  | .line line rest =>
    if line.length < 2 ∨ line.getD (line.length - 2) 0 ≠ cr then
      .error (.protocol (ascii "unbalanced newline"))
    else
      let line := line.take (line.length - 2)
      if line = [] then .error (.protocol (ascii "empty line")) else .ok (line, rest)

def bulkLength (line : Bytes) : Except ReadError ℕ :=
  if line.headD 0 ≠ byteOf '$' then
    .error (.protocol (ascii "expected '$', got '" ++ printableByte (line.headD 0) ++ ascii "'"))
  else
    match parseInt64 line.tail with
    | none => .error (.protocol (ascii "invalid bulk length"))
    | some n => if n < 0 ∨ n > maxBulkLength then .error (.protocol (ascii "invalid bulk length"))
        else .ok n.toNat

def payload (n : ℕ) : Option (Bytes × Bytes) → Except ReadError (Bytes × Bytes)
  | none => .error .unexpectedEOF
  | some (buf, rest) =>
    if buf.getD n 0 ≠ cr ∨ buf.getD (n + 1) 0 ≠ lf then
      .error (.protocol (ascii "bulk string not terminated by CRLF"))
    else .ok (buf.take n, rest)

def arrayLength (line : Bytes) : Except ReadError ℕ :=
  if line.headD 0 ≠ byteOf '*' then
    .error (.protocol (ascii "expected '*', got '" ++ printableByte (line.headD 0) ++ ascii "'"))
  else
    match parseInt64 line.tail with
    | none => .error (.protocol (ascii "invalid multibulk length"))
    | some n =>
      if n < 0 then .error (.protocol (ascii "invalid multibulk length"))
      else if n > maxArrayLength then .error (.protocol (ascii "invalid multibulk length"))
      else .ok n.toNat

def withArg (arg : Bytes) :
    Except ReadError (List Bytes × Bytes) → Except ReadError (List Bytes × Bytes)
  | .error e => .error e
  | .ok (args, rest) => .ok (arg :: args, rest)

namespace Reader

def readLine (buf : Bytes) : Reading UInt8 (Except ReadError (Bytes × Bytes)) :=
  lineOf <$> BufferedReader.readSlice readerBufSize lf readerBufSize buf

def readBulkString (buf : Bytes) : Reading UInt8 (Except ReadError (Bytes × Bytes)) := do
  match ← readLine buf with
  | .error e => return .error (unexpectedEOF e)
  | .ok (line, rest) =>
    match bulkLength line with
    | .error e => return .error e
    | .ok n => payload n <$> BufferedReader.readFull readerBufSize (n + 2) (n + 2) [] rest

def readArgs : ℕ → Bytes → Reading UInt8 (Except ReadError (List Bytes × Bytes))
  | 0, buf => return .ok ([], buf)
  | n + 1, buf => do
    match ← readBulkString buf with
    | .error e => return .error e
    | .ok (arg, rest) => withArg arg <$> readArgs n rest

def readCommand (buf : Bytes) : Reading UInt8 (Except ReadError (List Bytes × Bytes)) := do
  match ← readLine buf with
  | .error e => return .error e
  | .ok (line, rest) =>
    match arrayLength line with
    | .error e => return .error e
    | .ok n => readArgs n rest

end Reader

section Whole

lemma readLine_eq (src : Bytes) : readLine src = lineOf (slice readerBufSize lf src) := by
  simp only [readLine, readSlice, slice]
  split_ifs <;> rfl

lemma readBulkString_eq (src : Bytes) : readBulkString src =
    match readLine src with
    | .error e => .error (unexpectedEOF e)
    | .ok (line, rest) =>
      match bulkLength line with
      | .error e => .error e
      | .ok n => payload n (full (n + 2) rest) := by
  simp only [readBulkString]
  rcases readLine src with e | ⟨line, rest⟩
  · rfl
  · simp only [bulkLength]
    split_ifs with hd
    · rfl
    · cases parseInt64 line.tail with
      | none => rfl
      | some n =>
        simp only
        split_ifs with hn hlen hcrlf
        · rfl
        · simp only [full, if_neg (not_le.2 hlen), payload]
        · simp only [full, if_pos (not_lt.1 hlen), payload, if_pos hcrlf]
        · simp only [full, if_pos (not_lt.1 hlen), payload, if_neg hcrlf]

lemma readArgs_eq (n : ℕ) (src : Bytes) : readArgs (n + 1) src =
    match readBulkString src with
    | .error e => .error e
    | .ok (arg, rest) => withArg arg (readArgs n rest) := by
  simp only [readArgs]
  rcases readBulkString src with e | ⟨arg, rest⟩
  · rfl
  · cases readArgs n rest <;> rfl

lemma readCommand_eq (src : Bytes) : readCommand src =
    match readLine src with
    | .error e => .error e
    | .ok (line, rest) =>
      match arrayLength line with
      | .error e => .error e
      | .ok n => readArgs n rest := by
  simp only [readCommand]
  rcases readLine src with e | ⟨line, rest⟩
  · rfl
  · simp only [arrayLength]
    split_ifs with hd
    · rfl
    · cases parseInt64 line.tail with
      | none => rfl
      | some n =>
        simp only
        split_ifs <;> rfl

def more {α : Type} (x : Bytes) : Except ReadError (α × Bytes) → Except ReadError (α × Bytes)
  | .ok (a, rest) => .ok (a, rest ++ x)
  | .error e => .error e

variable {src : Bytes}

lemma truncated_lineOf (s : Slice UInt8) : Truncated (lineOf s) ↔ s.Short := by
  cases s with
  | line l rest =>
    simp only [lineOf]
    split_ifs <;> exact Iff.rfl
  | full => exact Iff.rfl
  | short l =>
    simp only [lineOf]
    split_ifs <;> exact Iff.rfl

lemma truncated_payload (n : ℕ) (r : Option (Bytes × Bytes)) :
    Truncated (payload n r) ↔ r = none := by
  cases r with
  | none => exact iff_of_true trivial rfl
  | some r =>
    simp only [payload]
    split_ifs <;> exact iff_of_false id id

lemma truncated_withArg (arg : Bytes) (r : Except ReadError (List Bytes × Bytes)) :
    Truncated (withArg arg r) ↔ Truncated r := by
  cases r with
  | error e => exact Iff.rfl
  | ok r => exact Iff.rfl

lemma truncated_unexpectedEOF {α β : Type} {e : ReadError} :
    Truncated (.error (unexpectedEOF e) : Except ReadError α) ↔
    Truncated (.error e : Except ReadError β) := by
  cases e <;> exact Iff.rfl

lemma truncated_error {α β : Type} {e : ReadError} :
    Truncated (.error e : Except ReadError α) ↔ Truncated (.error e : Except ReadError β) := by
  cases e <;> exact Iff.rfl

lemma bulkLength_error {line : Bytes} {e : ReadError} (h : bulkLength line = .error e) {α : Type} :
    ¬ Truncated (.error e : Except ReadError α) := by
  simp only [bulkLength] at h
  split_ifs at h
  · cases h
    exact id
  · split at h
    · cases h
      exact id
    · split_ifs at h
      cases h
      exact id

lemma arrayLength_error {line : Bytes} {e : ReadError}
    (h : arrayLength line = .error e) {α : Type} : ¬ Truncated (.error e : Except ReadError α) := by
  simp only [arrayLength] at h
  split_ifs at h
  · cases h
    exact id
  · split at h
    · cases h
      exact id
    · split_ifs at h <;> cases h <;> exact id

lemma readLine_more (h : ¬ Truncated (readLine src)) (x : Bytes) :
    readLine (src ++ x) = more x (readLine src) := by
  rw [readLine_eq, truncated_lineOf] at h
  rw [readLine_eq, readLine_eq, slice_append h]
  cases hs : slice readerBufSize lf src with
  | line l rest =>
    simp only [Slice.more, lineOf]
    split_ifs <;> rfl
  | full => rfl
  | short l => exact absurd (by rw [hs]; exact trivial) h

lemma payload_more {n : ℕ} (h : ¬ Truncated (payload n (full (n + 2) src))) (x : Bytes) :
    payload n (full (n + 2) (src ++ x)) = more x (payload n (full (n + 2) src)) := by
  by_cases hlen : n + 2 ≤ src.length
  · have hlong : n + 2 ≤ (src ++ x).length := by
      rw [List.length_append]
      omega
    simp only [full, if_pos hlen, if_pos hlong, payload, List.take_append_of_le_length hlen,
      List.drop_append_of_le_length hlen]
    split_ifs <;> rfl
  · exact absurd (by rw [full, if_neg hlen]; exact trivial) h

lemma readBulkString_more (h : ¬ Truncated (readBulkString src)) (x : Bytes) :
    readBulkString (src ++ x) = more x (readBulkString src) := by
  rw [readBulkString_eq] at h
  rw [readBulkString_eq, readBulkString_eq]
  cases hl : readLine src with
  | error e =>
    rw [hl] at h
    rw [readLine_more (by rw [hl]; exact fun ht => h (truncated_unexpectedEOF.2 ht)), hl]
    rfl
  | ok p =>
    obtain ⟨line, rest⟩ := p
    rw [hl] at h
    rw [readLine_more (by rw [hl]; exact id), hl]
    simp only [more] at h ⊢
    cases hn : bulkLength line with
    | error e => rfl
    | ok n =>
      rw [hn] at h
      exact payload_more h x

lemma readArgs_more (n : ℕ) :
    ∀ {src : Bytes}, ¬ Truncated (readArgs n src) →
    ∀ x, readArgs n (src ++ x) = more x (readArgs n src) := by
  induction n with
  | zero => exact fun _ _ => rfl
  | succ n ih =>
    intro src h x
    rw [readArgs_eq] at h
    rw [readArgs_eq, readArgs_eq]
    cases hb : readBulkString src with
    | error e =>
      rw [hb] at h
      rw [readBulkString_more (by rw [hb]; exact fun ht => h (truncated_error.2 ht)), hb]
      rfl
    | ok p =>
      obtain ⟨arg, rest⟩ := p
      rw [hb] at h
      rw [readBulkString_more (by rw [hb]; exact id), hb]
      simp only [more] at h ⊢
      rw [ih (fun ht => h ((truncated_withArg _ _).2 ht))]
      cases readArgs n rest <;> rfl

lemma readCommand_more (h : ¬ Truncated (readCommand src)) (x : Bytes) :
    readCommand (src ++ x) = more x (readCommand src) := by
  rw [readCommand_eq] at h
  rw [readCommand_eq, readCommand_eq]
  cases hl : readLine src with
  | error e =>
    rw [hl] at h
    rw [readLine_more (by rw [hl]; exact fun ht => h (truncated_error.2 ht)), hl]
    rfl
  | ok p =>
    obtain ⟨line, rest⟩ := p
    rw [hl] at h
    rw [readLine_more (by rw [hl]; exact id), hl]
    simp only [more] at h ⊢
    cases hn : arrayLength line with
    | error e => rfl
    | ok n =>
      rw [hn] at h
      exact readArgs_more n h x

end Whole

section Pieces

lemma parses_readLine (buf : Bytes) : Parses Truncated readLine buf (Reader.readLine buf) :=
  Parses.resume (fun x => readLine_eq (buf ++ x)) truncated_lineOf
    (parses_readSlice readerBufSize (Nat.le_add_right _ _))

lemma parses_readBulkString (buf : Bytes) :
    Parses Truncated readBulkString buf (Reader.readBulkString buf) := by
  refine (parses_readLine buf).bind (fun s hs => ?_) fun s hs => ?_
  · cases hl : readLine s with
    | error e =>
      rw [hl] at hs
      rw [readBulkString_eq, hl]
      exact ⟨truncated_unexpectedEOF.2 hs, rfl⟩
    | ok p =>
      rw [hl] at hs
      exact absurd hs id
  · have heq := readBulkString_eq s
    cases hl : readLine s with
    | error e =>
      rw [hl] at heq hs
      exact Parses.done heq fun ht => hs (truncated_unexpectedEOF.1 ht)
    | ok p =>
      obtain ⟨line, rest⟩ := p
      rw [hl] at heq
      simp only at heq ⊢
      cases hn : bulkLength line with
      | error e =>
        rw [hn] at heq
        exact Parses.done heq (bulkLength_error hn)
      | ok n =>
        refine Parses.resume (fun x => ?_) (truncated_payload n)
          (parses_readFull readerBufSize (n + 2) (n + 2) [] rest (Nat.le_add_right _ _))
        rw [readBulkString_eq, readLine_more hs, hl]
        simp only [more, hn, List.nil_append, List.length_nil, Nat.zero_add]

lemma parses_readArgs (n : ℕ) :
    ∀ buf : Bytes, Parses Truncated (readArgs n) buf (Reader.readArgs n buf) := by
  induction n with
  | zero => exact fun buf => Parses.done rfl id
  | succ n ih =>
    intro buf
    refine (parses_readBulkString buf).bind (fun s hs => ?_) fun s hs => ?_
    · cases hb : readBulkString s with
      | error e =>
        rw [hb] at hs
        rw [readArgs_eq, hb]
        exact ⟨truncated_error.2 hs, rfl⟩
      | ok p =>
        rw [hb] at hs
        exact absurd hs id
    · cases hb : readBulkString s with
      | error e =>
        have heq := readArgs_eq n s
        rw [hb] at heq hs
        exact Parses.done heq fun ht => hs (truncated_error.1 ht)
      | ok p =>
        obtain ⟨arg, rest⟩ := p
        refine Parses.resume (fun x => ?_) (truncated_withArg arg) (ih rest)
        rw [readArgs_eq, readBulkString_more hs, hb]
        rfl

lemma parses_readCommand (buf : Bytes) :
    Parses Truncated readCommand buf (Reader.readCommand buf) := by
  refine (parses_readLine buf).bind (fun s hs => ?_) fun s hs => ?_
  · cases hl : readLine s with
    | error e =>
      rw [hl] at hs
      rw [readCommand_eq, hl]
      exact ⟨truncated_error.2 hs, rfl⟩
    | ok p =>
      rw [hl] at hs
      exact absurd hs id
  · have heq := readCommand_eq s
    cases hl : readLine s with
    | error e =>
      rw [hl] at heq hs
      exact Parses.done heq fun ht => hs (truncated_error.1 ht)
    | ok p =>
      obtain ⟨line, rest⟩ := p
      rw [hl] at heq
      simp only at heq ⊢
      cases hn : arrayLength line with
      | error e =>
        rw [hn] at heq
        exact Parses.done heq (arrayLength_error hn)
      | ok n =>
        simp only
        rw [← id_map (Reader.readArgs n rest)]
        refine Parses.resume (fun x => ?_) (fun _ => Iff.rfl) (parses_readArgs n rest)
        rw [readCommand_eq, readLine_more hs, hl]
        simp only [more, hn]
        rfl

end Pieces

end RedisClone.Resp
