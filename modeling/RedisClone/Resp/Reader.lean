import RedisClone.Resp.Writer

/-! The RESP2 command parser, on the bytes that are still unread. -/

namespace RedisClone.Resp

open Lib.Decimal

def maxBulkLength : ℕ := 512 * 1024 * 1024
def maxArrayLength : ℕ := 1024 * 1024
def readerBufSize : ℕ := 16 * 1024

inductive ReadError
  | eof
  | unexpectedEOF
  | protocol (msg : Bytes)
  deriving DecidableEq, Repr

def hexDigit (n : ℕ) : UInt8 := byteOf n.digitChar

def printableByte (b : UInt8) : Bytes :=
  if 0x20 ≤ b ∧ b < 0x7f then [b]
  else ascii "\\x" ++ [hexDigit (b.toNat / 16), hexDigit (b.toNat % 16)]

inductive SliceError
  | bufferFull
  | eof
  deriving DecidableEq, Repr

/-- `bufio.Reader.ReadSlice('\n')`: the line with its LF, or what there is when the
buffer fills up or the source ends before an LF; then what stays unread. -/
def readSlice (src : Bytes) : Bytes × Option SliceError × Bytes :=
  let line := src.takeWhile (· != lf)
  if line.length < min src.length readerBufSize then
    (line ++ [lf], none, src.drop (line.length + 1))
  else if readerBufSize ≤ src.length then
    (src.take readerBufSize, some .bufferFull, src.drop readerBufSize)
  else (src, some .eof, [])

def readLine (src : Bytes) : Except ReadError (Bytes × Bytes) :=
  match readSlice src with
  | (_, some .bufferFull, _) => .error (.protocol (ascii "too big inline request"))
  | (line, some .eof, _) => if line = [] then .error .eof else .error .unexpectedEOF
  | (line, none, rest) =>
    if line.length < 2 ∨ line.getD (line.length - 2) 0 ≠ cr then
      .error (.protocol (ascii "unbalanced newline"))
    else
      let line := line.take (line.length - 2)
      if line = [] then .error (.protocol (ascii "empty line")) else .ok (line, rest)

/-- Inside a command a clean end of the stream is a truncation. -/
def unexpectedEOF : ReadError → ReadError
  | .eof => .unexpectedEOF
  | e => e

def readBulkString (src : Bytes) : Except ReadError (Bytes × Bytes) :=
  match readLine src with
  | .error e => .error (unexpectedEOF e)
  | .ok (line, rest) =>
    if line.headD 0 ≠ byteOf '$' then
      .error (.protocol (ascii "expected '$', got '" ++ printableByte (line.headD 0) ++ ascii "'"))
    else
      match parseInt64 line.tail with
      | none => .error (.protocol (ascii "invalid bulk length"))
      | some n =>
        if n < 0 ∨ n > maxBulkLength then .error (.protocol (ascii "invalid bulk length"))
        else
          let n := n.toNat
          if rest.length < n + 2 then .error .unexpectedEOF
          else
            let buf := rest.take (n + 2)
            if buf.getD n 0 ≠ cr ∨ buf.getD (n + 1) 0 ≠ lf then
              .error (.protocol (ascii "bulk string not terminated by CRLF"))
            else .ok (buf.take n, rest.drop (n + 2))

def readArgs : ℕ → Bytes → Except ReadError (List Bytes × Bytes)
  | 0, src => .ok ([], src)
  | n + 1, src =>
    match readBulkString src with
    | .error e => .error e
    | .ok (arg, rest) =>
      match readArgs n rest with
      | .error e => .error e
      | .ok (args, rest) => .ok (arg :: args, rest)

def readCommand (src : Bytes) : Except ReadError (List Bytes × Bytes) :=
  match readLine src with
  | .error e => .error e
  | .ok (line, rest) =>
    if line.headD 0 ≠ byteOf '*' then
      .error (.protocol (ascii "expected '*', got '" ++ printableByte (line.headD 0) ++ ascii "'"))
    else
      match parseInt64 line.tail with
      | none => .error (.protocol (ascii "invalid multibulk length"))
      | some n =>
        if n < 0 then .error (.protocol (ascii "invalid multibulk length"))
        else if n > maxArrayLength then .error (.protocol (ascii "invalid multibulk length"))
        else readArgs n.toNat rest

section Progress

variable {src rest : Bytes}

lemma readSlice_shorter {line : Bytes} (h : readSlice src = (line, none, rest)) :
    rest.length < src.length := by
  simp only [readSlice] at h
  split_ifs at h with h₁ h₂
  · obtain ⟨-, -, rfl⟩ := h
    rw [List.length_drop]
    omega
  · exact absurd (congrArg (·.2.1) h) (Option.some_ne_none _)
  · exact absurd (congrArg (·.2.1) h) (Option.some_ne_none _)

lemma readLine_shorter {line : Bytes} (h : readLine src = .ok (line, rest)) :
    rest.length < src.length := by
  unfold readLine at h
  split at h
  · cases h
  · split_ifs at h
  · rename_i hs
    dsimp only at h
    split_ifs at h
    obtain ⟨-, rfl⟩ := Prod.mk.inj (Except.ok.inj h)
    exact readSlice_shorter hs

lemma readBulkString_shorter {p : Bytes} (h : readBulkString src = .ok (p, rest)) :
    rest.length < src.length := by
  unfold readBulkString at h
  split at h
  · cases h
  · rename_i hl
    have hlt := readLine_shorter hl
    split_ifs at h
    split at h
    · cases h
    · simp only at h
      split_ifs at h
      obtain ⟨-, rfl⟩ := Prod.mk.inj (Except.ok.inj h)
      rw [List.length_drop]
      omega

lemma readArgs_shorter (n : ℕ) :
    ∀ {src rest : Bytes} {args : List Bytes}, readArgs n src = .ok (args, rest) →
    rest.length ≤ src.length := by
  induction n with
  | zero =>
    intro src rest args h
    obtain ⟨-, rfl⟩ := Prod.mk.inj (Except.ok.inj h)
    exact le_rfl
  | succ n ih =>
    intro src rest args h
    simp only [readArgs] at h
    split at h
    · cases h
    · rename_i hb
      split at h
      · cases h
      · rename_i ha
        obtain ⟨-, rfl⟩ := Prod.mk.inj (Except.ok.inj h)
        exact (ih ha).trans (readBulkString_shorter hb).le

lemma readCommand_shorter {args : List Bytes} (h : readCommand src = .ok (args, rest)) :
    rest.length < src.length := by
  unfold readCommand at h
  split at h
  · cases h
  · rename_i hl
    split_ifs at h
    split at h
    · cases h
    · split_ifs at h
      exact (readArgs_shorter _ h).trans_lt (readLine_shorter hl)

end Progress

section Messages

def ReadError.Tellable : ReadError → Prop
  | .protocol msg => OneLine msg
  | _ => True

lemma oneLine_printableByte (b : UInt8) : OneLine (printableByte b) := by
  have hhex : ∀ n < 16, hexDigit n ≠ cr ∧ hexDigit n ≠ lf := by decide
  simp only [printableByte]
  split_ifs with h
  · intro c hc
    obtain rfl := List.mem_singleton.1 hc
    constructor <;> rintro rfl <;> exact absurd h.1 (by decide)
  · refine (by decide : OneLine (ascii "\\x")).append fun c hc => ?_
    have hlt : b.toNat < 256 := b.toNat_lt
    rcases List.mem_pair.1 hc with rfl | rfl
    · exact hhex _ (by omega)
    · exact hhex _ (by omega)

variable {src : Bytes} {e : ReadError}

lemma readLine_tellable (h : readLine src = .error e) : e.Tellable := by
  unfold readLine at h
  split at h
  · cases h
    exact (by decide : OneLine (ascii "too big inline request"))
  · split_ifs at h <;> cases h <;> exact trivial
  · dsimp only at h
    split_ifs at h <;> cases h
    · exact (by decide : OneLine (ascii "unbalanced newline"))
    · exact (by decide : OneLine (ascii "empty line"))

lemma unexpectedEOF_tellable (h : e.Tellable) : (unexpectedEOF e).Tellable := by
  cases e with
  | protocol msg => exact h
  | _ => trivial

lemma readBulkString_tellable (h : readBulkString src = .error e) : e.Tellable := by
  unfold readBulkString at h
  split at h
  · rename_i hl
    cases h
    exact unexpectedEOF_tellable (readLine_tellable hl)
  · split_ifs at h
    · cases h
      exact ((by decide : OneLine (ascii "expected '$', got '")).append
        (oneLine_printableByte _)).append (by decide)
    · split at h
      · cases h
        exact (by decide : OneLine (ascii "invalid bulk length"))
      · simp only at h
        split_ifs at h <;> cases h
        · exact (by decide : OneLine (ascii "invalid bulk length"))
        · trivial
        · exact (by decide : OneLine (ascii "bulk string not terminated by CRLF"))

lemma readArgs_tellable (n : ℕ) :
    ∀ {src : Bytes} {e : ReadError}, readArgs n src = .error e → e.Tellable := by
  induction n with
  | zero =>
    intro src e h
    cases h
  | succ n ih =>
    intro src e h
    simp only [readArgs] at h
    split at h
    · rename_i hb
      cases h
      exact readBulkString_tellable hb
    · split at h
      · rename_i ha
        cases h
        exact ih ha
      · cases h

lemma readCommand_tellable (h : readCommand src = .error e) : e.Tellable := by
  unfold readCommand at h
  split at h
  · rename_i hl
    cases h
    exact readLine_tellable hl
  · split_ifs at h
    · cases h
      exact ((by decide : OneLine (ascii "expected '*', got '")).append
        (oneLine_printableByte _)).append (by decide)
    · split at h
      · cases h
        exact (by decide : OneLine (ascii "invalid multibulk length"))
      · split_ifs at h
        · cases h
          exact (by decide : OneLine (ascii "invalid multibulk length"))
        · cases h
          exact (by decide : OneLine (ascii "invalid multibulk length"))
        · exact readArgs_tellable _ h

end Messages

end RedisClone.Resp
