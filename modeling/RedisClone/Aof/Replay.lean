import RedisClone.Resp.Framing

namespace RedisClone.Aof

open Lib.Decimal Resp

structure Result where
  commands : ℕ
  bytes : ℤ
  truncated : ℤ
  deriving DecidableEq, Repr

inductive ReplayError (ε : Type)
  | parse (commands : ℕ) (bytes : ℤ) (err : ReadError)
  | apply (command : ℕ) (name : Bytes) (err : ε)
  deriving DecidableEq, Repr

structure Replayed (σ ε : Type) where
  result : Result
  error : Option (ReplayError ε)
  state : σ
  file : Option Bytes
  deriving DecidableEq, Repr

def encodedLen (args : List Bytes) : ℤ :=
  (1 + (formatNat args.length).length + 2 : ℕ) +
    (args.map fun a => ((1 + (formatNat a.length).length + 2 + a.length + 2 : ℕ) : ℤ)).sum

def truncateFile (file : Bytes) (n : ℤ) : Bytes :=
  file.take n.toNat ++ List.replicate (n.toNat - file.length) 0

section Loop

variable {σ ε : Type} (apply : σ → List Bytes → Except ε σ) (file : Bytes)

def replayLoop : ℕ → Bytes → Result → σ → Option (Replayed σ ε)
  | 0, _, _, _ => none
  | fuel + 1, src, res, st =>
    match readCommand src with
    | .error .eof => some ⟨res, none, st, some file⟩
    | .error .unexpectedEOF =>
      some ⟨{ res with truncated := file.length - res.bytes }, none, st,
        some (truncateFile file res.bytes)⟩
    | .error e => some ⟨res, some (.parse res.commands res.bytes e), st, some file⟩
    | .ok ([], rest) => replayLoop fuel rest res st
    | .ok (name :: args, rest) =>
      match apply st (name :: args) with
      | .error e => some ⟨res, some (.apply (res.commands + 1) name e), st, some file⟩
      | .ok st => replayLoop fuel rest
          { res with commands := res.commands + 1, bytes := res.bytes + encodedLen (name :: args) }
            st

def replayFile (st : σ) : Option (Replayed σ ε) :=
  replayLoop apply file (file.length + 1) file ⟨0, 0, 0⟩ st

end Loop

def replay {σ ε : Type} (apply : σ → List Bytes → Except ε σ) (st : σ) :
    Option Bytes → Option (Replayed σ ε)
  | none => some ⟨⟨0, 0, 0⟩, none, st, none⟩
  | some file => replayFile apply file st

lemma countLine_length (typ : UInt8) (n : ℕ) :
    (countLine typ n).length = 1 + (formatNat n).length + 2 := by
  simp only [countLine, formatInt_natCast, List.length_cons, List.length_append, crlf,
    List.length_nil]
  omega

lemma bulkString_length (p : Bytes) :
    (bulkString p).length = 1 + (formatNat p.length).length + 2 + p.length + 2 := by
  rw [bulkString_eq, List.length_append, countLine_length]
  simp only [List.length_append, crlf, List.length_cons, List.length_nil]
  omega

lemma encodedLen_eq (args : List Bytes) : encodedLen args = (writeCommand args).length := by
  have hargs :
    (args.map fun a => ((1 + (formatNat a.length).length + 2 + a.length + 2 : ℕ) : ℤ)).sum =
      ((args.flatMap bulkString).length : ℕ) := by
    induction args with
    | nil => rfl
    | cons a args ih =>
      rw [List.map_cons, List.sum_cons, ih, List.flatMap_cons, List.length_append,
        bulkString_length]
      push_cast
      rfl
  rw [encodedLen, hargs, writeCommand_eq, List.length_append, arrayHeader_eq, countLine_length]
  push_cast
  rfl

def encodeAll (cs : List (List Bytes)) : Bytes := cs.flatMap writeCommand

@[simp] lemma encodeAll_nil : encodeAll [] = [] := rfl

@[simp] lemma encodeAll_cons (c : List Bytes) (cs : List (List Bytes)) :
    encodeAll (c :: cs) = writeCommand c ++ encodeAll cs := rfl

@[simp] lemma encodeAll_append (cs ds : List (List Bytes)) :
    encodeAll (cs ++ ds) = encodeAll cs ++ encodeAll ds := by
  simp [encodeAll]

lemma writeCommand_length_pos (args : List Bytes) : 0 < (writeCommand args).length := by
  rw [writeCommand_eq, List.length_append, arrayHeader_eq, countLine_length]
  omega

section Step

variable {σ ε : Type} {apply : σ → List Bytes → Except ε σ} {file : Bytes}

lemma replayLoop_eof (fuel : ℕ) (res : Result) (st : σ) :
    replayLoop apply file (fuel + 1) [] res st = some ⟨res, none, st, some file⟩ := by
  rw [replayLoop, readCommand_nil]

lemma replayLoop_command {c : List Bytes} (hc : WithinLimits c) (fuel : ℕ) (rest : Bytes)
    (res : Result) {st st' : σ} (h : apply st c = .ok st') :
    replayLoop apply file (fuel + 1) (writeCommand c ++ rest) res st =
      replayLoop apply file fuel rest
        { res with commands := res.commands + 1, bytes := res.bytes + (writeCommand c).length }
          st' := by
  rw [replayLoop, readCommand_writeCommand hc]
  cases c with
  | nil => exact absurd rfl hc.nonempty
  | cons name args => simp only [h, encodedLen_eq]

lemma replayLoop_torn {c : List Bytes} (hc : WithinLimits c) (fuel : ℕ) {q : ℕ} (hpos : 0 < q)
    (hq : q < (writeCommand c).length) (res : Result) (st : σ) :
    replayLoop apply file (fuel + 1) ((writeCommand c).take q) res st =
      some ⟨{ res with truncated := file.length - res.bytes }, none, st,
        some (truncateFile file res.bytes)⟩ := by
  rw [replayLoop, readCommand_take hc.count hc.bulk hpos hq]

end Step

end RedisClone.Aof
